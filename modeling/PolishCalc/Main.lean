import PolishCalc.CommandLine.Program

open PolishCalc CommandLine

def environmentNames : List String :=
  ["CLCS_DEFAULT_PRECISION", "CLCS_MIN_PRECISION", "CLCS_MAX_PRECISION", "CLCS_ANS_DEFAULT",
    "CLCS_MAX_INPUT_LENGTH", "CLCS_MAX_EXPRESSION_DEPTH", "CLCS_RANDOM_SEED", "CLCS_LOG_LEVEL"]

def advance (state : Nat) : Nat :=
  (6364136223846793005 * state + 1442695040888963407) % Nat.pow 2 64

def seeded (seed : Nat) : Source := .within64 fun earlier request =>
  let state := (List.range (2 * earlier.length + 3)).foldl (fun state _ => advance state) seed
  let draw : Nat := state / Nat.pow 2 32 * Nat.pow 2 32 + advance state / Nat.pow 2 32
  .ok (request.low + (draw : Int) % (request.high - request.low + 1))

def readEnvironment : IO Settings.Environment := do
  let pairs ← environmentNames.filterMapM fun name => do
    return (← IO.getEnv name).map fun value => (name, value.toList)
  return fun name => pairs.lookup name

def writeRecords (logging : Logging) (records : List Log.Record) : IO Unit := do
  for r in Log.kept logging.threshold records do
    let milliseconds ← IO.monoMsNow
    let text := r.line (toString milliseconds)
    IO.eprintln text
    if let some file := logging.file then
      IO.FS.withFile (String.ofList file) .append fun handle => handle.putStrLn text

def write (text : Text) : IO Unit := do
  let output ← IO.getStdout
  output.putStr (String.ofList text)
  output.flush

partial def converse (setup : Setup) (source : Source) (logging : Logging) (c : Console) :
    IO Ending := do
  write prompt
  let input ← IO.getStdin
  let typed ← input.getLine
  let turn := c.answer setup.settings source
    (if typed.isEmpty then none else some (.line (Text.dropEnd (· == '\n') typed.toList)))
  writeRecords logging turn.records
  write turn.printed
  match turn.ending with
  | some ending => return ending
  | none => converse setup source logging turn.console

def report (ending : Ending) : IO Unit := do
  match ending with
  | .exit _ => return
  | .misuse message => IO.eprintln (String.ofList (misuseText message))
  | .failure (.reported error) => IO.eprintln (String.ofList error.message)
  | .failure (.fault fault) => IO.eprintln fault.message

def main (argv : List String) : IO UInt32 := do
  match Settings.read (← readEnvironment) with
  | .error fault =>
    IO.eprintln fault.message
    return 1
  | .ok settings =>
    let seed ← match settings.randomSeed with
      | some seed => pure seed.toNat
      | none => IO.rand 0 (Nat.pow 2 62)
    let setup : Setup := ⟨settings, seeded seed, seeded, false, []⟩
    match start setup (argv.map String.toList) with
    | (.finished run, logging) =>
      writeRecords logging run.records
      write run.printed
      report run.ending
      return UInt32.ofNat run.ending.code
    | (.console c source, logging) =>
      write greeting
      let ending ← converse setup source logging c
      report ending
      return UInt32.ofNat ending.code
