import PolishCalc.CommandLine.Console
import PolishCalc.CommandLine.Health

namespace PolishCalc.CommandLine

inductive Launch where
  | finished (run : Run)
  | console (console : Console) (source : Source)

structure Setup where
  settings : Settings
  source : Source
  seeded : Nat → Source
  fillsPrompts : Bool
  parts : List Health.Part

structure Logging where
  threshold : Nat
  file : Option Text

def withoutPrompt (expression : Text) : Text :=
  let text := expression.trim
  if prompt.trim.isPrefixOf text then Text.trim (text.drop prompt.trim.length) else text

def evaluateOnce (setup : Setup) (source : Source) (a : Arguments) (s : Session)
    (expression : Text) : Run :=
  let e := evaluateLine setup.settings source a.format a.verbose s (withoutPrompt expression)
  let ending : Ending := match e.failure with
    | none => .exit 0
    | some (.reported _) => .exit 1
    | some (.fault fault) => .failure (.fault fault)
  ⟨ending, e.printed, e.records, [], e.session⟩

def idle (setup : Setup) (ending : Ending) (printed : Text) (records : List Log.Record) : Run :=
  ⟨ending, printed, records, [], Session.fresh setup.settings⟩

def healthRun (setup : Setup) : Run :=
  let result := Health.run setup.settings setup.source setup.parts
  let ending : Ending := match result.code with
    | .ok code => .exit code
    | .error fault => .failure (.fault fault)
  idle setup ending result.printed result.records

def chooseSource (setup : Setup) : Option Int → Except Fault Source
  | none => .ok setup.source
  | some seed => if seed < 0 then .error .negativeSeed else .ok (setup.seeded seed.toNat)

def openSession (settings : Settings) : Given Int → Except Fault Session
  | .absent => .ok (Session.fresh settings)
  | .bare => .error (.valueless .asPrecision)
  | .value n =>
    let s := Session.fresh settings
    .ok { s with precision := s.precision.setInteger n }

def broken (s : Session) (fault : Fault) : Run :=
  ⟨.failure (.fault fault), [], [], [], s⟩

def launch (setup : Setup) (a : Arguments) : Launch :=
  if a.version then .finished (idle setup (.exit 0) (line version.toList) [])
  else if a.healthCheck then .finished (healthRun setup)
  else
    match openSession setup.settings a.precision with
    | .error fault => .finished (broken (Session.fresh setup.settings) fault)
    | .ok s =>
      match chooseSource setup a.seed with
      | .error fault => .finished (broken s fault)
      | .ok source =>
        match a.expression with
        | .absent => .console ⟨s, a.verbose, a.format, setup.fillsPrompts, none⟩ source
        | .bare => .finished (broken s (.valueless .asExpression))
        | .value expression => .finished (evaluateOnce setup source a s expression)

def halted (setup : Setup) : Halt → Run
  | .help => idle setup (.exit 0) usage []
  | .misuse misuse => idle setup (.misuse misuse.message) [] []

def Arguments.logging (a : Arguments) : Except Fault Logging :=
  match a.logLevel with
  | none => .error (.valueless .asLogLevel)
  | some level =>
    (Log.threshold level).map fun threshold =>
      ⟨threshold, a.logFile.filter fun file => !file.isEmpty⟩

def start (setup : Setup) (argv : List Text) : Launch × Logging :=
  match Arguments.read setup.settings argv with
  | .error halt => (.finished (halted setup halt), ⟨0, none⟩)
  | .ok a =>
    match a.logging with
    | .error fault => (.finished (broken (Session.fresh setup.settings) fault), ⟨0, none⟩)
    | .ok logging => (launch setup a, logging)

def runProgram (setup : Setup) (argv : List Text) (inputs : List Input) : Run × Logging :=
  match start setup argv with
  | (.finished run, logging) => (run, logging)
  | (.console c source, logging) =>
    let run := c.run setup.settings source inputs
    ({ run with printed := greeting ++ run.printed }, logging)

def Ending.code : Ending → Nat
  | .exit code => code
  | .misuse _ => 2
  | .failure _ => 1

def misuseText (message : Text) : Text :=
  programName.toList ++ ": error: ".toList ++ message

end PolishCalc.CommandLine
