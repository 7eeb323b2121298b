import PolishCalc.CommandLine.Line

namespace PolishCalc.CommandLine

inductive Command where
  | help
  | quit
  | verbose
  | precision (argument : Option Text)
  | reset
  | history
  | previous (draft : Text)
  | next (draft : Text)
  | answer
  deriving DecidableEq

namespace Command

def ofName? (name : Text) (arguments : List Text) (rest : Text) : Option Command :=
  match String.ofList name with
  | "help" => some help
  | "quit" => some quit
  | "exit" => some quit
  | "verbose" => some verbose
  | "precision" => some (precision arguments.head?)
  | "reset" => some reset
  | "history" => some history
  | "prev" => some (previous rest)
  | "next" => some (next rest)
  | "ans" => some answer
  | _ => none

end Command

inductive Entry where
  | blank
  | command (command : Command)
  | expression (text : Text)
  deriving DecidableEq

def Entry.ofLine (raw : Text) : Entry :=
  let text := raw.trim
  match text.words with
  | [] => .blank
  | name :: arguments =>
    match Command.ofName? name.lower arguments (Text.trim (text.drop name.length)) with
    | some c => .command c
    | none => .expression text

structure Console where
  session : Session
  verbose : Bool
  format : Format
  fillsPrompts : Bool
  /-- The start-up hook: the text that it puts into the next prompt. -/
  hook : Option Text

inductive Ending where
  | exit (code : Nat)
  | misuse (message : Text)
  | failure (failure : Failure)
  deriving DecidableEq

structure Turn where
  console : Console
  printed : Text
  records : List Log.Record
  ending : Option Ending

namespace Console

def say (c : Console) (printed : Text) : Turn :=
  ⟨c, printed, [], none⟩

def showEntry (c : Console) (moved : Text × History) : Turn :=
  let c := { c with session := { c.session with history := moved.2 } }
  if c.fillsPrompts then { c with hook := some moved.1 }.say [] else c.say (line moved.1)

def sayPrecision (c : Console) : Turn :=
  c.say (line ("Precision: ".toList ++ integerText c.session.precision.value))

def withPrecision (c : Console) (p : Precision) : Turn :=
  sayPrecision { c with session := { c.session with precision := p } }

def historyText (h : History) : Text :=
  h.entries.zipIdx.flatMap fun (entry, index) =>
    line (Text.padLeft 4 ' ' (Nat.toDigits 10 index) ++ "  ".toList ++ entry)

def reset (settings : Settings) (source : Source) (c : Console) : Turn :=
  let (result, session, records) := c.session.reset settings source
  let c := { c with session := session }
  match result with
  | .error failure => { c.say [] with records := records, ending := some (.failure failure) }
  | .ok () =>
    { ({ c with verbose := false } : Console).say (line "Session reset.".toList) with
      records := records }

def command (settings : Settings) (source : Source) (c : Console) : Command → Turn
  | .help => c.say consoleHelp
  | .quit => { c.say (line "Goodbye.".toList) with ending := some (.exit 0) }
  | .verbose =>
    let c := { c with verbose := !c.verbose }
    c.say (line ("Verbose mode ".toList ++ if c.verbose then "on".toList else "off".toList))
  | .precision none => c.sayPrecision
  | .precision (some argument) =>
    if argument = ['+'] then c.withPrecision c.session.precision.increase
    else if argument = ['-'] then c.withPrecision c.session.precision.decrease
    else
      match Setting.readInteger argument with
      | .ok n => c.withPrecision (c.session.precision.setInteger n)
      | .error _ => c.say (line ("Error: Invalid precision (".toList ++ argument ++ [')']))
  | .reset => c.reset settings source
  | .history => c.say (historyText c.session.history)
  | .previous draft => c.showEntry (c.session.history.previous (some draft))
  | .next draft => c.showEntry (c.session.history.next (some draft))
  | .answer => c.say (line c.session.answer.value.display)

def expression (settings : Settings) (source : Source) (c : Console) (text : Text) : Turn :=
  let e := evaluateLine settings source c.format c.verbose c.session text
  let c := { c with session := e.session }
  match e.failure with
  | some (.fault fault) =>
    { c.say (line "An error occurred. Please check your input and try again.".toList) with
      records := e.records ++ [Log.lineFault fault] }
  | _ => { c.say e.printed with records := e.records }

def submit (settings : Settings) (source : Source) (c : Console) (raw : Text) : Turn :=
  match Entry.ofLine raw with
  | .blank => c.say []
  | .command name => c.command settings source name
  | .expression text => c.expression settings source text

def leave (c : Console) : Turn :=
  { c.say ('\n' :: line "Goodbye.".toList) with ending := some (.exit 0) }

end Console

inductive Input where
  | line (text : Text)
  | interrupt
  deriving DecidableEq

structure Run where
  ending : Ending
  printed : Text
  records : List Log.Record
  prompts : List (Option Text)
  session : Session

namespace Console

/-- Answers what comes in at a prompt. However it comes, the hook is cleared first. -/
def answer (settings : Settings) (source : Source) (c : Console) (input : Option Input) : Turn :=
  let c := { c with hook := none }
  match input with
  | some (.line text) => c.submit settings source text
  | some .interrupt | none => c.leave

def run (settings : Settings) (source : Source) (c : Console) (inputs : List Input) : Run :=
  let turn := c.answer settings source inputs.head?
  let printed := prompt ++ turn.printed
  match turn.ending, inputs with
  | some ending, _ => ⟨ending, printed, turn.records, [c.hook], turn.console.session⟩
  | none, [] => ⟨.exit 0, printed, turn.records, [c.hook], turn.console.session⟩
  | none, _ :: rest =>
    let next := run settings source turn.console rest
    { next with
      printed := printed ++ next.printed
      records := turn.records ++ next.records
      prompts := c.hook :: next.prompts }

end Console

end PolishCalc.CommandLine
