import PolishCalc.Expression.Evaluation
import PolishCalc.History

namespace PolishCalc.Log

inductive Level where
  | debug
  | info
  | warning
  | error
  | critical
  deriving DecidableEq

namespace Level

def number : Level → Nat
  | debug => 10
  | info => 20
  | warning => 30
  | error => 40
  | critical => 50

def name : Level → String
  | debug => "DEBUG"
  | info => "INFO"
  | warning => "WARNING"
  | error => "ERROR"
  | critical => "CRITICAL"

end Level

def root : String := "clcs"

def loggerName (part : String) : String :=
  root ++ "." ++ part

structure Record where
  level : Level
  part : String
  message : Text
  deriving DecidableEq

def Record.line (time : String) (r : Record) : String :=
  time ++ " [" ++ r.level.name ++ "] " ++ loggerName r.part ++ ": " ++ String.ofList r.message

/-- Upper case, for the letters that occur in names of levels and layouts; four other characters
have their upper case among these. -/
def upper (text : Text) : Text :=
  text.flatMap fun c =>
    if c = 'ı' then ['I']
    else if c = 'ſ' then ['S']
    else if c = 'ﬅ' || c = 'ﬆ' then ['S', 'T']
    else [c.toUpper]

def levelNumber (name : Text) : Except Fault Nat :=
  match String.ofList (upper name) with
  | "NOTSET" => .ok 0
  | "DEBUG" => .ok 10
  | "INFO" => .ok 20
  | "ERROR" => .ok 40
  | "CRITICAL" => .ok 50
  | "FATAL" => .ok 50
  | "BASIC_FORMAT" => .error .layoutAsLevel
  | "_STYLES" => .error .layoutsAsLevel
  | _ => .ok 30

def threshold (name : Text) : Except Fault Nat :=
  (levelNumber name).map fun number => if number = 0 then Level.warning.number else number

def kept (threshold : Nat) (records : List Record) : List Record :=
  records.filter fun r => threshold ≤ r.level.number

def reduced (r : Reduction) : Record :=
  ⟨.debug, "evaluator",
    "Reduced ".toList ++ r.text.quoted ++ " to ".toList ++ r.result.display⟩

def stopped : Failure → List Record
  | .reported (.notANumber step) =>
    [⟨.debug, "evaluator", "Reduction ".toList ++ step.quoted ++ " is not a number".toList⟩]
  | .reported (.infiniteResult step) =>
    [⟨.debug, "evaluator", "Reduction ".toList ++ step.quoted ++ " is infinite".toList⟩]
  | _ => []

def evaluation : Except Stop (Double × Memory) → List Record
  | .ok (_, memory) => memory.reductions.reverse.map reduced
  | .error stop => stop.memory.reductions.reverse.map reduced ++ stopped stop.failure

def added (h : History) (expression : Text) : List Record :=
  if h.entries.getLast? = some expression then []
  else [⟨.debug, "history", "History entry added: ".toList ++ expression.quoted ++ " (".toList ++
    integerText (h.add expression).entries.length ++ " entries)".toList⟩]

def historyCleared : Record := ⟨.debug, "history", "History reset".toList⟩

def sessionReset : Record := ⟨.info, "api", "Session reset".toList⟩

def lineFailed (expression : Text) (error : CalcError) : Record :=
  ⟨.debug, "cli", "Evaluation of ".toList ++ expression.quoted ++ " failed: ".toList ++ error.code⟩

def lineFault (fault : Fault) : Record :=
  ⟨.error, "cli", "Unexpected error in REPL: ".toList ++ fault.message.toList⟩

end PolishCalc.Log
