import PolishCalc.Settings

namespace PolishCalc.CommandLine

inductive Format where
  | json
  | human
  deriving DecidableEq

inductive Opt where
  | help
  | eval
  | format
  | precision
  | verbose
  | seed
  | version
  | logLevel
  | logFile
  | healthCheck
  deriving DecidableEq

namespace Opt

def all : List Opt :=
  [help, eval, format, precision, verbose, seed, version, logLevel, logFile, healthCheck]

def flags : Opt → List String
  | help => ["-h", "--help"]
  | eval => ["-e", "--eval"]
  | format => ["--format"]
  | precision => ["-p", "--precision"]
  | verbose => ["--verbose"]
  | seed => ["--seed"]
  | version => ["-v", "--version"]
  | logLevel => ["--log-level"]
  | logFile => ["--log-file"]
  | healthCheck => ["--health-check"]

def allFlags : List (Text × Opt) :=
  all.flatMap fun opt => opt.flags.map fun flag => (flag.toList, opt)

def ofFlag? (flag : Text) : Option Opt :=
  allFlags.lookup flag

def takesValue : Opt → Bool
  | help | verbose | version | healthCheck => false
  | eval | format | precision | seed | logLevel | logFile => true

def choices : Opt → List String
  | format => ["json", "human"]
  | logLevel => ["DEBUG", "INFO", "WARNING", "ERROR"]
  | _ => []

def name (opt : Opt) : String :=
  "/".intercalate opt.flags

end Opt

inductive Misuse where
  | ambiguous (argument : Text) (flags : List Text)
  | missingValue (opt : Opt)
  | unusedValue (opt : Opt) (value : Text)
  | notInteger (opt : Opt) (value : Text)
  | notChoice (opt : Opt) (value : Text)
  | unrecognized (arguments : List Text)
  deriving DecidableEq

namespace Misuse

def about (opt : Opt) (message : String) : Text :=
  ("argument " ++ opt.name ++ ": " ++ message).toList

def message : Misuse → Text
  | ambiguous argument flags =>
    "ambiguous option: ".toList ++ argument ++ " could match ".toList ++
      List.intercalate ", ".toList flags
  | missingValue opt => about opt "expected one argument"
  | unusedValue opt value => about opt "ignored explicit argument " ++ value.quoted
  | notInteger opt value => about opt "invalid int value: " ++ value.quoted
  | notChoice opt value =>
    let choices := opt.choices.map fun choice => Text.quoted choice.toList
    about opt "invalid choice: " ++ value.quoted ++ " (choose from ".toList ++
      List.intercalate ", ".toList choices ++ [')']
  | unrecognized arguments =>
    "unrecognized arguments: ".toList ++ List.intercalate [' '] arguments

end Misuse

inductive Halt where
  | help
  | misuse (misuse : Misuse)
  deriving DecidableEq

inductive Shape where
  | value
  | separator
  | long (opt : Opt) (attached : Option Text)
  | short (opt : Opt) (attached : Option Text)
  | unknown
  deriving DecidableEq

def splitAtEquals (argument : Text) : Text × Option Text :=
  match argument.dropWhile (· != '=') with
  | [] => (argument, none)
  | _ :: value => (argument.takeWhile (· != '='), some value)

def looksNegative (argument : Text) : Bool :=
  match argument with
  | '-' :: cs =>
    let whole := Text.spanDigits cs
    let ends := fun rest : Text => rest = [] ∨ rest = ['\n']
    if ends whole.2 then !whole.1.isEmpty
    else
      match whole.2 with
      | '.' :: cs =>
        let fraction := Text.spanDigits cs
        !fraction.1.isEmpty && ends fraction.2
      | _ => false
  | _ => false

namespace Shape

def ofOther (argument : Text) : Shape :=
  if looksNegative argument || argument.contains ' ' then value else unknown

def ofLong (argument : Text) : Except Misuse Shape :=
  let (flag, attached) := splitAtEquals argument
  match Opt.ofFlag? flag with
  | some opt => .ok (long opt attached)
  | none =>
    match Opt.allFlags.filter fun known => flag.isPrefixOf known.1 with
    | [] => .ok (ofOther argument)
    | [(_, opt)] => .ok (long opt attached)
    | fitting => .error (.ambiguous argument (fitting.map Prod.fst))

def attachedTo : Text → Option Text
  | [] => none
  | '=' :: cs => some cs
  | cs => some cs

def ofArgument (argument : Text) : Except Misuse Shape :=
  match argument with
  | '-' :: '-' :: _ => ofLong argument
  | '-' :: c :: tail =>
    match Opt.ofFlag? ['-', c] with
    | some opt => .ok (short opt (attachedTo tail))
    | none => .ok (ofOther argument)
  | _ => .ok value

end Shape

def shapes : List Text → Except Misuse (List (Text × Shape))
  | [] => .ok []
  | argument :: rest =>
    if argument = ['-', '-'] then
      .ok ((argument, .separator) :: rest.map fun value => (value, .value))
    else do
      let shape ← Shape.ofArgument argument
      return (argument, shape) :: (← shapes rest)

structure Taken where
  options : List (Opt × Option Text)
  leftOver : List Text
  usesNext : Bool
  deriving DecidableEq

namespace Taken

def alone (next : Option Text) (opt : Opt) : Except Misuse Taken :=
  if opt.takesValue then
    match next with
    | some value => .ok ⟨[(opt, some value)], [], true⟩
    | none => .error (.missingValue opt)
  else .ok ⟨[(opt, none)], [], false⟩

def attached (opt : Opt) (value : Text) : Except Misuse Taken :=
  if opt.takesValue then .ok ⟨[(opt, if value = ['-', '-'] then none else some value)], [], false⟩
  else .error (.unusedValue opt value)

def long (next : Option Text) (opt : Opt) : Option Text → Except Misuse Taken
  | none => alone next opt
  | some value => attached opt value

def cluster (next : Option Text) (opt : Opt) : Text → Except Misuse Taken
  | [] => alone next opt
  | c :: tail =>
    if opt.takesValue then attached opt (c :: tail)
    else
      match Opt.ofFlag? ['-', c] with
      | none => .error (.unusedValue opt (c :: tail))
      | some other =>
        (cluster next other tail).map fun taken =>
          { taken with options := (opt, none) :: taken.options }

def short (next : Option Text) (opt : Opt) : Option Text → Except Misuse Taken
  | none => alone next opt
  | some [] => attached opt []
  | some tail => cluster next opt tail

end Taken

inductive Given (α : Type) where
  | absent
  | bare
  | value (x : α)
  deriving DecidableEq

def Given.ofValue {α : Type} : Option α → Given α
  | none => bare
  | some x => value x

structure Arguments where
  expression : Given Text
  format : Format
  precision : Given Int
  verbose : Bool
  seed : Option Int
  version : Bool
  logLevel : Option Text
  logFile : Option Text
  healthCheck : Bool
  deriving DecidableEq

namespace Arguments

def default (settings : Settings) : Arguments :=
  ⟨.absent, .human, .absent, false, none, false, some settings.logLevel, none, false⟩

def integer (opt : Opt) (value : Text) : Except Halt Int :=
  match Setting.readInteger value with
  | .ok n => .ok n
  | .error _ => .error (.misuse (.notInteger opt value))

def choice (opt : Opt) (value : Text) : Except Halt Text :=
  if opt.choices.contains (String.ofList value) then .ok value
  else .error (.misuse (.notChoice opt value))

def set (a : Arguments) (opt : Opt) (value : Option Text) : Except Halt Arguments :=
  match opt with
  | .help => .error .help
  | .eval => .ok { a with expression := Given.ofValue value }
  | .format => (value.mapM (choice opt)).map fun value =>
      { a with format := if value = some "json".toList then .json else .human }
  | .precision => (value.mapM (integer opt)).map fun n => { a with precision := Given.ofValue n }
  | .verbose => .ok { a with verbose := true }
  | .seed => (value.mapM (integer opt)).map fun n => { a with seed := some (n.getD 0) }
  | .version => .ok { a with version := true }
  | .logLevel => (value.mapM (choice opt)).map fun value => { a with logLevel := value }
  | .logFile => .ok { a with logFile := value }
  | .healthCheck => .ok { a with healthCheck := true }

def setAll (a : Arguments) (options : List (Opt × Option Text)) : Except Halt Arguments :=
  options.foldlM (fun a option => a.set option.1 option.2) a

def offered : List (Text × Shape) → Option Text
  | (argument, .value) :: _ => some argument
  | _ => none

def takeAll (a : Arguments) (leftOver : List Text) (skip : Bool) :
    List (Text × Shape) → Except Halt (Arguments × List Text)
  | [] => .ok (a, leftOver)
  | (argument, shape) :: rest =>
    if skip then takeAll a leftOver false rest
    else
      let taken := match shape with
        | .long opt attached => Taken.long (offered rest) opt attached
        | .short opt attached => Taken.short (offered rest) opt attached
        | .value | .separator | .unknown => .ok ⟨[], [argument], false⟩
      match taken with
      | .error misuse => .error (.misuse misuse)
      | .ok taken =>
        match a.setAll taken.options with
        | .error halt => .error halt
        | .ok a => takeAll a (leftOver ++ taken.leftOver) taken.usesNext rest

def read (settings : Settings) (argv : List Text) : Except Halt Arguments :=
  match shapes argv with
  | .error misuse => .error (.misuse misuse)
  | .ok shaped =>
    match takeAll (default settings) [] false shaped with
    | .error halt => .error halt
    | .ok (a, []) => .ok a
    | .ok (_, leftOver) => .error (.misuse (.unrecognized leftOver))

end Arguments

end PolishCalc.CommandLine
