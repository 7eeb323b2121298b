import PolishCalc.CommandLine.Line

namespace PolishCalc.CommandLine.Health

structure Part where
  name : String
  version : String

structure Check where
  passed : Bool
  text : Text

def pass (message : String) : Check :=
  ⟨true, "[OK] ".toList ++ message.toList⟩

def fail (message : Text) : Check :=
  ⟨false, "[FAIL] ".toList ++ message⟩

def ofPart (part : Part) : Check :=
  pass (part.name ++ " " ++ part.version ++ " imported successfully")

def ofOutcome (outcome : Outcome) (expected : Double) (success : String)
    (onError : Text → Text) (onOther : Text → Text) : Except Fault Check :=
  match Outcome.result outcome with
  | .ok x => .ok (if x.sameNumber expected then pass success else fail (onOther x.text))
  | .error (.reported error) => .ok (fail (onError error.message))
  | .error (.fault fault) => .error fault

def rule : Text := List.replicate 50 '-'

structure Result where
  printed : Text
  code : Except Fault Nat
  records : List Log.Record

def summary (checks : List Check) : Text × Nat :=
  let passed := checks.countP Check.passed
  let failed := checks.length - passed
  let counts := line rule ++ line ("Results: ".toList ++ Nat.toDigits 10 passed ++
    " passed, ".toList ++ Nat.toDigits 10 failed ++ " failed".toList) ++ ['\n']
  if failed = 0 then (counts ++ line "[OK] All health checks passed!".toList, 0)
  else (counts ++ line
    "[WARN] Some health checks failed. Core functionality may be impaired.".toList, 1)

def run (settings : Settings) (source : Source) (parts : List Part) : Result :=
  let s := Session.fresh settings
  let first := s.evaluate settings source "+ 1 2".toList
  let second := (s.adopt (Outcome.memory first)).resetAnswer settings source
  let opening := line "Running clcs health check...".toList ++ line rule
  let found := parts.map ofPart
  let sum := ofOutcome first (Double.ofNat 3) "Basic evaluation works"
    ("Evaluation check failed: ".toList ++ ·)
    ("Basic evaluation failed: expected 3, got ".toList ++ ·)
  let reset := ofOutcome second s.answer.standard "Answer reset works"
    ("Answer reset failed: ".toList ++ ·) ("Answer reset failed: got ".toList ++ ·)
  let shown := fun checks : List Check => opening ++ checks.flatMap fun check => line check.text
  match sum, reset with
  | .error fault, _ => ⟨shown found, .error fault, Log.evaluation first⟩
  | .ok sum, .error fault =>
    ⟨shown (found ++ [sum]), .error fault, Log.evaluation first ++ Log.evaluation second⟩
  | .ok sum, .ok reset =>
    let checks := found ++ [sum, reset]
    let (text, code) := summary checks
    ⟨shown checks ++ text, .ok code, Log.evaluation first ++ Log.evaluation second⟩

end PolishCalc.CommandLine.Health
