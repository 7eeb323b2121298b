import PolishCalc.Number.Literal

namespace PolishCalc

structure Settings where
  defaultPrecision : Int
  minPrecision : Int
  maxPrecision : Int
  ansDefault : Double
  maxInputLength : Int
  maxExpressionDepth : Int
  randomSeed : Option Int
  logLevel : Text
  minPrecision_le : minPrecision ≤ maxPrecision
  limits_writable : IsWritable maxInputLength ∧ IsWritable maxExpressionDepth
  deriving DecidableEq

def version : String := "1.0.0"

namespace Settings

abbrev Environment := String → Option Text

def integer (env : Environment) (name : String) (default : String) :
    Except Fault WritableInt :=
  Setting.readInteger ((env name).getD default.toList)

def seed (env : Environment) : Except Fault (Option Int) :=
  match env "CLCS_RANDOM_SEED" with
  | none | some [] => .ok none
  | some text => (Setting.readInteger text).map fun n => some n.val

def checkSeed : Option Int → Except Fault Unit
  | none => .ok ()
  | some n => if n < 0 then .error .negativeSeed else .ok ()

def read (env : Environment) : Except Fault Settings := do
  let defaultPrecision ← integer env "CLCS_DEFAULT_PRECISION" "3"
  let minPrecision ← integer env "CLCS_MIN_PRECISION" "0"
  let maxPrecision ← integer env "CLCS_MAX_PRECISION" "9"
  let ansDefault ← Setting.readDouble ((env "CLCS_ANS_DEFAULT").getD ['0'])
  let maxInputLength ← integer env "CLCS_MAX_INPUT_LENGTH" "10000"
  let maxExpressionDepth ← integer env "CLCS_MAX_EXPRESSION_DEPTH" "100"
  let randomSeed ← seed env
  let logLevel := (env "CLCS_LOG_LEVEL").getD "WARNING".toList
  if h : minPrecision.val ≤ maxPrecision.val then
    checkSeed randomSeed
    return ⟨defaultPrecision, minPrecision, maxPrecision, ansDefault, maxInputLength,
      maxExpressionDepth, randomSeed, logLevel, h, maxInputLength.2, maxExpressionDepth.2⟩
  else throw (.crossedBounds minPrecision maxPrecision)

def usual : Settings :=
  ⟨3, 0, 9, .zero, 10000, 100, none, "WARNING".toList, by decide, by decide +kernel⟩

end Settings

end PolishCalc
