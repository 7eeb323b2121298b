import PolishCalc.Number.Literal
import PolishCalc.Number.Power

namespace PolishCalc

inductive Operand where
  | double (value : Double)
  | integer (value : Int)
  | absent
  deriving DecidableEq

def Double.truncate : Double → Except Fault Int
  | .nan => .error .nanToInteger
  | .infinity _ => .error .infinityToInteger
  | .finite negative units _ => .ok (Double.signedUnits negative (units / unitsPerOne))

namespace Operand

def integerToDouble (n : Int) : Except Fault Double :=
  let x := Double.ofInt n
  if x.isInfinite then .error .tooLarge else .ok x

def toDouble (use : AbsentUse) : Operand → Except Fault Double
  | double x => .ok x
  | integer n => integerToDouble n
  | absent => .error (.absent use)

def truncate (use : AbsentUse) : Operand → Except Fault Int
  | double x => x.truncate
  | integer n => .ok n
  | absent => .error (.absent use)

@[simp] theorem toDouble_double (use : AbsentUse) (x : Double) :
    (double x).toDouble use = .ok x := rfl

@[simp] theorem truncate_double (use : AbsentUse) (x : Double) :
    (double x).truncate use = x.truncate := rfl

end Operand

end PolishCalc
