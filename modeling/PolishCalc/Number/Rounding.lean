import PolishCalc.Number.Operand

namespace PolishCalc

namespace Double

def mostPlaces : Nat := 308

def wholeFrom : Nat := Nat.pow 2 52

/-- The power of ten that scales by `digits` places. It is the nearest double, except at 23 and 210
places, where the exact power lies at, or within a thousandth of, the middle between two doubles
and the upper one is used. -/
def tenPow (digits : Nat) : Double :=
  let units := Nat.pow 10 digits * unitsPerOne
  if digits = 23 ∨ digits = 210 then ofUnits false (units + spacing units / 2)
  else ofUnits false units

theorem isZero_tenPow (digits : Nat) : (tenPow digits).isZero = false := by
  have hunits : 0 < Nat.pow 10 digits * unitsPerOne :=
    Nat.mul_pos (Nat.pow_pos (by decide)) unitsPerOne_pos
  simp only [tenPow]
  split
  · exact isZero_ofUnits _ (Nat.lt_of_lt_of_le hunits (Nat.le_add_right _ _))
  · exact isZero_ofUnits _ hunits

def roundAt (digits : Nat) (x : Double) : Except Fault Double :=
  if mostPlaces < digits then .ok x
  else
    let scaled := x.abs.mul (tenPow digits)
    if scaled.magnitudeAtLeast wholeFrom then .ok x
    else
      (scaled.add half).truncate.map fun n =>
        let rounded := (ofInt n).div (tenPow digits) (isZero_tenPow digits)
        if rounded.isZero then zero else rounded.copySign x

end Double

def places (standard : Int) (digits : Operand) : Except Fault Nat :=
  match digits with
  | .absent => .ok standard.toNat
  | digits => (digits.truncate .asInteger).map Int.toNat

def roundTo (standard : Int) (value digits : Operand) : Except Fault Double :=
  match places standard digits with
  | .error .infinityToInteger => value.toDouble .asDouble
  | .error fault => .error fault
  | .ok n =>
    if Double.mostPlaces < n then value.toDouble .asDouble
    else (value.toDouble .asMagnitude).bind (Double.roundAt n)

end PolishCalc
