import PolishCalc.Number.Double

namespace PolishCalc.Double

def hiddenBit : Nat := Nat.pow 2 52

def toBits : Double → UInt64
  | .nan => 0x7FF8000000000000
  | .infinity negative => if negative then 0xFFF0000000000000 else 0x7FF0000000000000
  | .finite negative units _ =>
    let sign := if negative then Nat.pow 2 63 else 0
    let shift := units.log2 - 52
    if units.log2 < 52 then UInt64.ofNat (sign + units)
    else UInt64.ofNat (sign + (shift + 1) * hiddenBit + (units / Nat.pow 2 shift - hiddenBit))

def ofBits (bits : UInt64) : Double :=
  let n := bits.toNat
  let negative := decide (Nat.pow 2 63 ≤ n)
  let exponent := n / hiddenBit % 2048
  let fraction := n % hiddenBit
  if exponent = 2047 then (if fraction = 0 then .infinity negative else .nan)
  else if exponent = 0 then ofUnits negative fraction
  else ofUnits negative ((hiddenBit + fraction) * Nat.pow 2 (exponent - 1))

def platformPow (x y : Double) : Double :=
  ofBits (Float.pow (Float.ofBits x.toBits) (Float.ofBits y.toBits)).toBits

def evenPart (units : Nat) : Nat :=
  Nat.gcd units overflowUnits

def twoPow (exponent : Int) : Double :=
  if 1024 ≤ exponent then .infinity false
  else if exponent < -(unitExponent : Int) then zero
  else ofUnits false (Nat.pow 2 (exponent + unitExponent).toNat)

/-- The power of `odd * 2 ^ exponent` to `n`, or to `-n`, where it is a double or too large. -/
def exactPow? (odd : Nat) (exponent : Int) (reciprocal : Bool) (n : Nat) : Option Double :=
  if odd = 1 then some (twoPow (exponent * if reciprocal then -(n : Int) else n))
  else if reciprocal then none
  else if n * odd.log2 < 53 ∧ Nat.pow odd n < Nat.pow 2 53 then
    let e := exponent * n
    if 1024 ≤ e then some (.infinity false)
    else if e < -(unitExponent : Int) then none
    else some (ofUnits false (Nat.pow odd n * Nat.pow 2 (e + unitExponent).toNat))
  else if 1024 ≤ n * (odd.log2 + exponent) then some (.infinity false)
  else none

def powPositive (base : Nat) (fits : Fits base) (y : Double) : Double :=
  let even := evenPart base
  let exact := if y.isWhole then
    exactPow? (base / even) (even.log2 - unitExponent) y.isNegative y.wholePart else none
  exact.getD (platformPow (.finite false base fits) y)

def isOdd (x : Double) : Bool :=
  x.isWhole && x.wholePart % 2 == 1

def exceedsOne : Double → Bool
  | .nan => false
  | .infinity _ => true
  | .finite _ units _ => decide (unitsPerOne < units)

def pow (x y : Double) : Double :=
  if y.isZero ∨ x = one then one
  else match x, y with
  | .nan, _ => .nan
  | _, .nan => .nan
  | x, .infinity t =>
    if x.abs = one then one else if x.exceedsOne == !t then .infinity false else zero
  | .infinity s, .finite t b fits =>
    let negative := s && isOdd (.finite t b fits)
    if t then zeroOf negative else .infinity negative
  | .finite s a fits, y =>
    let negative := s && y.isOdd
    if a = 0 then (if y.isNegative then .infinity false else zeroOf negative)
    else
      let magnitude := powPositive a fits y
      if magnitude.isInfinite then .infinity false
      else if s && !y.isWhole then .nan
      else magnitude.withSign negative

end PolishCalc.Double
