import PolishCalc.Number.Double
import PolishCalc.Text.Basic

namespace PolishCalc

namespace Double

/-- The double nearest to `digits * 10 ^ exponent`. An exponent beyond the range in which it can
change the result is cut off, so that no power grows larger than the digits call for. -/
def ofDecimal (negative : Bool) (digits : Nat) : Int → Double
  | .ofNat e => ofRatio negative (digits * Nat.pow 10 (min e 400) * unitsPerOne) 1
  | .negSucc e =>
    ofRatio negative (digits * unitsPerOne) (Nat.pow 10 (min (e + 1) (digits.log2 + 1100)))

end Double

structure Decimal where
  digits : Nat
  exponent : Int
  deriving DecidableEq

namespace Decimal

def leadingExponent (units : Nat) : Int :=
  if unitsPerOne ≤ units then (Nat.toDigits 10 (units / unitsPerOne)).length - 1
  else -((Nat.toDigits 10 ((unitsPerOne - 1) / units)).length : Int)

def gridRatio (units : Nat) : Int → Nat × Nat
  | .ofNat e => (units, unitsPerOne * Nat.pow 10 e)
  | .negSucc e => (units * Nat.pow 10 (e + 1), unitsPerOne)

def readsBack (units : Nat) (d : Decimal) : Bool :=
  match Double.ofDecimal false d.digits d.exponent with
  | .finite _ k _ => k == units
  | _ => false

def onGrid? (units : Nat) (exponent : Int) : Option Decimal :=
  let ratio := gridRatio units exponent
  let low := ratio.1 / ratio.2
  let near := nearest ratio.1 ratio.2
  let far := if near = low then low + 1 else low
  if readsBack units ⟨near, exponent⟩ then some ⟨near, exponent⟩
  else if readsBack units ⟨far, exponent⟩ then some ⟨far, exponent⟩
  else none

def enoughDigits : Nat := 17

def shortest (units : Nat) : Decimal :=
  let lead := leadingExponent units
  let last := lead - (enoughDigits - 1 : Nat)
  let found := (List.range enoughDigits).findSome? fun n : Nat => onGrid? units (lead - n)
  found.getD ⟨nearest (gridRatio units last).1 (gridRatio units last).2, last⟩

def strip (fuel : Nat) (d : Decimal) : Decimal :=
  match fuel with
  | 0 => d
  | fuel + 1 => if d.digits % 10 = 0 then strip fuel ⟨d.digits / 10, d.exponent + 1⟩ else d

end Decimal

structure DecimalStyle where
  positionalFrom : Int
  positionalBelow : Int
  exponentWidth : Nat

namespace DecimalStyle

def plain : DecimalStyle := ⟨-4, 16, 2⟩

def exponentText (style : DecimalStyle) (exponent : Int) : Text :=
  'e' :: (if exponent < 0 then '-' else '+') ::
    Text.padLeft style.exponentWidth '0' (Nat.toDigits 10 exponent.natAbs)

def positional (digits : Text) : Int → Text
  | .negSucc e => '0' :: '.' :: List.replicate e '0' ++ digits
  | .ofNat lead =>
    if digits.length ≤ lead + 1 then
      digits ++ List.replicate (lead + 1 - digits.length) '0' ++ ['.', '0']
    else digits.take (lead + 1) ++ '.' :: digits.drop (lead + 1)

def layout (style : DecimalStyle) (digits : Text) (lead : Int) : Text :=
  if style.positionalFrom ≤ lead ∧ lead < style.positionalBelow then positional digits lead
  else
    digits.take 1 ++ (if digits.length ≤ 1 then [] else '.' :: digits.drop 1) ++
      style.exponentText lead

def write (style : DecimalStyle) (d : Decimal) : Text :=
  let stripped := d.strip Decimal.enoughDigits
  let digits := Nat.toDigits 10 stripped.digits
  style.layout digits (stripped.exponent + digits.length - 1)

end DecimalStyle

namespace Double

def text : Double → Text
  | .nan => "nan".toList
  | .infinity negative => (if negative then ['-'] else []) ++ "inf".toList
  | .finite negative units _ =>
    (if negative then ['-'] else []) ++
      (if units = 0 then "0.0".toList else DecimalStyle.plain.write (Decimal.shortest units))

end Double

end PolishCalc
