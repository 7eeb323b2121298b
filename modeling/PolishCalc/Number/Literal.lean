import PolishCalc.Fault
import PolishCalc.Number.Decimal
import PolishCalc.Text.Digit

namespace PolishCalc

structure Literal where
  negative : Bool
  whole : List Nat
  fraction : List Nat
  exponent : Int
  deriving DecidableEq

namespace Literal

def readSign : Text → Bool × Text
  | '-' :: cs => (true, cs)
  | '+' :: cs => (false, cs)
  | cs => (false, cs)

def signed (negative : Bool) (n : Nat) : Int :=
  if negative then -n else n

def readFraction : Text → List Nat × Text
  | '.' :: cs => Text.spanDigits cs
  | cs => ([], cs)

def readExponent? : Text → Option (Int × Text)
  | [] => some (0, [])
  | c :: cs =>
    if c == 'e' || c == 'E' then
      let sign := readSign cs
      let span := Text.spanDigits sign.2
      if span.1.isEmpty then none else some (signed sign.1 (ofDigits span.1), span.2)
    else some (0, c :: cs)

def readStart? (text : Text) : Option (Literal × Text) :=
  let sign := readSign text
  let whole := Text.spanDigits sign.2
  let fraction := readFraction whole.2
  if whole.1.isEmpty && fraction.1.isEmpty then none
  else (readExponent? fraction.2).map fun (exponent, rest) =>
    (⟨sign.1, whole.1, fraction.1, exponent⟩, rest)

def read? (text : Text) : Option Literal :=
  match readStart? text with
  | some (literal, []) => some literal
  | some (literal, ['\n']) => some literal
  | _ => none

def toDouble (literal : Literal) : Double :=
  Double.ofDecimal literal.negative (ofDigits (literal.whole ++ literal.fraction))
    (literal.exponent - literal.fraction.length)

end Literal

namespace Double

def readOperand? (text : Text) : Option Double :=
  match Literal.read? text with
  | some literal => if literal.toDouble.isFinite then some literal.toDouble else none
  | none => none

end Double

namespace Setting

def isMargin (c : Char) : Bool :=
  isBlank c && !(28 ≤ c.toNat && c.toNat ≤ 31)

def ungroup? (afterDigit : Bool) : Text → Option Text
  | [] => some []
  | c :: cs =>
    if c == '_' then
      if afterDigit && (cs.head?.any isDecimalDigit) then ungroup? false cs else none
    else (ungroup? (isDecimalDigit c) cs).map (c :: ·)

theorem natAbs_signed_lt {digits : Text} {limit : Nat} (h : digits.length ≤ limit)
    (negative : Bool) :
    (Literal.signed negative (ofDigits (digits.filterMap digitValue?))).natAbs <
      Nat.pow 10 limit := by
  have hdigits : ∀ d ∈ digits.filterMap digitValue?, d < 10 := by
    intro d hd
    obtain ⟨c, -, hc⟩ := List.mem_filterMap.1 hd
    exact digitValue?_lt hc
  have habs : (Literal.signed negative (ofDigits (digits.filterMap digitValue?))).natAbs =
      ofDigits (digits.filterMap digitValue?) := by
    cases negative <;> simp [Literal.signed]
  rw [habs]
  exact Nat.lt_of_lt_of_le (ofDigits_lt hdigits) (Nat.pow_le_pow_right (by decide)
    (Nat.le_trans (List.length_filterMap_le _ _) h))

theorem isWritable_signed {digits : Text} (h : digits.length ≤ integerDigitLimit)
    (negative : Bool) :
    IsWritable (Literal.signed negative (ofDigits (digits.filterMap digitValue?))) :=
  natAbs_signed_lt h negative

def readInteger (text : Text) : Except Fault WritableInt :=
  let sign := Literal.readSign (text.dropEnds isMargin)
  let isPart := fun c => isDecimalDigit c || c == '_'
  match ungroup? false (sign.2.takeWhile isPart) with
  | none => .error (.notInteger text)
  | some digits =>
    if digits.isEmpty then .error (.notInteger text)
    else if h : integerDigitLimit < digits.length then .error (.longInteger (some digits.length))
    else if (sign.2.dropWhile isPart).isEmpty then
      .ok ⟨Literal.signed sign.1 (ofDigits (digits.filterMap digitValue?)),
        isWritable_signed (Nat.not_lt.1 h) sign.1⟩
    else .error (.notInteger text)

def wordValue? (text : Text) : Option Double :=
  let sign := Literal.readSign text
  let word := sign.2.lower
  if word == "inf".toList || word == "infinity".toList then some (.infinity sign.1)
  else if word == "nan".toList then some .nan
  else none

def readDouble (text : Text) : Except Fault Double :=
  match ungroup? false (text.dropEnds isMargin) with
  | none => .error (.notNumber text)
  | some body =>
    match wordValue? body, Literal.readStart? body with
    | some value, _ => .ok value
    | none, some (literal, []) => .ok literal.toDouble
    | none, _ => .error (.notNumber text)

end Setting

end PolishCalc
