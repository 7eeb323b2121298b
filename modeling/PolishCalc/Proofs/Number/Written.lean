import PolishCalc.Number.Display
import PolishCalc.Proofs.Number.ReadBack
import PolishCalc.Proofs.Number.Spelling

namespace PolishCalc

namespace Text

def IsDigits (text : Text) : Prop :=
  ∀ c ∈ text, c.isDigit = true

def digitValues (text : Text) : List Nat :=
  text.map fun c => c.toNat - '0'.toNat

theorem digitValue?_of_isDigit {c : Char} (h : c.isDigit = true) :
    digitValue? c = some (c.toNat - '0'.toNat) := by
  obtain ⟨hlow, hhigh⟩ := Char.isDigit_iff_toNat.1 h
  have hin : (0x30 ≤ c.toNat && c.toNat < 0x30 + 10) = true := by
    simp only [Char.reduceToNat] at hlow hhigh
    simp only [Bool.and_eq_true, decide_eq_true_eq]
    omega
  have hsplit : zeroDigits = 0x30 :: zeroDigits.tail := rfl
  rw [digitValue?, hsplit]
  simp only [List.find?_cons, hin]
  rfl

theorem digitValue?_point : digitValue? '.' = none := by
  decide

theorem digitValue?_exponent : digitValue? 'e' = none := by
  decide

theorem IsDigits.digits {digits : Text} (h : digits.IsDigits) :
    Digits digits digits.digitValues := by
  induction digits with
  | nil => exact .nil
  | cons c digits ih =>
    obtain ⟨hc, hothers⟩ := List.forall_mem_cons.1 h
    exact .cons (digitValue?_of_isDigit hc) (ih hothers)

theorem spanDigits_append {digits rest : Text} (hdigits : digits.IsDigits)
    (hrest : ∀ c ∈ rest.head?, digitValue? c = none) :
    spanDigits (digits ++ rest) = (digits.digitValues, rest) :=
  spanDigits_digits hdigits.digits hrest

theorem ofDigits_digitValues (digits : Text) :
    ofDigits digits.digitValues = Nat.ofDigitChars 10 digits 0 := by
  rw [ofDigits, digitValues, List.foldl_map, Nat.ofDigitChars_eq_foldl]

theorem isDigits_toDigits (n : Nat) : IsDigits (Nat.toDigits 10 n) :=
  fun _ hc => Nat.isDigit_of_mem_toDigits (by decide) (by decide) hc

theorem isDigits_zeros (n : Nat) : IsDigits (List.replicate n '0') := fun c hc => by
  rw [List.eq_of_mem_replicate hc]
  rfl

theorem IsDigits.append {s t : Text} (hs : s.IsDigits) (ht : t.IsDigits) :
    IsDigits (s ++ t) :=
  List.forall_mem_append.2 ⟨hs, ht⟩

theorem IsDigits.take {digits : Text} (h : digits.IsDigits) (n : Nat) : IsDigits (digits.take n) :=
  fun c hc => h c (List.mem_of_mem_take hc)

theorem IsDigits.drop {digits : Text} (h : digits.IsDigits) (n : Nat) : IsDigits (digits.drop n) :=
  fun c hc => h c (List.mem_of_mem_drop hc)

theorem spanDigits_of_isDigits {digits : Text} (hdigits : digits.IsDigits) :
    spanDigits digits = (digits.digitValues, []) := by
  have hspan : spanDigits (digits ++ []) = (digits.digitValues, []) :=
    spanDigits_append hdigits nofun
  rwa [List.append_nil] at hspan

end Text

namespace Literal

open Text

def signText (negative : Bool) : Text :=
  if negative then ['-'] else []

theorem readSign_signText (negative : Bool) {c : Char} (hc : c.isDigit = true) (cs : Text) :
    readSign (signText negative ++ c :: cs) = (negative, c :: cs) := by
  cases negative with
  | true => rfl
  | false =>
    change readSign (c :: cs) = (false, c :: cs)
    unfold readSign
    split
    · rename_i heq
      rw [(List.cons.inj heq).1] at hc
      exact absurd hc (by decide)
    · rename_i heq
      rw [(List.cons.inj heq).1] at hc
      exact absurd hc (by decide)
    · rfl

theorem read?_eq {negative : Bool} {whole fraction point tail : Text} {exponent : Int}
    (hne : whole ≠ []) (hwhole : whole.IsDigits)
    (hpoint : readFraction (point ++ tail) = (fraction.digitValues, tail))
    (hbreak : ∀ c ∈ (point ++ tail).head?, digitValue? c = none)
    (htail : readExponent? tail = some (exponent, [])) :
    read? (signText negative ++ (whole ++ (point ++ tail))) =
      some ⟨negative, whole.digitValues, fraction.digitValues, exponent⟩ := by
  cases whole with
  | nil => exact absurd rfl hne
  | cons c cs =>
    have hc := hwhole c List.mem_cons_self
    have hspan := spanDigits_append hwhole hbreak
    rw [read?, readStart?, List.cons_append, readSign_signText negative hc]
    dsimp only
    rw [← List.cons_append, hspan]
    dsimp only
    rw [hpoint]
    dsimp only
    rw [htail]
    rfl

theorem readFraction_point {fraction tail : Text} (hfraction : fraction.IsDigits)
    (htail : ∀ c ∈ tail.head?, digitValue? c = none) :
    readFraction (('.' :: fraction) ++ tail) = (fraction.digitValues, tail) :=
  spanDigits_append hfraction htail

theorem readExponent?_exponentText (style : DecimalStyle) (exponent : Int) :
    readExponent? (style.exponentText exponent) = some (exponent, []) := by
  have hdigits : Text.IsDigits
      (Text.padLeft style.exponentWidth '0' (Nat.toDigits 10 exponent.natAbs)) :=
    (isDigits_zeros _).append (isDigits_toDigits _)
  have hvalue : ofDigits (Text.digitValues
      (Text.padLeft style.exponentWidth '0' (Nat.toDigits 10 exponent.natAbs))) =
        exponent.natAbs := by
    rw [ofDigits_digitValues, Text.padLeft, Nat.ofDigitChars_append,
      Nat.ofDigitChars_replicate_zero, Nat.mul_zero, Nat.ofDigitChars_ten_toDigits]
  have hne : Text.padLeft style.exponentWidth '0' (Nat.toDigits 10 exponent.natAbs) ≠ [] := by
    simp [Text.padLeft]
  rw [DecimalStyle.exponentText]
  generalize Text.padLeft style.exponentWidth '0' (Nat.toDigits 10 exponent.natAbs) = digits at *
  have hspan := spanDigits_of_isDigits hdigits
  have hempty : digits.digitValues.isEmpty = false := by
    simpa [Text.digitValues] using hne
  by_cases hsign : exponent < 0
  · have hsigned : signed true exponent.natAbs = exponent := by
      rw [signed, if_pos rfl]
      omega
    simp [hsign, readExponent?, readSign, hspan, hempty, hvalue, hsigned]
  · have hsigned : signed false exponent.natAbs = exponent := by
      rw [signed, if_neg Bool.false_ne_true]
      omega
    simp [hsign, readExponent?, readSign, hspan, hempty, hvalue, hsigned]

def Writes (text : Text) (x : Double) : Prop :=
  ∃ literal, read? text = some literal ∧ literal.toDouble = x

theorem toDouble_eq (negative : Bool) (whole fraction : Text) (exponent : Int) :
    toDouble ⟨negative, whole.digitValues, fraction.digitValues, exponent⟩ =
      Double.ofDecimal negative (Nat.ofDigitChars 10 (whole ++ fraction) 0)
        (exponent - fraction.length) := by
  rw [toDouble, ← ofDigits_digitValues]
  simp [Text.digitValues]

theorem writes_whole (negative : Bool) {whole : Text} (hne : whole ≠ []) (hwhole : whole.IsDigits) :
    Writes (signText negative ++ whole)
      (Double.ofDecimal negative (Nat.ofDigitChars 10 whole 0) 0) := by
  have hread : read? (signText negative ++ (whole ++ ([] ++ []))) =
      some ⟨negative, whole.digitValues, digitValues [], 0⟩ := read?_eq hne hwhole rfl nofun rfl
  rw [List.append_nil, List.append_nil] at hread
  refine ⟨_, hread, ?_⟩
  rw [toDouble_eq, List.append_nil]
  rfl

theorem writes_point (negative : Bool) {whole fraction : Text} (hne : whole ≠ [])
    (hwhole : whole.IsDigits) (hfraction : fraction.IsDigits) :
    Writes (signText negative ++ (whole ++ '.' :: fraction))
      (Double.ofDecimal negative (Nat.ofDigitChars 10 (whole ++ fraction) 0)
        (-(fraction.length : Int))) := by
  have hpoint : readFraction (('.' :: fraction) ++ []) = (fraction.digitValues, []) :=
    readFraction_point hfraction nofun
  have hread : read? (signText negative ++ (whole ++ ('.' :: fraction ++ []))) =
      some ⟨negative, whole.digitValues, fraction.digitValues, 0⟩ :=
    read?_eq hne hwhole hpoint (by simpa using digitValue?_point) rfl
  rw [List.append_nil] at hread
  refine ⟨_, hread, ?_⟩
  rw [toDouble_eq, Int.zero_sub]

theorem writes_exponent (style : DecimalStyle) (negative : Bool) {whole fraction : Text}
    (hne : whole ≠ []) (hwhole : whole.IsDigits) (hfraction : fraction.IsDigits) (exponent : Int) :
    Writes (signText negative ++ (whole ++ ((if fraction = [] then [] else '.' :: fraction) ++
        style.exponentText exponent)))
      (Double.ofDecimal negative (Nat.ofDigitChars 10 (whole ++ fraction) 0)
        (exponent - fraction.length)) := by
  have hbreak : ∀ c ∈ (style.exponentText exponent).head?, digitValue? c = none := by
    simpa [DecimalStyle.exponentText] using digitValue?_exponent
  refine ⟨_, ?_, toDouble_eq negative whole fraction exponent⟩
  by_cases hnil : fraction = []
  · subst hnil
    exact read?_eq hne hwhole rfl hbreak (readExponent?_exponentText style exponent)
  · rw [if_neg hnil]
    exact read?_eq hne hwhole (readFraction_point hfraction hbreak)
      (by simpa using digitValue?_point) (readExponent?_exponentText style exponent)

end Literal

namespace DecimalStyle

open Literal Text

theorem ofDigitChars_zeros (digits : Text) (k : Nat) :
    Nat.ofDigitChars 10 (digits ++ List.replicate k '0') 0 =
      Nat.ofDigitChars 10 digits 0 * 10 ^ k := by
  rw [Nat.ofDigitChars_append, Nat.ofDigitChars_replicate_zero, Nat.mul_comm]

theorem writes_positional (negative : Bool) {digits : Text} (hne : digits ≠ [])
    (hdigits : digits.IsDigits) (lead : Int) :
    Writes (signText negative ++ positional digits lead)
      (Double.ofDecimal negative (Nat.ofDigitChars 10 digits 0) (lead + 1 - digits.length)) := by
  cases lead with
  | negSucc e =>
    have hpoint := writes_point negative (List.cons_ne_nil '0' []) (isDigits_zeros 1)
      ((isDigits_zeros e).append hdigits)
    have hvalue : Nat.ofDigitChars 10 (['0'] ++ (List.replicate e '0' ++ digits)) 0 =
        Nat.ofDigitChars 10 digits 0 := by
      rw [← List.append_assoc, Nat.ofDigitChars_append, ofDigitChars_zeros]
      simp [Nat.ofDigitChars_cons]
    have hexponent : -((List.replicate e '0' ++ digits).length : Int) =
        Int.negSucc e + 1 - digits.length := by
      rw [List.length_append, List.length_replicate]
      omega
    rw [hvalue, hexponent] at hpoint
    exact hpoint
  | ofNat lead =>
    rw [positional]
    split
    · rename_i hlength
      have hwhole := hdigits.append (isDigits_zeros (lead + 1 - digits.length))
      have hpoint := writes_point negative (by simp [hne]) hwhole (isDigits_zeros 1)
      have hexponent : -((List.replicate 1 '0').length : Int) +
          (lead + 1 - digits.length + 1 : Nat) = Int.ofNat lead + 1 - digits.length := by
        rw [List.length_replicate]
        simp only [Int.ofNat_eq_natCast]
        omega
      have hvalue : Nat.ofDigitChars 10 (digits ++ List.replicate (lead + 1 - digits.length) '0' ++
          List.replicate 1 '0') 0 =
            Nat.ofDigitChars 10 digits 0 * 10 ^ (lead + 1 - digits.length + 1) := by
        rw [List.append_assoc, List.replicate_append_replicate, ofDigitChars_zeros]
      rw [hvalue, Double.ofDecimal_mul_pow, hexponent] at hpoint
      exact hpoint
    · rename_i hlength
      have hpoint := writes_point negative (by simp [hne]) (hdigits.take (lead + 1))
        (hdigits.drop (lead + 1))
      have hexponent : -((digits.drop (lead + 1)).length : Int) =
          Int.ofNat lead + 1 - digits.length := by
        rw [List.length_drop]
        simp only [Int.ofNat_eq_natCast]
        omega
      rw [List.take_append_drop, hexponent] at hpoint
      exact hpoint

theorem writes_layout (style : DecimalStyle) (negative : Bool) {digits : Text} (hne : digits ≠ [])
    (hdigits : digits.IsDigits) (lead : Int) :
    Writes (signText negative ++ style.layout digits lead)
      (Double.ofDecimal negative (Nat.ofDigitChars 10 digits 0) (lead + 1 - digits.length)) := by
  rw [layout]
  split
  · exact writes_positional negative hne hdigits lead
  · have hwritten := writes_exponent style negative (by simp [hne]) (hdigits.take 1)
      (hdigits.drop 1) lead
    have hexponent : lead - ((digits.drop 1).length : Int) = lead + 1 - digits.length := by
      have := List.length_pos_iff.2 hne
      rw [List.length_drop]
      omega
    have hnil : digits.drop 1 = [] ↔ digits.length ≤ 1 := List.drop_eq_nil_iff
    rw [List.take_append_drop, hexponent] at hwritten
    simp only [hnil] at hwritten
    rw [List.append_assoc]
    exact hwritten

theorem writes_write (style : DecimalStyle) (negative : Bool) (d : Decimal) :
    Writes (signText negative ++ style.write d)
      (Double.ofDecimal negative d.digits d.exponent) := by
  have hwritten := writes_layout style negative Nat.toDigits_ne_nil
    (isDigits_toDigits (d.strip Decimal.enoughDigits).digits)
    ((d.strip Decimal.enoughDigits).exponent +
      (Nat.toDigits 10 (d.strip Decimal.enoughDigits).digits).length - 1)
  rw [Nat.ofDigitChars_ten_toDigits, Int.sub_add_cancel, Int.add_sub_cancel,
    Decimal.ofDecimal_strip] at hwritten
  exact hwritten

end DecimalStyle

namespace Double

open Literal Text

def dropZeroSign (x : Double) : Double :=
  if x.isZero then zero else x

theorem writes_text {negative : Bool} {units : Nat} (fits : Fits units) (h : units ≠ 0) :
    Writes (finite negative units fits).text (.finite negative units fits) := by
  have hreads := Decimal.readsBack_shortest fits (Nat.pos_of_ne_zero h)
  have hwritten := DecimalStyle.plain.writes_write negative (Decimal.shortest units)
  rw [Decimal.ofDecimal_of_readsBack hreads fits] at hwritten
  rw [text, if_neg h]
  exact hwritten

theorem integerText_eq (n : Int) :
    integerText n = signText (decide (n < 0)) ++ Nat.toDigits 10 n.natAbs := by
  rw [integerText, signText]
  by_cases hsign : n < 0 <;> simp [hsign]

theorem writes_integerText (n : Int) : Writes (integerText n) (ofInt n) := by
  have hwritten := writes_whole (decide (n < 0)) Nat.toDigits_ne_nil (isDigits_toDigits n.natAbs)
  have hvalue : ofDecimal (decide (n < 0)) n.natAbs 0 = ofInt n := by
    rw [ofDecimal_eq, ofInt, ofUnits, Int.neg_zero, Int.toNat_zero, Nat.pow_zero, Nat.mul_one]
  rw [Nat.ofDigitChars_ten_toDigits, hvalue] at hwritten
  rwa [integerText_eq]

theorem decide_signed_neg {negative : Bool} {n : Nat} (h : 0 < n) :
    decide (signed negative n < 0) = negative := by
  cases negative <;> simp [signed, h]

theorem dropZeroSign_of_ne {negative : Bool} {units : Nat} (fits : Fits units) (h : units ≠ 0) :
    (finite negative units fits).dropZeroSign = .finite negative units fits :=
  if_neg (by simpa [isZero] using h)

theorem ofInt_wholePart {x : Double} (h : x.isWhole = true) :
    ofInt (signed x.isNegative x.wholePart) = x.dropZeroSign := by
  cases x with
  | nan => cases h
  | infinity negative => cases h
  | finite negative units fits =>
    obtain ⟨n, rfl⟩ := Nat.dvd_of_mod_eq_zero (beq_iff_eq.1 h)
    have hquotient : unitsPerOne * n / unitsPerOne = n := Nat.mul_div_cancel_left n unitsPerOne_pos
    have habs : (signed negative n).natAbs = n := natAbs_signedUnits negative n
    change ofInt (signed negative (unitsPerOne * n / unitsPerOne)) = _
    rw [hquotient, ofInt, habs, Nat.mul_comm n]
    rcases Nat.eq_zero_or_pos n with rfl | hpos
    · rw [ofUnits_of_fits fits]
      cases negative <;> rfl
    · rw [decide_signed_neg hpos, ofUnits_of_fits fits,
        dropZeroSign_of_ne fits (Nat.ne_of_gt (Nat.mul_pos unitsPerOne_pos hpos))]

theorem writes_display {x : Double} (h : x.isFinite = true) :
    Writes x.display x.dropZeroSign := by
  rw [display]
  split
  · rename_i hwhole
    rw [Bool.and_eq_true] at hwhole
    rw [← ofInt_wholePart hwhole.1]
    exact writes_integerText _
  · rename_i hwhole
    obtain ⟨negative, units, fits, rfl⟩ := exists_of_isFinite h
    have hne : units ≠ 0 := by
      rintro rfl
      refine hwhole ?_
      have hlarge : ¬ (finite negative 0 fits).magnitudeAtLeast longWholeFrom = true := by
        rw [magnitudeAtLeast_finite]
        exact Nat.not_le.2 (Nat.mul_pos (by decide) unitsPerOne_pos)
      simp [hlarge, isWhole]
    rw [dropZeroSign_of_ne fits hne]
    exact writes_text fits hne

theorem readOperand?_display {x : Double} (h : x.isFinite = true) :
    readOperand? x.display = some x.dropZeroSign := by
  obtain ⟨literal, hread, hvalue⟩ := writes_display h
  have hfinite : literal.toDouble.isFinite = true := by
    rw [hvalue, dropZeroSign]
    split
    · rfl
    · exact h
  rw [readOperand?, hread]
  dsimp only
  rw [if_pos hfinite, hvalue]

end Double

end PolishCalc
