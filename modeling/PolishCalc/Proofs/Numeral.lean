import PolishCalc.Proofs.Grammar
import PolishCalc.Proofs.Number.Written

namespace PolishCalc

def isNumeralChar (c : Char) : Bool :=
  c.isDigit || c == '+' || c == '-' || c == '.' || c == 'e'

def Text.IsNumeral (text : Text) : Prop :=
  (∀ c ∈ text, isNumeralChar c = true) ∧ ∃ c ∈ text, c.isDigit = true

namespace Text

theorem IsDigits.isNumeralChar {digits : Text} (h : digits.IsDigits) :
    ∀ c ∈ digits, isNumeralChar c = true := fun c hc => by
  rw [PolishCalc.isNumeralChar, h c hc]
  rfl

theorem IsDigits.isNumeral {digits : Text} (h : digits.IsDigits) (hne : digits ≠ []) :
    digits.IsNumeral := by
  obtain ⟨c, hc⟩ := List.exists_mem_of_ne_nil digits hne
  exact ⟨h.isNumeralChar, c, hc, h c hc⟩

theorem isNumeralChar_signText (negative : Bool) :
    ∀ c ∈ Literal.signText negative, isNumeralChar c = true := by
  cases negative <;> exact List.all_eq_true.1 rfl

theorem IsNumeral.sign {text : Text} (h : text.IsNumeral) (negative : Bool) :
    IsNumeral (Literal.signText negative ++ text) := by
  obtain ⟨hall, c, hc, hdigit⟩ := h
  exact ⟨List.forall_mem_append.2 ⟨isNumeralChar_signText negative, hall⟩, c,
    List.mem_append_right _ hc, hdigit⟩

theorem IsNumeral.append {s t : Text} (hs : s.IsNumeral) (ht : ∀ c ∈ t, isNumeralChar c = true) :
    IsNumeral (s ++ t) := by
  obtain ⟨hall, c, hc, hdigit⟩ := hs
  exact ⟨List.forall_mem_append.2 ⟨hall, ht⟩, c, List.mem_append_left _ hc, hdigit⟩

theorem isNumeralChar_point {digits : Text} (h : digits.IsDigits) :
    ∀ c ∈ '.' :: digits, isNumeralChar c = true :=
  List.forall_mem_cons.2 ⟨rfl, h.isNumeralChar⟩

end Text

namespace DecimalStyle

theorem isNumeralChar_exponentText (style : DecimalStyle) (exponent : Int) :
    ∀ c ∈ style.exponentText exponent, isNumeralChar c = true := by
  have hdigits := ((Text.isDigits_zeros (style.exponentWidth -
    (Nat.toDigits 10 exponent.natAbs).length)).append
      (Text.isDigits_toDigits exponent.natAbs)).isNumeralChar
  rw [exponentText, Text.padLeft]
  refine List.forall_mem_cons.2 ⟨rfl, List.forall_mem_cons.2 ⟨?_, hdigits⟩⟩
  split <;> rfl

theorem isNumeral_positional {digits : Text} (hne : digits ≠ []) (hdigits : digits.IsDigits)
    (lead : Int) : (positional digits lead).IsNumeral := by
  cases lead with
  | negSucc e =>
    have hzero : Text.IsNumeral ['0'] := (Text.isDigits_zeros 1).isNumeral (by simp)
    exact hzero.append (Text.isNumeralChar_point ((Text.isDigits_zeros e).append hdigits))
  | ofNat lead =>
    rw [positional]
    split
    · have hwhole := hdigits.append (Text.isDigits_zeros (lead + 1 - digits.length))
      exact (hwhole.isNumeral (by simp [hne])).append
        (Text.isNumeralChar_point (Text.isDigits_zeros 1))
    · exact ((hdigits.take (lead + 1)).isNumeral (by simp [hne])).append
        (Text.isNumeralChar_point (hdigits.drop (lead + 1)))

theorem isNumeral_layout (style : DecimalStyle) {digits : Text} (hne : digits ≠ [])
    (hdigits : digits.IsDigits) (lead : Int) : (style.layout digits lead).IsNumeral := by
  rw [layout]
  split
  · exact isNumeral_positional hne hdigits lead
  · refine Text.IsNumeral.append (Text.IsNumeral.append ?_ ?_)
      (style.isNumeralChar_exponentText lead)
    · exact (hdigits.take 1).isNumeral (by simp [hne])
    · split
      · simp
      · exact Text.isNumeralChar_point (hdigits.drop 1)

theorem isNumeral_write (style : DecimalStyle) (d : Decimal) : (style.write d).IsNumeral :=
  style.isNumeral_layout Nat.toDigits_ne_nil (Text.isDigits_toDigits _) _

end DecimalStyle

theorem isNumeral_integerText (n : Int) : (integerText n).IsNumeral := by
  rw [Double.integerText_eq]
  exact ((Text.isDigits_toDigits n.natAbs).isNumeral Nat.toDigits_ne_nil).sign _

namespace Double

theorem isNumeral_text {x : Double} (h : x.isFinite = true) : x.text.IsNumeral := by
  obtain ⟨negative, units, fits, rfl⟩ := exists_of_isFinite h
  rw [text]
  refine Text.IsNumeral.sign ?_ negative
  split
  · exact ⟨List.all_eq_true.1 rfl, '0', by decide, rfl⟩
  · exact DecimalStyle.plain.isNumeral_write _

theorem isNumeral_display {x : Double} (h : x.isFinite = true) : x.display.IsNumeral := by
  rw [display]
  split
  · exact isNumeral_integerText _
  · exact isNumeral_text h

end Double

namespace Text

theorem toNat_of_isNumeralChar {c : Char} (h : isNumeralChar c = true) :
    43 ≤ c.toNat ∧ c.toNat ≤ 101 ∧ c ≠ ',' := by
  simp only [PolishCalc.isNumeralChar, Bool.or_eq_true, beq_iff_eq] at h
  rcases h with (((hdigit | rfl) | rfl) | rfl) | rfl
  · obtain ⟨hlow, hhigh⟩ := Char.isDigit_iff_toNat.1 hdigit
    simp only [Char.reduceToNat] at hlow hhigh
    refine ⟨by omega, by omega, ?_⟩
    rintro rfl
    exact absurd hdigit (by decide)
  all_goals decide

theorem not_isBreak_of_isNumeralChar {c : Char} (h : isNumeralChar c = true) :
    isBreak c = false := by
  obtain ⟨hlow, hhigh, -⟩ := toNat_of_isNumeralChar h
  have hblank : isBlank c = false := by
    simp [isBlank]
    omega
  have hparenthesis : isParenthesis c = false := by
    simp only [isParenthesis, Bool.or_eq_false_iff, beq_eq_false_iff_ne]
    constructor <;> rintro rfl <;> exact absurd hlow (by decide)
  rw [isBreak, hblank, hparenthesis]
  rfl

theorem ofText?_eq_none_of_isDigit {text : Text} {c : Char} (hc : c ∈ text)
    (hdigit : c.isDigit = true) : Operator.ofText? text = none := by
  unfold Operator.ofText?
  split
  · rename_i d
    obtain rfl := List.mem_singleton.1 hc
    refine List.find?_eq_none.2 fun op _ hsymbol => ?_
    rw [← beq_iff_eq.1 hsymbol] at hdigit
    revert hdigit
    cases op <;> decide
  · rfl

theorem IsNumeral.isOperand {text : Text} (h : text.IsNumeral) : IsOperand text := by
  obtain ⟨hall, c, hc, hdigit⟩ := h
  refine ⟨⟨List.ne_nil_of_mem hc, fun d hd => not_isBreak_of_isNumeralChar (hall d hd)⟩,
    fun hcomma => (toNat_of_isNumeralChar (hall _ hcomma)).2.2 rfl, ?_⟩
  exact ofText?_eq_none_of_isDigit hc hdigit

theorem not_isDigit_constant {name : Text} (h : name ∈ constantNames) {c : Char} (hc : c ∈ name) :
    c.isDigit = false := by
  have hall : (constantNames.all fun name => name.all fun c => !c.isDigit) = true := by
    decide +kernel
  simpa using List.all_eq_true.1 (List.all_eq_true.1 hall name h) c hc

theorem IsNumeral.constant?_eq_none {text : Text} (h : text.IsNumeral) (answer : Double) :
    constant? answer text = none := by
  obtain ⟨-, c, hc, hdigit⟩ := h
  have hname : text ∉ constantNames := fun hmem => by
    have := not_isDigit_constant hmem hc
    simp [hdigit] at this
  simp only [constantNames, List.mem_cons, not_or] at hname
  rw [constant?, if_neg hname.1]
  cases hlookup : fixedConstants.lookup text with
  | none => rfl
  | some x =>
    obtain ⟨front, back, hsplit, -⟩ := List.lookup_eq_some_iff.1 hlookup
    have hentry : (text, x) ∈ fixedConstants := by simp [hsplit]
    exact absurd (List.mem_map_of_mem hentry) hname.2

end Text

theorem isOperand_display (x : Double) : IsOperand x.display := by
  cases x with
  | nan => decide
  | infinity negative => cases negative <;> decide
  | finite negative units fits => exact (Double.isNumeral_display rfl).isOperand

theorem operandValue?_display_eq_none {x : Double} (h : x.isFinite = false) (answer : Double) :
    operandValue? answer x.display = none := by
  cases x with
  | nan => rfl
  | infinity negative => cases negative <;> rfl
  | finite negative units fits => cases h

theorem operandValue?_display {x : Double} (h : x.isFinite = true) (answer : Double) :
    operandValue? answer x.display = some x.dropZeroSign := by
  rw [operandValue?, (Double.isNumeral_display h).constant?_eq_none, Option.none_or,
    Double.readOperand?_display h]

end PolishCalc
