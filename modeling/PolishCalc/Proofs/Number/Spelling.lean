import PolishCalc.Number.Literal

namespace PolishCalc

inductive Text.Digits : Text → List Nat → Prop
  | nil : Digits [] []
  | cons {c d cs ds} : digitValue? c = some d → Digits cs ds → Digits (c :: cs) (d :: ds)

namespace Literal

open Text

inductive Sign : Bool → Text → Prop
  | none : Sign false []
  | plus : Sign false ['+']
  | minus : Sign true ['-']

inductive Mantissa : List Nat → List Nat → Text → Prop
  | whole {digits values} : digits ≠ [] → Digits digits values → Mantissa values [] digits
  | point {front back whole fraction} : front ≠ [] ∨ back ≠ [] → Digits front whole →
      Digits back fraction → Mantissa whole fraction (front ++ '.' :: back)

inductive Exponent : Int → Text → Prop
  | none : Exponent 0 []
  | marked {mark sign digits negative values} : mark = 'e' ∨ mark = 'E' → Sign negative sign →
      digits ≠ [] → Digits digits values →
      Exponent (signed negative (ofDigits values)) (mark :: (sign ++ digits))

inductive Spelled : Literal → Text → Prop
  | parts {negative whole fraction exponent sign mantissa tail} : Sign negative sign →
      Mantissa whole fraction mantissa → Exponent exponent tail →
      Spelled ⟨negative, whole, fraction, exponent⟩ (sign ++ (mantissa ++ tail))

end Literal

namespace Text

theorem spanDigits_digits {digits rest : Text} {values : List Nat} (h : Digits digits values)
    (hrest : ∀ c ∈ rest.head?, digitValue? c = none) :
    spanDigits (digits ++ rest) = (values, rest) := by
  induction h with
  | nil =>
    cases rest with
    | nil => rfl
    | cons c cs =>
      have hc : digitValue? c = none := hrest c rfl
      simp [spanDigits, hc]
  | cons hc _ ih => simp [spanDigits, hc, ih]

theorem exists_spanDigits (text : Text) : ∃ digits, Digits digits (spanDigits text).1 ∧
    text = digits ++ (spanDigits text).2 := by
  induction text with
  | nil => exact ⟨[], .nil, rfl⟩
  | cons c cs ih =>
    cases hc : digitValue? c with
    | none =>
      have hspan : spanDigits (c :: cs) = ([], c :: cs) := by simp [spanDigits, hc]
      rw [hspan]
      exact ⟨[], .nil, rfl⟩
    | some d =>
      obtain ⟨digits, hdigits, hcs⟩ := ih
      have hspan : spanDigits (c :: cs) = (d :: (spanDigits cs).1, (spanDigits cs).2) := by
        simp [spanDigits, hc]
      rw [hspan]
      exact ⟨c :: digits, .cons hc hdigits, congrArg (c :: ·) hcs⟩

theorem Digits.isEmpty_eq {digits : Text} {values : List Nat} (h : Digits digits values) :
    values.isEmpty = digits.isEmpty := by
  cases h <;> rfl

theorem Digits.head {digits : Text} {values : List Nat} (h : Digits digits values) (c : Char)
    (hc : c ∈ digits.head?) : ∃ d, digitValue? c = some d := by
  cases h with
  | nil => cases hc
  | cons hd _ =>
    cases hc
    exact ⟨_, hd⟩

end Text

namespace Literal

open Text

variable {text rest : Text} {literal : Literal}

theorem exists_readSign (text : Text) : ∃ sign, Sign (readSign text).1 sign ∧
    text = sign ++ (readSign text).2 := by
  unfold readSign
  split
  · exact ⟨['-'], .minus, rfl⟩
  · exact ⟨['+'], .plus, rfl⟩
  · exact ⟨[], .none, rfl⟩

theorem exponent_of_readExponent? {exponent : Int}
    (h : readExponent? text = some (exponent, rest)) :
    ∃ spelling, Exponent exponent spelling ∧ text = spelling ++ rest := by
  cases text with
  | nil =>
    cases h
    exact ⟨[], .none, rfl⟩
  | cons mark cs =>
    rw [readExponent?] at h
    split at h
    · rename_i hmark
      dsimp only at h
      split at h
      · cases h
      · rename_i hne
        cases h
        obtain ⟨sign, hsign, hcs⟩ := exists_readSign cs
        obtain ⟨digits, hdigits, hspan⟩ := exists_spanDigits (readSign cs).2
        have hmark' : mark = 'e' ∨ mark = 'E' := by simpa using hmark
        have hne' : digits ≠ [] := by
          rw [hdigits.isEmpty_eq] at hne
          simpa using hne
        refine ⟨mark :: (sign ++ digits), .marked hmark' hsign hne' hdigits, ?_⟩
        rw [List.cons_append, List.append_assoc, ← hspan, ← hcs]
    · cases h
      exact ⟨[], .none, rfl⟩

theorem exists_readFraction (text : Text) : ∃ point, text = point ++ (readFraction text).2 ∧
    (point = [] ∧ (readFraction text).1 = [] ∨
      ∃ digits, point = '.' :: digits ∧ Digits digits (readFraction text).1) := by
  unfold readFraction
  split
  · rename_i cs
    obtain ⟨digits, hdigits, hcs⟩ := exists_spanDigits cs
    exact ⟨'.' :: digits, congrArg ('.' :: ·) hcs, .inr ⟨digits, rfl, hdigits⟩⟩
  · exact ⟨[], rfl, .inl ⟨rfl, rfl⟩⟩

theorem spelled_of_readStart? (h : readStart? text = some (literal, rest)) :
    ∃ spelling, literal.Spelled spelling ∧ text = spelling ++ rest := by
  rw [readStart?] at h
  dsimp only at h
  obtain ⟨sign, hsign, htext⟩ := exists_readSign text
  obtain ⟨front, hfront, hwhole⟩ := exists_spanDigits (readSign text).2
  obtain ⟨point, hpoint, hfraction⟩ := exists_readFraction (spanDigits (readSign text).2).2
  split at h
  · cases h
  rename_i hsome
  obtain ⟨⟨exponent, rest'⟩, hexponent, heq⟩ := Option.map_eq_some_iff.1 h
  cases heq
  obtain ⟨tail, htail, hrest⟩ := exponent_of_readExponent? hexponent
  have hmantissa : Mantissa (spanDigits (readSign text).2).1
      (readFraction (spanDigits (readSign text).2).2).1 (front ++ point) := by
    rw [hfront.isEmpty_eq] at hsome
    rcases hfraction with ⟨rfl, hnone⟩ | ⟨back, rfl, hback⟩
    · rw [hnone] at hsome ⊢
      rw [List.append_nil]
      exact .whole (by simpa using hsome) hfront
    · rw [hback.isEmpty_eq] at hsome
      refine .point ?_ hfront hback
      cases front with
      | nil => exact .inr (by simpa using hsome)
      | cons c front => exact .inl (List.cons_ne_nil c front)
  refine ⟨sign ++ (front ++ point ++ tail), .parts hsign hmantissa htail, ?_⟩
  rw [List.append_assoc, List.append_assoc, List.append_assoc, ← hrest, ← hpoint, ← hwhole, ← htext]

theorem readSign_sign {negative : Bool} {sign : Text} (h : Sign negative sign)
    (hrest : ∀ c ∈ rest.head?, c ≠ '+' ∧ c ≠ '-') : readSign (sign ++ rest) = (negative, rest) := by
  cases h with
  | plus => rfl
  | minus => rfl
  | none =>
    rw [List.nil_append]
    unfold readSign
    split
    · exact absurd rfl (hrest '-' rfl).2
    · exact absurd rfl (hrest '+' rfl).1
    · rfl

theorem ne_sign_of_digitValue? {c : Char} {d : Nat} (h : digitValue? c = some d) :
    c ≠ '+' ∧ c ≠ '-' := by
  have hplus : digitValue? '+' = none := by decide
  have hminus : digitValue? '-' = none := by decide
  constructor
  · rintro rfl
    rw [hplus] at h
    cases h
  · rintro rfl
    rw [hminus] at h
    cases h

theorem Exponent.head {exponent : Int} {tail : Text} (h : Exponent exponent tail) :
    ∀ c ∈ tail.head?, c = 'e' ∨ c = 'E' := by
  intro c hc
  cases h with
  | none => cases hc
  | marked hmark =>
    cases hc
    exact hmark

theorem Exponent.read {exponent : Int} {tail : Text} (h : Exponent exponent tail) :
    readExponent? tail = some (exponent, []) := by
  cases h with
  | none => rfl
  | @marked mark sign digits negative values hmark hsign hne hdigits =>
    have hmark' : (mark == 'e' || mark == 'E') = true := by simpa using hmark
    have hstart : ∀ c ∈ digits.head?, c ≠ '+' ∧ c ≠ '-' := fun c hc => by
      obtain ⟨d, hd⟩ := hdigits.head c hc
      exact ne_sign_of_digitValue? hd
    have hspan : spanDigits (digits ++ []) = (values, []) := spanDigits_digits hdigits nofun
    rw [List.append_nil] at hspan
    have hempty : ¬ values.isEmpty = true := by
      rw [hdigits.isEmpty_eq]
      simpa using hne
    rw [readExponent?, if_pos hmark']
    dsimp only
    rw [readSign_sign hsign hstart, hspan]
    exact if_neg hempty

theorem Mantissa.head {whole fraction : List Nat} {mantissa : Text}
    (h : Mantissa whole fraction mantissa) (tail : Text) :
    ∀ c ∈ (mantissa ++ tail).head?, c ≠ '+' ∧ c ≠ '-' := by
  intro c hc
  cases h with
  | whole hne hdigits =>
    cases hdigits with
    | nil => exact absurd rfl hne
    | cons hd _ =>
      cases hc
      exact ne_sign_of_digitValue? hd
  | point _ hfront _ =>
    cases hfront with
    | nil =>
      cases hc
      decide
    | cons hd _ =>
      cases hc
      exact ne_sign_of_digitValue? hd

theorem Mantissa.read {whole fraction : List Nat} {mantissa tail : Text}
    (h : Mantissa whole fraction mantissa) (htail : ∀ c ∈ tail.head?, c = 'e' ∨ c = 'E') :
    (whole.isEmpty && fraction.isEmpty) = false ∧
      (spanDigits (mantissa ++ tail)).1 = whole ∧
      readFraction (spanDigits (mantissa ++ tail)).2 = (fraction, tail) := by
  have hbreak : ∀ c ∈ tail.head?, digitValue? c = none := fun c hc => by
    rcases htail c hc with rfl | rfl <;> decide
  cases h with
  | whole hne hdigits =>
    have hempty : whole.isEmpty = false := by
      rw [hdigits.isEmpty_eq]
      simpa using hne
    have hfraction : readFraction tail = ([], tail) := by
      unfold readFraction
      split
      · exact absurd (htail '.' rfl) (by decide)
      · rfl
    rw [spanDigits_digits hdigits hbreak]
    exact ⟨by rw [hempty]; rfl, rfl, hfraction⟩
  | @point front back _ _ hne hfront hback =>
    have hempty : (whole.isEmpty && fraction.isEmpty) = false := by
      rw [hfront.isEmpty_eq, hback.isEmpty_eq]
      rcases hne with hne | hne <;> simp [hne]
    have hpoint : ∀ c ∈ ('.' :: back ++ tail).head?, digitValue? c = none := fun c hc => by
      cases hc
      decide
    rw [List.append_assoc, spanDigits_digits hfront hpoint]
    exact ⟨hempty, rfl, spanDigits_digits hback hbreak⟩

theorem Spelled.readStart? (h : literal.Spelled text) :
    readStart? text = some (literal, []) := by
  cases h with
  | @parts negative whole fraction exponent sign mantissa tail hsign hmantissa htail =>
    obtain ⟨hempty, hwhole, hfraction⟩ := hmantissa.read htail.head
    have hread : ¬ (whole.isEmpty && fraction.isEmpty) = true := by
      rw [hempty]
      nofun
    rw [Literal.readStart?, readSign_sign hsign (hmantissa.head tail)]
    dsimp only
    rw [hwhole, hfraction]
    dsimp only
    rw [if_neg hread, htail.read]
    rfl

theorem read?_eq_some_iff (h : ∀ c ∈ text, isBlank c = false) :
    read? text = some literal ↔ literal.Spelled text := by
  constructor
  · intro hread
    rw [read?] at hread
    split at hread
    · rename_i literal' hstart
      cases hread
      obtain ⟨spelling, hspelled, htext⟩ := spelled_of_readStart? hstart
      rwa [htext, List.append_nil]
    · rename_i literal' hstart
      obtain ⟨spelling, -, htext⟩ := spelled_of_readStart? hstart
      have hend : isBlank '\n' = false := h '\n' (by simp [htext])
      exact absurd hend (by decide)
    · cases hread
  · intro hspelled
    rw [read?, hspelled.readStart?]

end Literal

end PolishCalc
