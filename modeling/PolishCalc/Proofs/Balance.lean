import PolishCalc.Expression.Evaluation
import PolishCalc.Proofs.Spacing

namespace PolishCalc.Text

def Balanced (text : Text) : Prop :=
  (∀ front, front <+: text → front.count ')' ≤ front.count '(') ∧
    text.count ')' = text.count '('

def Closes (depth : Nat) : Text → Prop
  | [] => depth = 0
  | c :: cs =>
    if c = '(' then Closes (depth + 1) cs
    else if c = ')' then 0 < depth ∧ Closes (depth - 1) cs
    else Closes depth cs

@[simp] theorem closes_nil {depth : Nat} : Closes depth [] ↔ depth = 0 := Iff.rfl

@[simp] theorem closes_opening {depth : Nat} {cs : Text} :
    Closes depth ('(' :: cs) ↔ Closes (depth + 1) cs := by
  simp [Closes]

@[simp] theorem closes_closing {depth : Nat} {cs : Text} :
    Closes depth (')' :: cs) ↔ 0 < depth ∧ Closes (depth - 1) cs := by
  simp [Closes]

theorem closes_cons {c : Char} (h : isParenthesis c = false) {depth : Nat} {cs : Text} :
    Closes depth (c :: cs) ↔ Closes depth cs := by
  have hc : c ≠ '(' ∧ c ≠ ')' := by simpa [isParenthesis] using h
  simp [Closes, hc]

theorem closes_append {word : Text} (h : ∀ c ∈ word, isParenthesis c = false) {depth : Nat}
    {text : Text} : Closes depth (word ++ text) ↔ Closes depth text := by
  induction word with
  | nil => rfl
  | cons c cs ih =>
    rw [List.cons_append, closes_cons (h c (by simp))]
    exact ih fun d hd => h d (by simp [hd])

theorem forall_prefix_cons {p : Text → Prop} {c : Char} {cs : Text} :
    (∀ front, front <+: c :: cs → p front) ↔
      p [] ∧ ∀ front, front <+: cs → p (c :: front) := by
  constructor
  · intro h
    exact ⟨h [] List.nil_prefix, fun front hfront => h _ (List.cons_prefix_cons.2 ⟨rfl, hfront⟩)⟩
  · rintro ⟨hnil, hcons⟩ front hfront
    rcases List.prefix_cons_iff.1 hfront with rfl | ⟨tail, rfl, htail⟩
    · exact hnil
    · exact hcons tail htail

theorem closes_iff {depth : Nat} {text : Text} : Closes depth text ↔
    (∀ front, front <+: text → front.count ')' ≤ depth + front.count '(') ∧
      text.count ')' = depth + text.count '(' := by
  induction text generalizing depth with
  | nil =>
    have hfronts : ∀ front, front <+: ([] : Text) →
        front.count ')' ≤ depth + front.count '(' := by
      intro front h
      simp [List.prefix_nil.1 h]
    rw [closes_nil, and_iff_right hfronts, List.count_nil, List.count_nil]
    omega
  | cons c cs ih =>
    rw [forall_prefix_cons]
    by_cases hopen : c = '('
    · subst hopen
      simp only [closes_opening, ih, List.count_cons_self, List.count_nil,
        List.count_cons_of_ne (show '(' ≠ ')' by decide)]
      constructor
      · rintro ⟨hfronts, htotal⟩
        exact ⟨⟨by omega, fun front h => by have := hfronts front h; omega⟩, by omega⟩
      · rintro ⟨⟨-, hfronts⟩, htotal⟩
        exact ⟨fun front h => by have := hfronts front h; omega, by omega⟩
    by_cases hclose : c = ')'
    · subst hclose
      simp only [closes_closing, ih, List.count_cons_self, List.count_nil,
        List.count_cons_of_ne (show ')' ≠ '(' by decide)]
      constructor
      · rintro ⟨hpos, hfronts, htotal⟩
        exact ⟨⟨by omega, fun front h => by have := hfronts front h; omega⟩, by omega⟩
      · rintro ⟨⟨-, hfronts⟩, htotal⟩
        have hpos := hfronts [] List.nil_prefix
        simp only [List.count_nil] at hpos
        exact ⟨by omega, fun front h => by have := hfronts front h; omega, by omega⟩
    · have hc : isParenthesis c = false := by simp [isParenthesis, hopen, hclose]
      simp [closes_cons hc, ih, List.count_cons_of_ne hopen, List.count_cons_of_ne hclose]

theorem balanced_iff_closes {text : Text} : Balanced text ↔ Closes 0 text := by
  simp [Balanced, closes_iff]

theorem scan_eq_none_iff {index : Nat} {unclosed : List Nat} {text : Text} :
    Imbalance.scan index unclosed text = none ↔ Closes unclosed.length text := by
  induction text generalizing index unclosed with
  | nil => cases unclosed <;> simp [Imbalance.scan]
  | cons c cs ih =>
    by_cases hopen : c = '('
    · subst hopen
      simp [Imbalance.scan, ih]
    by_cases hclose : c = ')'
    · subst hclose
      cases unclosed <;> simp [Imbalance.scan, ih]
    · have hc : isParenthesis c = false := by simp [isParenthesis, hopen, hclose]
      simp [Imbalance.scan, hopen, hclose, ih, closes_cons hc]

theorem imbalance?_eq_none_iff {text : Text} : text.imbalance? = none ↔ text.Balanced := by
  rw [balanced_iff_closes]
  exact scan_eq_none_iff

instance (text : Text) : Decidable text.Balanced :=
  decidable_of_iff _ imbalance?_eq_none_iff

theorem Spaced.closes_iff {words : List Text} {text : Text} (h : Spaced words text) {depth : Nat} :
    Closes depth text ↔ Closes depth words.flatten := by
  induction h generalizing depth with
  | nil => rfl
  | blank hc _ ih => rw [closes_cons (blank_xor_parenthesis hc), ih]
  | @parenthesis c words text hc _ ih =>
    simp only [isParenthesis, Bool.or_eq_true, beq_iff_eq] at hc
    rcases hc with rfl | rfl <;> simp [ih]
  | @word w words text hw _ _ ih =>
    rw [closes_append hw.not_parenthesis, List.flatten_cons, closes_append hw.not_parenthesis, ih]

theorem balanced_congr {s t : Text} (h : s.lexemes = t.lexemes) : s.Balanced ↔ t.Balanced := by
  rw [balanced_iff_closes, balanced_iff_closes, (lexemes_eq_iff.1 h).closes_iff,
    (lexemes_eq_iff.1 rfl : Spaced t.lexemes t).closes_iff]

theorem balanced_pointForComma {text : Text} : text.pointForComma.Balanced ↔ text.Balanced := by
  rw [balanced_iff_closes, balanced_iff_closes]
  generalize 0 = depth
  induction text generalizing depth with
  | nil => rfl
  | cons c cs ih =>
    by_cases hcomma : c = ','
    · subst hcomma
      rw [closes_cons (by decide), ← ih]
      exact closes_cons (by decide)
    · have hc : pointForComma (c :: cs) = c :: pointForComma cs := by
        simp [pointForComma, hcomma]
      simp only [hc, Closes, ih]

end PolishCalc.Text

namespace PolishCalc

variable {maxLength : Int} {line : Text}

theorem readLine_tooLong (h : maxLength < line.length) :
    readLine maxLength line = .error (.tooLong maxLength) := by
  rw [readLine, Text.normalize_tooLong h]

theorem readLine_blank (hlength : line.length ≤ maxLength) (h : ∀ c ∈ line, isBlank c = true) :
    readLine maxLength line = .error .emptyInput := by
  rw [readLine, Text.normalize_blank hlength h]

theorem readLine_unbalanced (hlength : line.length ≤ maxLength)
    (hblank : ¬ ∀ c ∈ line, isBlank c = true) (h : ¬ line.Balanced) :
    readLine maxLength line = .error .unmatchedClosing ∨
      readLine maxLength line = .error .unmatchedOpening := by
  obtain ⟨normal, hnormal, hlexemes⟩ := Text.normalize_ok hlength hblank
  have hbalance : normal.imbalance? ≠ none := by
    rw [ne_eq, Text.imbalance?_eq_none_iff, Text.balanced_congr hlexemes]
    exact fun hb => h (Text.balanced_pointForComma.1 hb)
  rw [readLine, hnormal]
  cases himbalance : normal.imbalance? with
  | none => exact absurd himbalance hbalance
  | some imbalance =>
    cases imbalance with
    | closing index => exact .inl (by simp [himbalance])
    | opening index => exact .inr (by simp [himbalance])

theorem readLine_ok (hlength : line.length ≤ maxLength)
    (hblank : ¬ ∀ c ∈ line, isBlank c = true) (h : line.Balanced) :
    readLine maxLength line = .ok (Token.ofLine line.pointForComma) := by
  obtain ⟨normal, hnormal, hlexemes⟩ := Text.normalize_ok hlength hblank
  have hbalance : normal.imbalance? = none := by
    rw [Text.imbalance?_eq_none_iff, Text.balanced_congr hlexemes]
    exact Text.balanced_pointForComma.2 h
  rw [readLine, hnormal]
  simp [hbalance, Token.ofLine, hlexemes]

theorem readLine_eq_ok_iff {tokens : List Token} : readLine maxLength line = .ok tokens ↔
    line.length ≤ maxLength ∧ (¬ ∀ c ∈ line, isBlank c = true) ∧ line.Balanced ∧
      tokens = Token.ofLine line.pointForComma := by
  constructor
  · intro h
    have hlength : line.length ≤ maxLength := by
      by_contra hlong
      simp [readLine_tooLong (Int.not_le.1 hlong)] at h
    have hblank : ¬ ∀ c ∈ line, isBlank c = true := by
      intro hblank
      simp [readLine_blank hlength hblank] at h
    have hbalanced : line.Balanced := by
      by_contra hb
      rcases readLine_unbalanced hlength hblank hb with heq | heq <;> simp [heq] at h
    rw [readLine_ok hlength hblank hbalanced] at h
    exact ⟨hlength, hblank, hbalanced, (Except.ok.inj h).symm⟩
  · rintro ⟨hlength, hblank, hbalanced, rfl⟩
    exact readLine_ok hlength hblank hbalanced

end PolishCalc
