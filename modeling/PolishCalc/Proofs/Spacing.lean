import Mathlib.Data.List.TakeWhile
import PolishCalc.Expression.Token

namespace PolishCalc.Text

def isBreak (c : Char) : Bool :=
  isBlank c || isParenthesis c

def IsWord (word : Text) : Prop :=
  word ≠ [] ∧ ∀ c ∈ word, isBreak c = false

instance (word : Text) : Decidable word.IsWord :=
  have := List.decidableBAll (fun c => isBreak c = false) word
  inferInstanceAs (Decidable (_ ∧ _))

inductive Spaced : List Text → Text → Prop
  | nil : Spaced [] []
  | blank {c words text} : isBlank c = true → Spaced words text → Spaced words (c :: text)
  | parenthesis {c words text} : isParenthesis c = true → Spaced words text →
      Spaced ([c] :: words) (c :: text)
  | word {word words text} : IsWord word → (∀ c ∈ text.head?, isBreak c = true) →
      Spaced words text → Spaced (word :: words) (word ++ text)

theorem IsWord.not_parenthesis {word : Text} (h : word.IsWord) :
    ∀ c ∈ word, isParenthesis c = false := fun c hc => by
  have := h.2 c hc
  simp only [isBreak, Bool.or_eq_false_iff] at this
  exact this.2

theorem blank_xor_parenthesis {c : Char} (h : isBlank c = true) : isParenthesis c = false := by
  cases hp : isParenthesis c with
  | false => rfl
  | true =>
    simp only [isParenthesis, Bool.or_eq_true, beq_iff_eq] at hp
    rcases hp with rfl | rfl <;> exact absurd h (by decide)

theorem lexemesFrom_break {c : Char} (h : isBreak c = true) (word cs : Text) :
    lexemesFrom word (c :: cs) = (if word.isEmpty then [] else [word.reverse]) ++
      lexemes (c :: cs) := by
  have hc : (isBlank c || isParenthesis c) = true := h
  simp [lexemes, lexemesFrom, hc]

theorem lexemes_blank {c : Char} (h : isBlank c = true) (cs : Text) :
    lexemes (c :: cs) = lexemes cs := by
  simp [lexemes, lexemesFrom, h, blank_xor_parenthesis h]

theorem lexemes_parenthesis {c : Char} (h : isParenthesis c = true) (cs : Text) :
    lexemes (c :: cs) = [c] :: lexemes cs := by
  simp [lexemes, lexemesFrom, h]

theorem lexemesFrom_solid {c : Char} (h : isBreak c = false) (word cs : Text) :
    lexemesFrom word (c :: cs) = lexemesFrom (c :: word) cs := by
  have hc : (isBlank c || isParenthesis c) = false := h
  simp [lexemesFrom, hc]

theorem lexemesFrom_append {w : Text} (h : ∀ c ∈ w, isBreak c = false) (word text : Text) :
    lexemesFrom word (w ++ text) = lexemesFrom (w.reverse ++ word) text := by
  induction w generalizing word with
  | nil => rfl
  | cons c w ih =>
    rw [List.cons_append, lexemesFrom_solid (h c (by simp)), ih (fun d hd => h d (by simp [hd]))]
    simp

theorem lexemesFrom_of_head {word text : Text} (hword : word ≠ [])
    (hhead : ∀ c ∈ text.head?, isBreak c = true) :
    lexemesFrom word text = word.reverse :: lexemes text := by
  cases text with
  | nil => simp [lexemes, lexemesFrom, hword]
  | cons c cs => rw [lexemesFrom_break (hhead c rfl), if_neg (by simpa using hword)]; rfl

theorem Spaced.lexemes_eq {words : List Text} {text : Text} (h : Spaced words text) :
    text.lexemes = words := by
  induction h with
  | nil => rfl
  | blank hc _ ih => rw [lexemes_blank hc, ih]
  | parenthesis hc _ ih => rw [lexemes_parenthesis hc, ih]
  | @word w words text hw hhead _ ih =>
    rw [lexemes, lexemesFrom_append hw.2, List.append_nil,
      lexemesFrom_of_head (by simpa using hw.1) hhead, List.reverse_reverse, ih]

theorem Spaced.unfinished {word text : Text} {words : List Text}
    (hword : ∀ c ∈ word, isBreak c = false) (hhead : ∀ c ∈ text.head?, isBreak c = true)
    (h : Spaced words text) :
    Spaced ((if word.isEmpty then [] else [word.reverse]) ++ words) (word.reverse ++ text) := by
  by_cases hempty : word = []
  · simpa [hempty] using h
  · rw [if_neg (by simpa using hempty)]
    exact .word ⟨by simpa using hempty, by simpa using hword⟩ hhead h

theorem spaced_lexemesFrom (word text : Text) (h : ∀ c ∈ word, isBreak c = false) :
    Spaced (lexemesFrom word text) (word.reverse ++ text) := by
  induction text generalizing word with
  | nil => simpa [lexemesFrom] using Spaced.nil.unfinished h (by simp)
  | cons c cs ih =>
    cases hc : isBreak c with
    | true =>
      have hcs : Spaced (lexemes cs) cs := ih [] (by simp)
      rw [lexemesFrom_break hc]
      refine Spaced.unfinished h (by simpa using hc) ?_
      cases hp : isParenthesis c with
      | true => exact lexemes_parenthesis hp cs ▸ .parenthesis hp hcs
      | false =>
        have hb : isBlank c = true := by simpa [isBreak, hp] using hc
        exact lexemes_blank hb cs ▸ .blank hb hcs
    | false =>
      have hword : ∀ d ∈ c :: word, isBreak d = false := by simpa [hc] using h
      rw [lexemesFrom_solid hc]
      simpa using ih (c :: word) hword

theorem lexemes_eq_iff {words : List Text} {text : Text} :
    text.lexemes = words ↔ Spaced words text :=
  ⟨fun h => h ▸ spaced_lexemesFrom [] text (by simp), Spaced.lexemes_eq⟩

theorem lexemes_eq_nil_iff {text : Text} : text.lexemes = [] ↔ ∀ c ∈ text, isBlank c = true := by
  induction text with
  | nil => simp [lexemes, lexemesFrom]
  | cons c cs ih =>
    cases hb : isBlank c with
    | true => simp [lexemes_blank hb, ih, hb]
    | false =>
      have hne : lexemes (c :: cs) ≠ [] := by
        cases hp : isParenthesis c with
        | true => simp [lexemes_parenthesis hp]
        | false =>
          intro hnil
          have hspaced := lexemes_eq_iff.1 hnil
          cases hspaced with
          | blank hc => simp [hb] at hc
      simpa [hb] using hne

theorem lexemes_dropWhile {p : Char → Bool} (hp : ∀ c, p c = true → isBlank c = true)
    (text : Text) : lexemes (text.dropWhile p) = text.lexemes := by
  induction text with
  | nil => rfl
  | cons c cs ih =>
    cases hc : p c with
    | true => rw [List.dropWhile_cons_of_pos hc, ih, lexemes_blank (hp c hc)]
    | false => rw [List.dropWhile_cons_of_neg (by simp [hc])]

theorem lexemesFrom_append_blank {blanks : Text} (h : ∀ c ∈ blanks, isBlank c = true)
    (word text : Text) : lexemesFrom word (text ++ blanks) = lexemesFrom word text := by
  have hnil : lexemes blanks = [] := lexemes_eq_nil_iff.2 h
  induction text generalizing word with
  | nil =>
    cases blanks with
    | nil => rfl
    | cons c cs =>
      have hc : isBreak c = true := by simp [isBreak, h c]
      rw [List.nil_append, lexemesFrom_break hc, hnil, List.append_nil, lexemesFrom]
  | cons c cs ih =>
    cases hc : isBreak c with
    | true =>
      have hcs : lexemes (c :: (cs ++ blanks)) = lexemes (c :: cs) := by
        cases hp : isParenthesis c with
        | true => rw [lexemes_parenthesis hp, lexemes_parenthesis hp, lexemes, ih, lexemes]
        | false =>
          have hb : isBlank c = true := by simpa [isBreak, hp] using hc
          rw [lexemes_blank hb, lexemes_blank hb, lexemes, ih, lexemes]
      rw [List.cons_append, lexemesFrom_break hc, lexemesFrom_break hc, hcs]
    | false => rw [List.cons_append, lexemesFrom_solid hc, lexemesFrom_solid hc, ih]

theorem lexemesFrom_collapse (word text : Text) :
    lexemesFrom word text.collapse = lexemesFrom word text := by
  induction text generalizing word with
  | nil => rfl
  | cons c cs ih =>
    have hcs : lexemes (collapse cs) = lexemes cs := ih []
    cases hb : isBlank c with
    | true =>
      have hspace : ∀ d, (d == ' ') = true → isBlank d = true := by
        intro d hd
        rw [beq_iff_eq.1 hd]
        rfl
      rw [collapse_blank hb, lexemesFrom_break rfl, lexemesFrom_break (by simp [isBreak, hb]),
        lexemes_blank rfl, lexemes_blank hb, lexemes_dropWhile hspace, hcs]
    | false =>
      rw [collapse_solid hb]
      cases hp : isParenthesis c with
      | true =>
        have hc : isBreak c = true := by simp [isBreak, hp]
        rw [lexemesFrom_break hc, lexemesFrom_break hc, lexemes_parenthesis hp,
          lexemes_parenthesis hp, hcs]
      | false =>
        have hc : isBreak c = false := by simp [isBreak, hb, hp]
        rw [lexemesFrom_solid hc, lexemesFrom_solid hc, ih]

theorem exists_eq_dropEnd_append (p : Char → Bool) (text : Text) :
    ∃ tail, (∀ c ∈ tail, p c = true) ∧ text = dropEnd p text ++ tail := by
  refine ⟨(text.reverse.takeWhile p).reverse, ?_, ?_⟩
  · intro c hc
    exact List.mem_takeWhile_imp (List.mem_reverse.1 hc)
  · rw [dropEnd, ← List.reverse_append, List.takeWhile_append_dropWhile, List.reverse_reverse]

theorem lexemes_trim (text : Text) : text.trim.lexemes = text.lexemes := by
  obtain ⟨tail, htail, heq⟩ := exists_eq_dropEnd_append isBlank (text.dropWhile isBlank)
  calc text.trim.lexemes
      = lexemes (text.trim ++ tail) := (lexemesFrom_append_blank htail [] _).symm
    _ = lexemes (text.dropWhile isBlank) := congrArg lexemes heq.symm
    _ = text.lexemes := lexemes_dropWhile (fun _ h => h) text

theorem lexemes_trim_collapse (text : Text) : text.collapse.trim.lexemes = text.lexemes := by
  rw [lexemes_trim]
  exact lexemesFrom_collapse [] text

theorem trim_eq_nil {text : Text} (h : ∀ c ∈ text, isBlank c = true) : text.trim = [] := by
  rw [trim, dropEnds, List.dropWhile_eq_nil_iff.2 h]
  rfl

theorem forall_mem_pointForComma {p : Char → Prop} (h : p '.' ↔ p ',') {text : Text} :
    (∀ c ∈ text.pointForComma, p c) ↔ ∀ c ∈ text, p c := by
  rw [pointForComma, List.forall_mem_map]
  refine forall₂_congr fun c _ => ?_
  split
  · rename_i hc
    rw [beq_iff_eq.1 hc, h]
  · rfl

theorem blank_pointForComma {text : Text} :
    (∀ c ∈ text.pointForComma, isBlank c = true) ↔ ∀ c ∈ text, isBlank c = true := by
  have hpoint : isBlank '.' = false := rfl
  have hcomma : isBlank ',' = false := rfl
  exact forall_mem_pointForComma (by rw [hpoint, hcomma])

theorem normalize_tooLong {maxLength : Int} {text : Text} (h : maxLength < text.length) :
    text.normalize maxLength = .error (.tooLong maxLength) :=
  if_pos h

theorem normalize_blank {maxLength : Int} {text : Text} (hlength : text.length ≤ maxLength)
    (h : ∀ c ∈ text, isBlank c = true) : text.normalize maxLength = .error .emptyInput := by
  have hcollapse : ∀ c ∈ text.pointForComma.collapse, isBlank c = true := by
    rw [← lexemes_eq_nil_iff, lexemes, lexemesFrom_collapse]
    exact lexemes_eq_nil_iff.2 (blank_pointForComma.2 h)
  rw [normalize, if_neg (by omega), trim_eq_nil hcollapse]
  rfl

theorem normalize_ok {maxLength : Int} {text : Text} (hlength : text.length ≤ maxLength)
    (h : ¬ ∀ c ∈ text, isBlank c = true) :
    ∃ normal, text.normalize maxLength = .ok normal ∧
      normal.lexemes = text.pointForComma.lexemes := by
  have hlexemes := lexemes_trim_collapse text.pointForComma
  refine ⟨text.pointForComma.collapse.trim, ?_, hlexemes⟩
  have hne : text.pointForComma.collapse.trim ≠ [] := by
    intro hnil
    rw [hnil] at hlexemes
    exact h (blank_pointForComma.1 (lexemes_eq_nil_iff.1 hlexemes.symm))
  rw [normalize, if_neg (by omega)]
  simp [hne]

end PolishCalc.Text
