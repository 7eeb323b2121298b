import Mathlib.Data.List.DropRight
import PolishCalc.Proofs.Words

namespace PolishCalc.Text

def IsField (word : Text) : Prop :=
  word ≠ [] ∧ ∀ c ∈ word, isBlank c = false

theorem wordsFrom_blank {c : Char} (h : isBlank c = true) (word cs : Text) :
    wordsFrom word (c :: cs) = (if word.isEmpty then [] else [word.reverse]) ++ words cs := by
  simp [wordsFrom, words, h]

theorem wordsFrom_solid {c : Char} (h : isBlank c = false) (word cs : Text) :
    wordsFrom word (c :: cs) = wordsFrom (c :: word) cs := by
  simp [wordsFrom, h]

theorem wordsFrom_append {w : Text} (h : ∀ c ∈ w, isBlank c = false) (word text : Text) :
    wordsFrom word (w ++ text) = wordsFrom (w.reverse ++ word) text := by
  induction w generalizing word with
  | nil => rfl
  | cons c w ih =>
    rw [List.cons_append, wordsFrom_solid (h c (by simp)), ih fun d hd => h d (by simp [hd])]
    simp

theorem isField_of_mem_wordsFrom {word text : Text} (hword : ∀ c ∈ word, isBlank c = false) :
    ∀ w ∈ wordsFrom word text, IsField w := by
  have hfirst (word : Text) (hword : ∀ c ∈ word, isBlank c = false) :
      ∀ w ∈ (if word.isEmpty then [] else [word.reverse]), IsField w := by
    intro w hw
    split at hw
    · cases hw
    · rename_i hne
      obtain rfl := List.mem_singleton.1 hw
      exact ⟨by simpa using hne, by simpa using hword⟩
  induction text generalizing word with
  | nil => exact hfirst word hword
  | cons c cs ih =>
    cases hc : isBlank c with
    | true =>
      rw [wordsFrom_blank hc, List.forall_mem_append]
      exact ⟨hfirst word hword, ih (by simp)⟩
    | false =>
      rw [wordsFrom_solid hc]
      exact ih (List.forall_mem_cons.2 ⟨hc, hword⟩)

theorem words_intercalate {words : List Text} (h : ∀ w ∈ words, IsField w) :
    Text.words (List.intercalate [' '] words) = words := by
  induction words with
  | nil => rfl
  | cons w words ih =>
    obtain ⟨⟨hne, hsolid⟩, hwords⟩ := List.forall_mem_cons.1 h
    cases words with
    | nil =>
      have hend : wordsFrom [] (w ++ []) = [w] := by
        rw [wordsFrom_append hsolid]
        simp [wordsFrom, hne]
      simpa [Text.words] using hend
    | cons next rest =>
      have hrest : List.intercalate [' '] (w :: next :: rest) =
          w ++ ' ' :: List.intercalate [' '] (next :: rest) := by simp
      rw [hrest, Text.words, wordsFrom_append hsolid, wordsFrom_blank rfl, ih hwords]
      simp [hne]

theorem words_pointForComma (text : Text) :
    text.pointForComma.words = text.words.map pointForComma := by
  have hblank (c : Char) : isBlank (if c == ',' then '.' else c) = isBlank c := by
    split
    · rename_i hc
      rw [beq_iff_eq.1 hc]
      rfl
    · rfl
  have hfrom : ∀ word, wordsFrom (pointForComma word) text.pointForComma =
      (wordsFrom word text).map pointForComma := by
    induction text with
    | nil =>
      intro word
      cases word <;> simp [wordsFrom, pointForComma]
    | cons c cs ih =>
      intro word
      have hcons : pointForComma (c :: cs) =
          (if c == ',' then '.' else c) :: pointForComma cs := rfl
      cases hc : isBlank c with
      | true =>
        rw [hcons, wordsFrom_blank ((hblank c).trans hc), wordsFrom_blank hc, List.map_append]
        congr 1
        · cases word <;> simp [pointForComma]
        · exact ih []
      | false =>
        rw [hcons, wordsFrom_solid ((hblank c).trans hc), wordsFrom_solid hc]
        exact ih (c :: word)
  exact hfrom []

theorem dropEnd_append (p : Char → Bool) (front tail : Text) : dropEnd p (front ++ tail) =
    if dropEnd p tail = [] then dropEnd p front else front ++ dropEnd p tail := by
  rw [dropEnd, List.reverse_append, List.dropWhile_append, apply_ite List.reverse,
    List.reverse_append, List.reverse_reverse]
  exact if_congr (by rw [List.isEmpty_iff, dropEnd, List.reverse_eq_nil_iff]) rfl rfl

theorem dropWhile_space_collapse (text : Text) :
    text.collapse.dropWhile (· == ' ') = text.collapse.dropWhile isBlank := by
  have hspace : isBlank ' ' = true := rfl
  induction text with
  | nil => rfl
  | cons c cs ih =>
    cases hc : isBlank c with
    | true =>
      rw [collapse_blank hc, ih, List.dropWhile_cons_of_pos (by rfl),
        List.dropWhile_cons_of_pos hspace, List.dropWhile_idempotent, ← ih,
        List.dropWhile_idempotent]
    | false =>
      have hne : (c == ' ') = false := by
        rw [beq_eq_false_iff_ne]
        rintro rfl
        cases hspace.symm.trans hc
      rw [collapse_solid hc, List.dropWhile_cons_of_neg (by simp [hne]),
        List.dropWhile_cons_of_neg (by simp [hc])]

theorem collapse_blank_eq {c : Char} (h : isBlank c = true) (cs : Text) :
    collapse (c :: cs) = ' ' :: cs.collapse.dropWhile isBlank := by
  rw [collapse_blank h, dropWhile_space_collapse]

theorem intercalate_cons {w : Text} {words : List Text} (h : words ≠ []) :
    List.intercalate [' '] (w :: words) = w ++ ' ' :: List.intercalate [' '] words := by
  obtain ⟨next, rest, rfl⟩ := List.exists_cons_of_ne_nil h
  simp

theorem dropEnd_field {word : Text} (h : ∀ c ∈ word, isBlank c = false) :
    dropEnd isBlank word.reverse = word.reverse :=
  dropEnd_eq_self fun c hc => h c (List.mem_reverse.1 (List.mem_of_getLast? hc))

theorem dropEnd_field_append {word text : Text} (hsolid : ∀ c ∈ word, isBlank c = false)
    {cs : Text} (h : dropEnd isBlank text = List.intercalate [' '] (words cs)) :
    dropEnd isBlank (word.reverse ++ ' ' :: text) =
      List.intercalate [' '] (word.reverse :: words cs) := by
  have hspace : dropEnd isBlank [' '] = [] := rfl
  rw [List.append_cons, dropEnd_append, dropEnd_append, if_pos hspace, dropEnd_field hsolid, h]
  by_cases hwords : words cs = []
  · rw [hwords]
    simp
  · have hfields : ∀ w ∈ words cs, IsField w := isField_of_mem_wordsFrom (by simp)
    have hjoin : List.intercalate [' '] (words cs) ≠ [] := by
      intro hnil
      have hagain := words_intercalate hfields
      rw [hnil] at hagain
      exact hwords hagain.symm
    rw [if_neg hjoin, intercalate_cons hwords]
    simp

theorem trim_collapse_from (text : Text) :
    trim (collapse text) = List.intercalate [' '] (words text) ∧
      ∀ word : Text, word ≠ [] → (∀ c ∈ word, isBlank c = false) →
        dropEnd isBlank (word.reverse ++ collapse text) =
          List.intercalate [' '] (wordsFrom word text) := by
  -- An unfinished word in front of the text is part of the induction: the first character of a
  -- field is trimmed with the blanks before it, but the others with it in front.
  induction text with
  | nil =>
    refine ⟨rfl, fun word hne hsolid => ?_⟩
    simp [collapse, wordsFrom, hne, dropEnd_field hsolid]
  | cons c cs ih =>
    obtain ⟨htrim, hword⟩ := ih
    cases hc : isBlank c with
    | true =>
      rw [collapse_blank_eq hc]
      refine ⟨?_, fun word hne hsolid => ?_⟩
      · rw [words, wordsFrom_blank hc, trim, dropEnds,
          List.dropWhile_cons_of_pos (show isBlank ' ' = true from rfl),
          List.dropWhile_idempotent]
        exact htrim
      · rw [wordsFrom_blank hc, if_neg (by simpa using hne)]
        exact dropEnd_field_append hsolid htrim
    | false =>
      rw [collapse_solid hc]
      refine ⟨?_, fun word hne hsolid => ?_⟩
      · rw [trim, dropEnds, List.dropWhile_cons_of_neg (by simp [hc]), words, wordsFrom_solid hc]
        exact hword [c] (by simp) (by simpa using hc)
      · rw [wordsFrom_solid hc, List.append_cons, ← List.reverse_cons]
        exact hword (c :: word) (by simp) (List.forall_mem_cons.2 ⟨hc, hsolid⟩)

theorem eq_trim_of_normalize {maxLength : Int} {text normal : Text}
    (h : text.normalize maxLength = .ok normal) :
    normal = trim (collapse text.pointForComma) := by
  rw [normalize] at h
  split at h
  · cases h
  · dsimp only at h
    split at h
    · cases h
    · exact (Except.ok.inj h).symm

theorem normalize_eq {maxLength : Int} {text : Text} (hlength : text.length ≤ maxLength)
    (h : ¬ ∀ c ∈ text, isBlank c = true) :
    text.normalize maxLength =
      .ok (List.intercalate [' '] (text.words.map pointForComma)) := by
  obtain ⟨normal, hnormal, -⟩ := normalize_ok hlength h
  rw [hnormal, eq_trim_of_normalize hnormal, (trim_collapse_from _).1, words_pointForComma]

theorem length_dropEnd_le (p : Char → Bool) (text : Text) :
    (dropEnd p text).length ≤ text.length := by
  calc (dropEnd p text).length
      = (text.reverse.dropWhile p).length := List.length_reverse
    _ ≤ text.reverse.length := List.length_dropWhile_le _ _
    _ = text.length := List.length_reverse

theorem length_collapse_le (text : Text) : (collapse text).length ≤ text.length := by
  induction text with
  | nil => exact Nat.le_refl 0
  | cons c cs ih =>
    cases hc : isBlank c with
    | true =>
      rw [collapse_blank hc]
      exact Nat.succ_le_succ ((List.length_dropWhile_le _ _).trans ih)
    | false =>
      rw [collapse_solid hc]
      exact Nat.succ_le_succ ih

theorem length_normalize_le {maxLength : Int} {text normal : Text}
    (h : text.normalize maxLength = .ok normal) : normal.length ≤ text.length := by
  calc normal.length
      = (trim (collapse text.pointForComma)).length := by rw [eq_trim_of_normalize h]
    _ ≤ ((collapse text.pointForComma).dropWhile isBlank).length := length_dropEnd_le _ _
    _ ≤ (collapse text.pointForComma).length := List.length_dropWhile_le _ _
    _ ≤ text.pointForComma.length := length_collapse_le _
    _ = text.length := List.length_map _

theorem pointForComma_idem (text : Text) :
    text.pointForComma.pointForComma = text.pointForComma := by
  rw [pointForComma, pointForComma, List.map_map]
  refine List.map_congr_left fun c _ => ?_
  by_cases hc : c = ',' <;> simp [hc]

theorem words_eq_nil_of_blank {text : Text} (h : ∀ c ∈ text, isBlank c = true) :
    text.words = [] := by
  induction text with
  | nil => rfl
  | cons c cs ih =>
    obtain ⟨hc, hcs⟩ := List.forall_mem_cons.1 h
    rw [words, wordsFrom_blank hc, ih hcs]
    rfl

theorem normalize_normal {maxLength : Int} {text normal : Text}
    (hlength : text.length ≤ maxLength) (h : ¬ ∀ c ∈ text, isBlank c = true)
    (hnormal : normal = List.intercalate [' '] (text.words.map pointForComma)) :
    normal.normalize maxLength = .ok normal := by
  have hfields : ∀ w ∈ text.words.map pointForComma, IsField w := by
    rw [← words_pointForComma]
    exact isField_of_mem_wordsFrom (by simp)
  have hwords : normal.words = text.words.map pointForComma := by
    rw [hnormal, words_intercalate hfields]
  have hshort : normal.length ≤ maxLength := by
    have hle := length_normalize_le (hnormal ▸ normalize_eq hlength h)
    omega
  have hsolid : ¬ ∀ c ∈ normal, isBlank c = true := by
    intro hblank
    rw [words_eq_nil_of_blank hblank] at hwords
    exact h (blank_of_words_eq_nil (List.map_eq_nil_iff.1 hwords.symm))
  have hpoints : (text.words.map pointForComma).map pointForComma =
      text.words.map pointForComma := by
    rw [List.map_map]
    exact List.map_congr_left fun w _ => pointForComma_idem w
  rw [normalize_eq hshort hsolid, hwords, hpoints, ← hnormal]

def IsLexeme (token : Text) : Prop :=
  token = ['('] ∨ token = [')'] ∨ token.IsWord

instance (token : Text) : Decidable token.IsLexeme :=
  inferInstanceAs (Decidable (_ ∨ _ ∨ _))

theorem not_isBlank_of_isParenthesis {c : Char} (h : isParenthesis c = true) :
    isBlank c = false := by
  simp only [isParenthesis, Bool.or_eq_true, beq_iff_eq] at h
  rcases h with rfl | rfl <;> rfl

theorem Spaced.cons {token : Text} (h : IsLexeme token) {tokens : List Text} {text : Text}
    (hhead : ∀ c ∈ text.head?, isBreak c = true) (htext : Spaced tokens text) :
    Spaced (token :: tokens) (token ++ text) := by
  rcases h with rfl | rfl | hword
  · exact .parenthesis rfl htext
  · exact .parenthesis rfl htext
  · exact .word hword hhead htext

theorem spaced_intercalate {tokens : List Text} (h : ∀ token ∈ tokens, IsLexeme token) :
    Spaced tokens (List.intercalate [' '] tokens) := by
  induction tokens with
  | nil => exact .nil
  | cons token tokens ih =>
    obtain ⟨htoken, htokens⟩ := List.forall_mem_cons.1 h
    by_cases hnil : tokens = []
    · subst hnil
      simpa using Spaced.nil.cons htoken (by simp)
    · rw [intercalate_cons hnil]
      exact (Spaced.blank rfl (ih htokens)).cons htoken (by rintro c ⟨⟩; rfl)

theorem Spaced.flatten_eq {tokens : List Text} {text : Text} (h : Spaced tokens text) :
    tokens.flatten = text.filter fun c => !isBlank c := by
  induction h with
  | nil => rfl
  | blank hc _ ih => rw [List.filter_cons_of_neg (by simp [hc]), ih]
  | parenthesis hc _ ih =>
    rw [List.filter_cons_of_pos (by simp [not_isBlank_of_isParenthesis hc]), List.flatten_cons, ih]
    rfl
  | @word w _ _ hw _ _ ih =>
    have hsolid : w.filter (fun c => !isBlank c) = w := by
      refine List.filter_eq_self.2 fun c hc => ?_
      have hbreak := hw.2 c hc
      rw [isBreak, Bool.or_eq_false_iff] at hbreak
      simp [hbreak.1]
    rw [List.filter_append, hsolid, List.flatten_cons, ih]

def IsMaximal (front token tail : Text) : Prop :=
  token = ['('] ∨ token = [')'] ∨ token.IsWord ∧
    (∀ c ∈ front.getLast?, isBreak c = true) ∧ ∀ c ∈ tail.head?, isBreak c = true

theorem isMaximal_parenthesis {c : Char} (h : isParenthesis c = true) (front tail : Text) :
    IsMaximal front [c] tail := by
  simp only [isParenthesis, Bool.or_eq_true, beq_iff_eq] at h
  rcases h with rfl | rfl
  · exact .inl rfl
  · exact .inr (.inl rfl)

theorem IsMaximal.append {front token tail : Text} (h : IsMaximal front token tail)
    {start : Text} (hstart : front = [] → token.IsWord → ∀ c ∈ start.getLast?, isBreak c = true) :
    IsMaximal (start ++ front) token tail := by
  rcases h with h | h | ⟨hword, hlast, hhead⟩
  · exact .inl h
  · exact .inr (.inl h)
  · refine .inr (.inr ⟨hword, ?_, hhead⟩)
    by_cases hnil : front = []
    · rw [hnil, List.append_nil]
      exact hstart hnil hword
    · rwa [List.getLast?_append_of_ne_nil start hnil]

theorem Spaced.exists_eq_append {before after : List Text} {token text : Text}
    (h : Spaced (before ++ token :: after) text) :
    ∃ front tail, text = front ++ token ++ tail ∧ Spaced before front ∧ Spaced after tail ∧
      IsMaximal front token tail := by
  generalize htokens : before ++ token :: after = tokens at h
  induction h generalizing before with
  | nil => simp at htokens
  | @blank c _ _ hc _ ih =>
    obtain ⟨front, tail, rfl, hfront, htail, htoken⟩ := ih htokens
    have hbreak : isBreak c = true := by simp [isBreak, hc]
    have hmaximal : IsMaximal ([c] ++ front) token tail :=
      htoken.append fun _ _ => by simpa using hbreak
    exact ⟨c :: front, tail, rfl, .blank hc hfront, htail, hmaximal⟩
  | @parenthesis c _ text hc htext ih =>
    cases before with
    | nil =>
      obtain ⟨rfl, rfl⟩ := List.cons.inj htokens
      exact ⟨[], text, rfl, .nil, htext, isMaximal_parenthesis hc _ _⟩
    | cons first before =>
      obtain ⟨rfl, hrest⟩ := List.cons.inj htokens
      obtain ⟨front, tail, rfl, hfront, htail, htoken⟩ := ih hrest
      have hbreak : isBreak c = true := by simp [isBreak, hc]
      have hmaximal : IsMaximal ([c] ++ front) token tail :=
        htoken.append fun _ _ => by simpa using hbreak
      exact ⟨c :: front, tail, rfl, .parenthesis hc hfront, htail, hmaximal⟩
  | @word w _ text hw hhead htext ih =>
    cases before with
    | nil =>
      obtain ⟨rfl, rfl⟩ := List.cons.inj htokens
      exact ⟨[], text, rfl, .nil, htext, .inr (.inr ⟨hw, by simp, hhead⟩)⟩
    | cons first before =>
      obtain ⟨rfl, hrest⟩ := List.cons.inj htokens
      obtain ⟨front, tail, rfl, hfront, htail, htoken⟩ := ih hrest
      have hhead' : ∀ c ∈ front.head?, isBreak c = true := by
        intro c hc
        refine hhead c ?_
        rw [List.append_assoc, Option.mem_def, List.head?_append, Option.mem_def.1 hc]
        rfl
      refine ⟨first ++ front, tail, by simp, .word hw hhead' hfront, htail, ?_⟩
      refine htoken.append fun hnil hword => ?_
      -- two words cannot touch
      obtain ⟨d, word, rfl⟩ := List.exists_cons_of_ne_nil hword.1
      have hbreak : isBreak d = true := hhead d (by rw [hnil]; rfl)
      cases hbreak.symm.trans (hword.2 d List.mem_cons_self)

/-- A line that is neither too long nor blank normalizes to its fields, with points for commas and
single spaces between them, and that normalizes to itself. The lexemes of a text make up the text
without its blanks, and each is a parenthesis or a word that is maximal in the text. Lexemes that
are written with single spaces between them are the lexemes of the text. -/
theorem fields_and_lexemes :
    (∀ (maxLength : Int) (text : Text), text.length ≤ maxLength →
      (¬ ∀ c ∈ text, isBlank c = true) →
        let normal := List.intercalate [' '] (text.words.map pointForComma)
        text.normalize maxLength = .ok normal ∧ normalize maxLength normal = .ok normal) ∧
    (∀ text : Text, text.lexemes.flatten = (text.filter fun c => !isBlank c) ∧
      ∀ before token after, text.lexemes = before ++ token :: after →
        ∃ front tail, text = front ++ token ++ tail ∧ lexemes front = before ∧
          lexemes tail = after ∧ IsMaximal front token tail) ∧
    ∀ tokens : List Text, (∀ token ∈ tokens, token.IsLexeme) →
      lexemes (List.intercalate [' '] tokens) = tokens := by
  refine ⟨?_, fun text => ⟨?_, ?_⟩, ?_⟩
  · intro maxLength text hlength hblank normal
    exact ⟨normalize_eq hlength hblank, normalize_normal hlength hblank rfl⟩
  · exact Spaced.flatten_eq (lexemes_eq_iff.1 rfl)
  · intro before token after h
    obtain ⟨front, tail, htext, hfront, htail, htoken⟩ := (lexemes_eq_iff.1 h).exists_eq_append
    exact ⟨front, tail, htext, hfront.lexemes_eq, htail.lexemes_eq, htoken⟩
  · intro tokens h
    exact (spaced_intercalate h).lexemes_eq

theorem fields_and_lexemes_touching :
    let line : Text := "\t+ 1,5\u00a0 (r\n1 6)".toList
    (line.length ≤ (100 : Int) ∧ (¬ ∀ c ∈ line, isBlank c = true) ∧
        ∀ token ∈ line.lexemes, token.IsLexeme) ∧
      line.normalize 100 = .ok "+ 1.5 (r 1 6)".toList ∧
      line.lexemes = ["+", "1,5", "(", "r", "1", "6", ")"].map String.toList ∧
      (∃ front tail, line = front ++ "1".toList ++ tail ∧
        lexemes front = ["+", "1,5", "(", "r"].map String.toList ∧
        lexemes tail = ["6", ")"].map String.toList ∧ IsMaximal front "1".toList tail) ∧
      lexemes (List.intercalate [' '] line.lexemes) = line.lexemes := by
  intro line
  obtain ⟨hnormal, hlexemes, hagain⟩ := fields_and_lexemes
  have hlength : line.length ≤ (100 : Int) := by decide
  have hblank : ¬ ∀ c ∈ line, isBlank c = true := fun h => absurd (h '+' (by decide)) (by decide)
  have htokens : ∀ token ∈ line.lexemes, token.IsLexeme := by decide
  exact ⟨⟨hlength, hblank, htokens⟩, (hnormal 100 line hlength hblank).1, by decide,
    (hlexemes line).2 _ _ _ (by decide), hagain _ htokens⟩

end PolishCalc.Text
