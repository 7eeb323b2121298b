import PolishCalc.Proofs.Balance

namespace PolishCalc.Text

theorem dropEnd_cons {p : Char → Bool} {c : Char} (h : p c = false) (text : Text) :
    dropEnd p (c :: text) = c :: dropEnd p text := by
  rw [dropEnd, dropEnd, List.reverse_cons, List.dropWhile_append]
  split
  · rename_i hempty
    rw [List.isEmpty_iff.1 hempty]
    simp [h]
  · simp

theorem wordsFrom_of_ne_nil {word : Text} (h : word ≠ []) (text : Text) :
    ∃ later, wordsFrom word text =
      (word.reverse ++ text.takeWhile fun c => !isBlank c) :: later := by
  induction text generalizing word with
  | nil => exact ⟨[], by simp [wordsFrom, h]⟩
  | cons c text ih =>
    cases hc : isBlank c with
    | true => exact ⟨wordsFrom [] text, by simp [wordsFrom, h, hc]⟩
    | false =>
      obtain ⟨later, hlater⟩ := ih (List.cons_ne_nil c word)
      exact ⟨later, by simp [wordsFrom, hc, hlater]⟩

theorem words_cons {c : Char} (h : isBlank c = false) (text : Text) :
    ∃ later, words (c :: text) = (c :: text.takeWhile fun c => !isBlank c) :: later := by
  obtain ⟨later, hlater⟩ := wordsFrom_of_ne_nil (List.cons_ne_nil c []) text
  refine ⟨later, ?_⟩
  rw [words, wordsFrom, if_neg (by simp [h]), hlater]
  rfl

theorem blank_of_words_eq_nil {text : Text} (h : text.words = []) :
    ∀ c ∈ text, isBlank c = true := by
  induction text with
  | nil => simp
  | cons c text ih =>
    cases hc : isBlank c with
    | true => exact List.forall_mem_cons.2 ⟨hc, ih (by simpa [words, wordsFrom, hc] using h)⟩
    | false =>
      obtain ⟨later, hlater⟩ := words_cons hc text
      cases hlater.symm.trans h

theorem mem_trim {c : Char} (hc : isBlank c = false) {text : Text} (h : c ∈ text) :
    c ∈ text.trim := by
  obtain ⟨tail, htail, heq⟩ := exists_eq_dropEnd_append isBlank (text.dropWhile isBlank)
  rw [← List.takeWhile_append_dropWhile (p := isBlank) (l := text), heq] at h
  rcases List.mem_append.1 h with h | h
  · simp [List.mem_takeWhile_imp h] at hc
  rcases List.mem_append.1 h with h | h
  · exact h
  · simp [htail c h] at hc

theorem exists_of_lexemes_cons {c : Char} (hc : isBreak c = false) {text : Text}
    {words : List Text} (h : Spaced ([c] :: words) text) :
    ∃ blanks rest, text = blanks ++ c :: rest ∧ (∀ b ∈ blanks, isBlank b = true) ∧
      ∀ d ∈ rest.head?, isBreak d = true := by
  generalize hwords : [c] :: words = all at h
  induction h with
  | nil => cases hwords
  | @blank b _ _ hb _ ih =>
    obtain ⟨blanks, rest, rfl, hblanks, hrest⟩ := ih hwords
    exact ⟨b :: blanks, rest, rfl, List.forall_mem_cons.2 ⟨hb, hblanks⟩, hrest⟩
  | parenthesis hparenthesis =>
    cases hwords
    simp [isBreak, hparenthesis] at hc
  | @word _ _ text _ hhead =>
    cases hwords
    exact ⟨[], text, rfl, by simp, hhead⟩

theorem isBreak_pointForComma (c : Char) :
    isBreak (if c == ',' then '.' else c) = isBreak c := by
  split
  · rename_i hc
    rw [beq_iff_eq.1 hc]
    rfl
  · rfl

theorem eq_symbol_of_pointForComma {c : Char} {op : Operator}
    (h : (if c == ',' then '.' else c) = op.symbol) : c = op.symbol := by
  split at h
  · cases op <;> simp [Operator.symbol] at h
  · exact h

theorem isBreak_symbol (op : Operator) : isBreak op.symbol = false := by
  cases op <;> rfl

theorem words_trim_of_operator {raw : Text} {op : Operator}
    (h : (Token.ofLine raw.pointForComma).head? = some (.operator op)) :
    ∃ tail later, raw.trim.words = (op.symbol :: tail) :: later ∧
      ∀ d ∈ tail.head?, isParenthesis d = true := by
  have hsymbol := isBreak_symbol op
  have hblank : isBlank op.symbol = false := (Bool.or_eq_false_iff.1 hsymbol).1
  obtain ⟨word, words, hlexemes, hword⟩ : ∃ word words,
      raw.pointForComma.lexemes = word :: words ∧ Token.ofText word = .operator op := by
    cases hlexemes : raw.pointForComma.lexemes with
    | nil => simp [Token.ofLine, hlexemes] at h
    | cons word words => exact ⟨word, words, rfl, by simpa [Token.ofLine, hlexemes] using h⟩
  obtain rfl : [op.symbol] = word := by
    rw [← Token.text_ofText word, hword]
    rfl
  obtain ⟨_, _, htext, hblanks, hrest⟩ := exists_of_lexemes_cons hsymbol (lexemes_eq_iff.1 hlexemes)
  obtain ⟨blanks, text, rfl, rfl, hsolid⟩ := List.map_eq_append_iff.1 htext
  obtain ⟨c, rest, rfl, hc, rfl⟩ := List.map_eq_cons_iff.1 hsolid
  obtain rfl := eq_symbol_of_pointForComma hc
  have hhead : ∀ d ∈ rest.head?, isBreak d = true := fun d hd =>
    isBreak_pointForComma d ▸ hrest _ (by simp [Option.mem_def.1 hd])
  -- Trimming drops the blanks in front and some at the end.
  have htrim : trim (blanks ++ op.symbol :: rest) = op.symbol :: dropEnd isBlank rest := by
    rw [trim, dropEnds, List.dropWhile_append_of_pos (blank_pointForComma.1 hblanks),
      List.dropWhile_cons_of_neg (by simp [hblank]), dropEnd_cons hblank]
  obtain ⟨later, hlater⟩ := words_cons hblank (dropEnd isBlank rest)
  refine ⟨_, later, htrim ▸ hlater, ?_⟩
  obtain ⟨tail, -, heq⟩ := exists_eq_dropEnd_append isBlank rest
  cases hdrop : dropEnd isBlank rest with
  | nil => simp
  | cons d front =>
    rw [hdrop] at heq
    have hd : isBreak d = true := hhead d (by rw [heq]; rfl)
    cases hb : isBlank d with
    | true => simp [hb]
    | false => simpa [hb, isBreak] using hd

structure Trimmed (text : Text) : Prop where
  head : ∀ c ∈ text.head?, isBlank c = false
  last : ∀ c ∈ text.getLast?, isBlank c = false

theorem dropEnd_eq_self {p : Char → Bool} {text : Text} (h : ∀ c ∈ text.getLast?, p c = false) :
    dropEnd p text = text := by
  rw [← List.head?_reverse] at h
  rw [dropEnd]
  cases hreverse : text.reverse with
  | nil => simpa using hreverse
  | cons c front =>
    have hc : p c = false := h c (by rw [hreverse]; rfl)
    rw [List.dropWhile_cons_of_neg (by simp [hc]), ← hreverse, List.reverse_reverse]

theorem eq_false_of_head?_dropWhile {p : Char → Bool} {text : Text} {c : Char}
    (h : c ∈ (text.dropWhile p).head?) : p c = false := by
  have hnot := List.head?_dropWhile_not p text
  rwa [Option.mem_def.1 h] at hnot

theorem Trimmed.trim_eq {text : Text} (h : text.Trimmed) : text.trim = text := by
  have hfront : text.dropWhile isBlank = text := by
    cases text with
    | nil => rfl
    | cons c text => exact List.dropWhile_cons_of_neg (by simp [h.head c rfl])
  rw [trim, dropEnds, hfront, dropEnd_eq_self h.last]

theorem trimmed_append {c : Char} (hc : isBlank c = false) (front : Text) {text : Text}
    (hne : text ≠ []) (htext : ∀ d ∈ text, isBlank d = false) : Trimmed (c :: front ++ text) where
  head := by
    rintro d ⟨⟩
    exact hc
  last := by
    intro d hd
    rw [Option.mem_def, List.getLast?_append, List.getLast?_eq_some_getLast hne] at hd
    obtain rfl := Option.some.inj hd
    exact htext _ (List.getLast_mem hne)

theorem trimmed_trim (text : Text) : text.trim.Trimmed where
  head := by
    intro c hc
    obtain ⟨tail, -, heq⟩ := exists_eq_dropEnd_append isBlank (text.dropWhile isBlank)
    have hfirst : (dropEnd isBlank (text.dropWhile isBlank)).head? = some c := hc
    have hmem : c ∈ (text.dropWhile isBlank).head? := by
      rw [heq, List.head?_append, hfirst]
      rfl
    exact eq_false_of_head?_dropWhile hmem
  last := by
    intro c hc
    rw [trim, dropEnds, dropEnd, List.getLast?_reverse] at hc
    exact eq_false_of_head?_dropWhile hc

theorem Trimmed.closeParentheses {text : Text} (h : text.Trimmed) :
    text.closeParentheses.Trimmed := by
  rw [Text.closeParentheses]
  split
  · exact h
  rename_i hmissing
  rw [trimEnd, dropEnd_eq_self h.last]
  cases text with
  | nil => exact absurd rfl hmissing
  | cons c text =>
    refine ⟨fun d hd => h.head d hd, fun d hd => ?_⟩
    rw [List.getLast?_append, List.getLast?_replicate, if_neg hmissing] at hd
    cases hd
    rfl

theorem Balanced.closeParentheses_eq {text : Text} (h : text.Balanced) :
    text.closeParentheses = text := by
  rw [closeParentheses, if_pos (Nat.sub_eq_zero_of_le h.2.ge)]

end PolishCalc.Text
