import PolishCalc.Expression.Alphabet
import PolishCalc.Proofs.Acceptance
import PolishCalc.Proofs.Reset

namespace PolishCalc

def isLiteralChar (c : Char) : Bool :=
  isDecimalDigit c || c == '+' || c == '-' || c == '.' || c == 'e' || c == 'E'

namespace Literal

variable {c : Char} {text rest : Text}

theorem mem_readSign (h : c ∈ text) : isLiteralChar c = true ∨ c ∈ (readSign text).2 := by
  unfold readSign
  split
  · rcases List.mem_cons.1 h with rfl | hc
    · exact .inl rfl
    · exact .inr hc
  · rcases List.mem_cons.1 h with rfl | hc
    · exact .inl rfl
    · exact .inr hc
  · exact .inr h

theorem mem_spanDigits (h : c ∈ text) : isLiteralChar c = true ∨ c ∈ (Text.spanDigits text).2 := by
  induction text with
  | nil => cases h
  | cons d cs ih =>
    rw [Text.spanDigits]
    split
    · rename_i n hn
      rcases List.mem_cons.1 h with rfl | hc
      · exact .inl (by simp [isLiteralChar, isDecimalDigit, hn])
      · exact ih hc
    · exact .inr h

theorem mem_readFraction (h : c ∈ text) : isLiteralChar c = true ∨ c ∈ (readFraction text).2 := by
  unfold readFraction
  split
  · rcases List.mem_cons.1 h with rfl | hc
    · exact .inl rfl
    · exact mem_spanDigits hc
  · exact .inr h

theorem mem_readExponent? {exponent : Int} (hread : readExponent? text = some (exponent, rest))
    (h : c ∈ text) : isLiteralChar c = true ∨ c ∈ rest := by
  cases text with
  | nil => cases h
  | cons d cs =>
    rw [readExponent?] at hread
    split at hread
    · rename_i hmark
      dsimp only at hread
      split at hread
      · cases hread
      · cases hread
        rcases List.mem_cons.1 h with rfl | hc
        · refine .inl ?_
          rcases Bool.or_eq_true_iff.1 hmark with hmark | hmark <;> rw [beq_iff_eq.1 hmark] <;> rfl
        · exact (mem_readSign hc).elim .inl mem_spanDigits
    · cases hread
      exact .inr h

theorem mem_readStart? {literal : Literal} (hread : readStart? text = some (literal, rest))
    (h : c ∈ text) : isLiteralChar c = true ∨ c ∈ rest := by
  rw [readStart?] at hread
  dsimp only at hread
  split at hread
  · cases hread
  · obtain ⟨⟨exponent, rest'⟩, hexponent, heq⟩ := Option.map_eq_some_iff.1 hread
    obtain rfl : rest' = rest := (Prod.mk.inj heq).2
    rcases mem_readSign h with hc | hc
    · exact .inl hc
    rcases mem_spanDigits hc with hc | hc
    · exact .inl hc
    rcases mem_readFraction hc with hc | hc
    · exact .inl hc
    · exact mem_readExponent? hexponent hc

theorem isLiteralChar_of_read? {literal : Literal} (hread : read? text = some literal)
    (h : c ∈ text) (hblank : isBlank c = false) : isLiteralChar c = true := by
  rw [read?] at hread
  split at hread
  · rename_i hstart
    exact (mem_readStart? hstart h).resolve_right (by simp)
  · rename_i hstart
    refine (mem_readStart? hstart h).resolve_right fun hend => ?_
    rw [List.mem_singleton.1 hend] at hblank
    cases hblank
  · cases hread

end Literal

/-- A character that a line may have although it is not published: the capital exponent mark, or a
decimal digit of another script. -/
def IsUnpublished (c : Char) : Prop :=
  c = 'E' ∨ (isDecimalDigit c = true ∧ c.isDigit = false)

instance : DecidablePred IsUnpublished := fun c =>
  inferInstanceAs (Decidable (c = 'E' ∨ (isDecimalDigit c = true ∧ c.isDigit = false)))

theorem mem_usedSymbols_of_constant {name : Text} (h : name ∈ constantNames) :
    ∀ c ∈ name, c ∈ usedSymbols := fun c hc => by
  simp only [usedSymbols, List.mem_append]
  exact .inl (.inl (.inr (List.mem_flatten.2 ⟨name, h, hc⟩)))

theorem mem_usedSymbols_of_isDigit {c : Char} (h : c.isDigit = true) : c ∈ usedSymbols := by
  obtain ⟨hlow, hhigh⟩ := Char.isDigit_iff_toNat.1 h
  simp only [Char.reduceToNat] at hlow hhigh
  have hall : ∀ k < 10, Char.ofNat (48 + k) ∈ usedSymbols := by decide
  have hc := hall (c.toNat - 48) (by omega)
  rwa [Nat.add_sub_cancel' hlow, Char.ofNat_toNat] at hc

theorem mem_usedSymbols_of_token {token : Token} (h : ∀ text, token ≠ .operand text) :
    ∀ c ∈ token.text, c ∈ usedSymbols := by
  cases token with
  | opening => exact List.forall_mem_singleton.2 (by decide)
  | closing => exact List.forall_mem_singleton.2 (by decide)
  | operator op => exact List.forall_mem_singleton.2 (by cases op <;> decide)
  | operand text => exact absurd rfl (h text)

theorem used_of_isLiteralChar {c : Char} (h : isLiteralChar c = true) :
    c ∈ usedSymbols ∨ IsUnpublished c := by
  simp only [isLiteralChar, Bool.or_eq_true, beq_iff_eq] at h
  rcases h with ((((hdigit | rfl) | rfl) | rfl) | rfl) | rfl
  · cases hascii : c.isDigit with
    | true => exact .inl (mem_usedSymbols_of_isDigit hascii)
    | false => exact .inr (.inr ⟨hdigit, hascii⟩)
  · exact .inl (by decide)
  · exact .inl (by decide)
  · exact .inl (by decide)
  · exact .inl (by decide)
  · exact .inr (.inl rfl)

theorem Denotes.used {text : Text} (h : Denotes text) {c : Char} (hc : c ∈ text)
    (hblank : isBlank c = false) : c ∈ usedSymbols ∨ IsUnpublished c := by
  rcases h with hname | hnumber
  · exact .inl (mem_usedSymbols_of_constant hname c hc)
  · rw [Double.readOperand?] at hnumber
    split at hnumber
    · rename_i literal hread
      exact used_of_isLiteralChar (Literal.isLiteralChar_of_read? hread hc hblank)
    · cases hnumber

namespace Text

theorem Spaced.mem_text {words : List Text} {text : Text} (h : Spaced words text) {c : Char}
    (hc : c ∈ text) : isBlank c = true ∨ ∃ word ∈ words, c ∈ word := by
  induction h with
  | nil => cases hc
  | blank hb _ ih =>
    rcases List.mem_cons.1 hc with rfl | hc
    · exact .inl hb
    · exact ih hc
  | @parenthesis d words text _ _ ih =>
    rcases List.mem_cons.1 hc with rfl | hc
    · exact .inr ⟨[c], by simp, by simp⟩
    · exact (ih hc).imp_right fun ⟨lexeme, hmem, hc⟩ => ⟨lexeme, by simp [hmem], hc⟩
  | @word w words text _ _ _ ih =>
    rcases List.mem_append.1 hc with hc | hc
    · exact .inr ⟨w, by simp, hc⟩
    · exact (ih hc).imp_right fun ⟨lexeme, hmem, hc⟩ => ⟨lexeme, by simp [hmem], hc⟩

theorem forall_mem_lexemes {p : Char → Prop} {text : Text} :
    (∀ c ∈ text.lexemes.flatten, p c) ↔ ∀ c ∈ text, isBlank c = true ∨ p c := by
  have hspaced : Spaced text.lexemes text := lexemes_eq_iff.1 rfl
  constructor
  · intro h c hc
    exact (hspaced.mem_text hc).imp_right fun ⟨word, hword, hc⟩ =>
      h c (List.mem_flatten.2 ⟨word, hword, hc⟩)
  · intro h c hc
    obtain ⟨word, hword, hc⟩ := List.mem_flatten.1 hc
    obtain ⟨hkind, hsubset⟩ := hspaced.mem word hword
    refine (h c (hsubset hc)).resolve_left fun hblank => ?_
    rcases hkind with ⟨d, hd, rfl⟩ | hkind
    · rw [List.mem_singleton.1 hc] at hblank
      rw [blank_xor_parenthesis hblank] at hd
      cases hd
    · have hbreak := hkind.2 c hc
      rw [isBreak, hblank] at hbreak
      cases hbreak

theorem inOrder_eq_nil_iff {cs : List Char} : inOrder cs = [] ↔ cs = [] := by
  simp [inOrder, List.eq_nil_iff_forall_not_mem]

theorem validate_eq_none_iff {maxLength : Int} {line : Text} (hlength : line.length ≤ maxLength)
    (hblank : ¬ ∀ c ∈ line, isBlank c = true) :
    line.validate maxLength = none ↔ ∀ c ∈ line, isBlank c = true ∨ c ∈ usedSymbols := by
  obtain ⟨normal, hnormal, hlexemes⟩ := normalize_ok hlength hblank
  have hused : (isBlank '.' = true ∨ '.' ∈ usedSymbols) ↔
      (isBlank ',' = true ∨ ',' ∈ usedSymbols) :=
    iff_of_true (.inr (by decide)) (.inr (by decide))
  rw [← forall_mem_pointForComma hused, ← forall_mem_lexemes, ← hlexemes]
  have hfilter : inOrder (normal.lexemes.flatten.filter fun c => !usedSymbols.contains c) = [] ↔
      ∀ c ∈ normal.lexemes.flatten, c ∈ usedSymbols := by
    rw [inOrder_eq_nil_iff, List.filter_eq_nil_iff]
    exact forall₂_congr fun c _ => by simp
  rw [← hfilter, validate, hnormal]
  dsimp only
  split
  · rename_i hnil
    exact iff_of_true rfl hnil
  · rename_i hne
    exact iff_of_false nofun hne

end Text

theorem used_of_evaluateLine {rules : Rules} {memory : Memory} {line : Text}
    {reduced : Double × Memory} (h : evaluateLine rules memory line = .ok reduced) :
    ∀ c ∈ line, isBlank c = true ∨ c ∈ usedSymbols ∨ IsUnpublished c := by
  obtain ⟨t, ht, hs, -⟩ := exists_accepted_of_evaluateLine h
  have hpoint : (isBlank '.' = true ∨ '.' ∈ usedSymbols ∨ IsUnpublished '.') ↔
      (isBlank ',' = true ∨ ',' ∈ usedSymbols ∨ IsUnpublished ',') :=
    iff_of_true (.inr (.inl (by decide))) (.inr (.inl (by decide)))
  rw [← Text.forall_mem_pointForComma hpoint]
  intro c hc
  cases hblank : isBlank c with
  | true => exact .inl rfl
  | false =>
    refine .inr ?_
    obtain ⟨word, hword, hc⟩ := (hs.mem_text hc).resolve_left (by simp [hblank])
    obtain ⟨token, htoken, rfl⟩ := List.mem_map.1 hword
    by_cases hoperand : ∃ text, token = .operand text
    · obtain ⟨text, rfl⟩ := hoperand
      exact (ht.denotes text htoken).used hc hblank
    · exact .inl (mem_usedSymbols_of_token (fun text htext => hoperand ⟨text, htext⟩) c hc)

theorem validate_of_evaluateLine {rules : Rules} {memory : Memory} {line : Text}
    {reduced : Double × Memory} (h : evaluateLine rules memory line = .ok reduced) :
    line.validate rules.maxLength = none ↔ ∀ c ∈ line, isBlank c = true ∨ c ∈ usedSymbols := by
  cases hread : readLine rules.maxLength line with
  | error error => simp [evaluateLine, hread] at h
  | ok tokens =>
    obtain ⟨hlength, hblank, -⟩ := readLine_eq_ok_iff.1 hread
    exact Text.validate_eq_none_iff hlength hblank

theorem ne_of_digitValue? {c d : Char} {n : Nat} (h : digitValue? c = some n)
    (hd : digitValue? d = none) : c ≠ d := by
  rintro rfl
  rw [h] at hd
  cases hd

theorem isBlank_of_digitValue? {c : Char} {n : Nat} (h : digitValue? c = some n) :
    isBlank c = false := by
  obtain ⟨z, hfind, -⟩ := Option.map_eq_some_iff.1 h
  have hz := List.find?_some hfind
  have hgap : ∀ z ∈ zeroDigits, (33 ≤ z ∧ z + 10 ≤ 0x85) ∨ (0xA1 ≤ z ∧ z + 10 ≤ 0x1680) ∨
      (0x1681 ≤ z ∧ z + 10 ≤ 0x2000) ∨ 0x3001 ≤ z := by decide
  have hbetween := hgap z (List.mem_of_find?_eq_some hfind)
  simp only [Bool.and_eq_true, decide_eq_true_eq] at hz
  simp [isBlank]
  omega

theorem IsUnpublished.isBlank_eq_false {c : Char} (h : IsUnpublished c) : isBlank c = false := by
  rcases h with rfl | ⟨hdigit, -⟩
  · rfl
  · obtain ⟨n, hn⟩ := Option.isSome_iff_exists.1 hdigit
    exact isBlank_of_digitValue? hn

theorem IsUnpublished.not_used {c : Char} (h : IsUnpublished c) : c ∉ usedSymbols := by
  have hdigits : (usedSymbols.all fun c => !isDecimalDigit c || c.isDigit) = true := by decide
  rcases h with rfl | ⟨hdigit, hascii⟩
  · decide
  · intro hused
    have := List.all_eq_true.1 hdigits c hused
    simp [hdigit, hascii] at this

theorem isOperand_digit {c : Char} {n : Nat} (h : digitValue? c = some n) : IsOperand [c] := by
  have hparenthesis : Text.isParenthesis c = false := by
    simp [Text.isParenthesis, ne_of_digitValue? h (show digitValue? '(' = none by decide),
      ne_of_digitValue? h (show digitValue? ')' = none by decide)]
  refine ⟨⟨by simp, ?_⟩, ?_, ?_⟩
  · simp [Text.isBreak, isBlank_of_digitValue? h, hparenthesis]
  · simpa using (ne_of_digitValue? h (show digitValue? ',' = none by decide)).symm
  · refine List.find?_eq_none.2 fun op _ hsymbol => ?_
    refine ne_of_digitValue? h ?_ (beq_iff_eq.1 hsymbol).symm
    cases op <;> decide

theorem exists_readOperand?_digit {c : Char} {n : Nat} (h : digitValue? c = some n) :
    ∃ x, Double.readOperand? [c] = some x := by
  have hsign : Literal.readSign [c] = (false, [c]) := by
    unfold Literal.readSign
    split
    · rename_i heq
      exact absurd (List.cons.inj heq).1 (ne_of_digitValue? h (by decide))
    · rename_i heq
      exact absurd (List.cons.inj heq).1 (ne_of_digitValue? h (by decide))
    · rfl
  have hread : Literal.read? [c] = some ⟨false, [n], [], 0⟩ := by
    simp [Literal.read?, Literal.readStart?, hsign, Text.spanDigits, h, Literal.readFraction,
      Literal.readExponent?]
  have hfinite : ∀ n < 10, (Literal.toDouble ⟨false, [n], [], 0⟩).isFinite = true := by
    decide +kernel
  exact ⟨_, by rw [Double.readOperand?, hread]; exact if_pos (hfinite n (digitValue?_lt h))⟩

theorem operandValue?_number {answer x : Double} {text : Text} (hname : text ∉ constantNames)
    (h : Double.readOperand? text = some x) : operandValue? answer text = some x := by
  have hnone : constant? answer text = none := by
    rw [← Option.not_isSome_iff_eq_none, isSome_constant?]
    exact hname
  rw [operandValue?, hnone, Option.none_or, h]

def sumTree (word : Text) : Tree :=
  ⟨.add, .word ['0'] (.word word .empty)⟩

theorem exists_evaluate_sumTree {rules : Rules} (hdepth : 1 ≤ rules.maxDepth) {word : Text}
    (hname : word ∉ constantNames) {x : Double} (h : Double.readOperand? word = some x)
    (memory : Memory) : ∃ reduced, (sumTree word).evaluate rules memory = .ok reduced := by
  have hzero : operandValue? memory.answer ['0'] = some .zero :=
    operandValue?_number (by decide) (by decide +kernel)
  have hfinite := Double.isFinite_dropZeroSign (isFinite_of_readOperand? h)
  have hsum : Operator.add.compute .zero (.double x) = .ok x.dropZeroSign :=
    congrArg Except.ok (Double.zero_add (isFinite_of_readOperand? h))
  obtain ⟨y, hround, -⟩ := Double.exists_roundAt rules.digits hfinite
  have hreduce := Pending.reduce_pair rules (by decide) hsum hfinite hround memory
  refine ⟨(y, memory.record memory.requests ⟨.add, [.zero, x], y⟩), ?_⟩
  rw [Tree.evaluate, if_neg (by omega)]
  simp only [sumTree, Operands.collect, hzero, operandValue?_number hname h]
  exact hreduce

theorem exists_evaluateLine_sum {rules : Rules} (hdepth : 1 ≤ rules.maxDepth) {word : Text}
    (hword : IsOperand word) (hname : word ∉ constantNames) {x : Double}
    (h : Double.readOperand? word = some x) (hlength : (word.length + 4 : Nat) ≤ rules.maxLength)
    (memory : Memory) :
    ∃ reduced, evaluateLine rules memory ("+ 0 ".toList ++ word) = .ok reduced := by
  have hwell : (sumTree word).WellFormed := ⟨nofun, by decide, hword, trivial⟩
  have hspaced : Text.Spaced (sumTree word).words ("+ 0 ".toList ++ word) := by
    have hlast := Text.Spaced.word hword.1 (by simp) .nil
    rw [List.append_nil] at hlast
    have hlexemes : Text.lexemes ("+ 0 ".toList ++ word) = [['+'], ['0']] ++ word.lexemes := rfl
    rw [hlast.lexemes_eq] at hlexemes
    exact Text.lexemes_eq_iff.1 hlexemes
  have hpoint := hwell.pointForComma_eq_self hspaced
  have hshort : ("+ 0 ".toList ++ word).length ≤ rules.maxLength := by
    rw [List.length_append, Nat.add_comm]
    exact hlength
  obtain ⟨reduced, hreduced⟩ := exists_evaluate_sumTree hdepth hname h memory
  rw [hwell.grammatical.evaluateLine_eq (hpoint.symm ▸ hspaced) hshort]
  exact ⟨reduced, hreduced⟩

theorem exists_evaluateLine_mem {rules : Rules} (hdepth : 1 ≤ rules.maxDepth)
    (hlength : 7 ≤ rules.maxLength) (memory : Memory) {c : Char} (h : IsUnpublished c) :
    ∃ line reduced, c ∈ line ∧ evaluateLine rules memory line = .ok reduced := by
  rcases h with rfl | ⟨hdigit, -⟩
  · have hoperand : IsOperand "0E0".toList := by decide
    have hread : Double.readOperand? "0E0".toList = some .zero := by decide +kernel
    obtain ⟨reduced, hreduced⟩ :=
      exists_evaluateLine_sum hdepth hoperand (by decide) hread hlength memory
    exact ⟨_, reduced, by decide, hreduced⟩
  · obtain ⟨n, hn⟩ := Option.isSome_iff_exists.1 hdigit
    obtain ⟨x, hx⟩ := exists_readOperand?_digit hn
    have hname : [c] ∉ constantNames := by
      have hne := ne_of_digitValue? hn Text.digitValue?_exponent
      simp [constantNames, answerName, fixedConstants, hne]
    have hshort : ([c].length + 4 : Nat) ≤ rules.maxLength := by
      rw [List.length_singleton]
      omega
    obtain ⟨reduced, hreduced⟩ :=
      exists_evaluateLine_sum hdepth (isOperand_digit hn) hname hx hshort memory
    exact ⟨_, reduced, by simp, hreduced⟩

namespace Session

/-- The characters of lines that evaluate are the blanks, the published characters and the
unpublished ones; such a line is found valid exactly if it has none of the last. Where a line may
have seven characters, each of them occurs in a line that evaluates. -/
theorem characters_of_evaluated (settings : Settings) (source : Source) (s : Session)
    (traced : Bool) (precision maxDepth : Option Int) :
    let outcome := fun line =>
      s.outcome settings source line traced (.ofPrecision precision) maxDepth
    (∀ line x after, outcome line = .ok (x, after) →
      (∀ c ∈ line, isBlank c = true ∨ c ∈ usedSymbols ∨ IsUnpublished c) ∧
      (line.validate settings.maxInputLength = none ↔ ∀ c ∈ line, ¬ IsUnpublished c)) ∧
    (7 ≤ settings.maxInputLength → 1 ≤ maxDepth.getD settings.maxExpressionDepth →
      ∀ c, IsUnpublished c → ∃ line x after, c ∈ line ∧ outcome line = .ok (x, after)) := by
  dsimp only
  simp only [outcome_eq]
  constructor
  · intro line x after h
    have hused := used_of_evaluateLine h
    refine ⟨hused, (validate_of_evaluateLine h).trans ?_⟩
    refine forall₂_congr fun c hc => ⟨?_, ?_⟩
    · rintro hknown hunpublished
      rcases hknown with hblank | hpublished
      · simp [hunpublished.isBlank_eq_false] at hblank
      · exact hunpublished.not_used hpublished
    · intro hpublished
      exact (hused c hc).imp_right fun h => h.resolve_right hpublished
  · intro hlength hdepth c hc
    have hrules : 7 ≤ (s.rules settings source precision maxDepth).maxLength := hlength
    obtain ⟨line, ⟨x, after⟩, hmem, hline⟩ :=
      exists_evaluateLine_mem hdepth hrules (s.memory traced)
      hc
    exact ⟨line, x, after, hmem, hline⟩

theorem characters_of_evaluated_usual :
    let outcome := fun line =>
      (fresh .usual).outcome .usual .lowest line false (.ofPrecision none) none
    let line : Text := "+ 1 2".toList
    line.validate Settings.usual.maxInputLength = none ∧
      ∃ line x after, 'E' ∈ line ∧ outcome line = .ok (x, after) := by
  dsimp only
  obtain ⟨hline, hunpublished⟩ :=
    characters_of_evaluated .usual .lowest (fresh .usual) false none none
  refine ⟨?_, hunpublished (by decide) (by decide) 'E' (.inl rfl)⟩
  have hpublished : ("+ 1 2".toList.all fun c => !decide (IsUnpublished c)) = true := by decide
  have hresult : Outcome.result ((fresh .usual).outcome .usual .lowest "+ 1 2".toList false
      (.ofPrecision none) none) = .ok (.ofNat 3) := by
    decide +kernel
  obtain ⟨after, houtcome⟩ := Outcome.result_eq_ok hresult
  refine (hline _ _ after houtcome).2.2 fun c hc => ?_
  simpa using List.all_eq_true.1 hpublished c hc

theorem characters_of_evaluated_exponent :
    let outcome := fun line =>
      (fresh .usual).outcome .usual .lowest line false (.ofPrecision none) none
    let line : Text := "+ 1E2 1".toList
    Outcome.result (outcome line) = .ok (.ofNat 101) ∧
      line.validate Settings.usual.maxInputLength = some "Unsupported characters: E".toList := by
  decide +kernel

end Session

end PolishCalc
