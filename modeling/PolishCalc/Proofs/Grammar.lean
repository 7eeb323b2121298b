import PolishCalc.Expression.Tree
import PolishCalc.Proofs.Balance

namespace PolishCalc

def IsOperand (text : Text) : Prop :=
  text.IsWord ∧ ',' ∉ text ∧ Operator.ofText? text = none

instance (text : Text) : Decidable (IsOperand text) :=
  inferInstanceAs (Decidable (_ ∧ _))

namespace Operands

def WellFormed : Operands → Prop
  | .empty => True
  | .word text rest => IsOperand text ∧ rest.WellFormed
  | .group _ inner rest => inner ≠ .empty ∧ inner.WellFormed ∧ rest.WellFormed
  | .chain _ inner => inner ≠ .empty ∧ inner.WellFormed

instance decidableWellFormed : (operands : Operands) → Decidable operands.WellFormed
  | .empty => inferInstanceAs (Decidable True)
  | .word text rest =>
    have := decidableWellFormed rest
    inferInstanceAs (Decidable (IsOperand text ∧ rest.WellFormed))
  | .group _ inner rest =>
    have := decidableWellFormed inner
    have := decidableWellFormed rest
    inferInstanceAs (Decidable (inner ≠ .empty ∧ inner.WellFormed ∧ rest.WellFormed))
  | .chain _ inner =>
    have := decidableWellFormed inner
    inferInstanceAs (Decidable (inner ≠ .empty ∧ inner.WellFormed))

end Operands

namespace Tree

def WellFormed (t : Tree) : Prop :=
  t.operands ≠ .empty ∧ t.operands.WellFormed

instance (t : Tree) : Decidable t.WellFormed :=
  inferInstanceAs (Decidable (_ ∧ _))

def Grammatical (t : Tree) : Prop :=
  ∀ text, .operand text ∈ t.tokens → IsOperand text

def words (t : Tree) : List Text :=
  t.tokens.map Token.text

end Tree

namespace Token

def spell (tokens : List Token) : Text :=
  tokens.flatMap text

@[simp] theorem spell_cons (token : Token) (tokens : List Token) :
    spell (token :: tokens) = token.text ++ spell tokens := rfl

theorem ofText_symbol (op : Operator) : ofText [op.symbol] = operator op := by
  cases op <;> rfl

theorem ofText_operand {text : Text} (h : IsOperand text) : ofText text = operand text := by
  have hne : ∀ c, Text.isParenthesis c = true → text ≠ [c] := by
    rintro c hc rfl
    have := h.1.2 c (by simp)
    simp [Text.isBreak, hc] at this
  simp [ofText, hne, h.2.2, Text.isParenthesis]

theorem ofText_text {token : Token} (h : ∀ text, token = operand text → IsOperand text) :
    ofText token.text = token := by
  cases token with
  | opening => rfl
  | closing => rfl
  | operator op => exact ofText_symbol op
  | operand text => exact ofText_operand (h text rfl)

end Token

theorem not_parenthesis_symbol (op : Operator) :
    ∀ c ∈ [op.symbol], Text.isParenthesis c = false := by
  cases op <;> simp [Operator.symbol, Text.isParenthesis]

namespace Token

@[simp] theorem closes_spell_operator {depth : Nat} {op : Operator} {tokens : List Token} :
    Text.Closes depth (spell (.operator op :: tokens)) ↔ Text.Closes depth (spell tokens) :=
  Text.closes_append (not_parenthesis_symbol op)

@[simp] theorem closes_spell_opening {depth : Nat} {tokens : List Token} :
    Text.Closes depth (spell (.opening :: tokens)) ↔ Text.Closes (depth + 1) (spell tokens) :=
  Text.closes_opening

@[simp] theorem closes_spell_closing {depth : Nat} {tokens : List Token} :
    Text.Closes depth (spell (.closing :: tokens)) ↔
      0 < depth ∧ Text.Closes (depth - 1) (spell tokens) :=
  Text.closes_closing

theorem closes_spell_operand {depth : Nat} {text : Text} {tokens : List Token}
    (h : IsOperand text) :
    Text.Closes depth (spell (.operand text :: tokens)) ↔ Text.Closes depth (spell tokens) :=
  Text.closes_append h.1.not_parenthesis

end Token

namespace Operands

theorem closes_spell {operands : Operands} (h : ∀ text, .operand text ∈ operands.tokens →
    IsOperand text) {depth : Nat} {tail : List Token} :
    Text.Closes depth (Token.spell (operands.tokens ++ tail)) ↔
      Text.Closes depth (Token.spell tail) := by
  induction operands generalizing depth tail with
  | empty => rfl
  | word text rest ih =>
    simp only [tokens, List.mem_cons] at h
    rw [tokens, List.cons_append, Token.closes_spell_operand (h text (.inl rfl))]
    exact ih fun text htext => h text (.inr htext)
  | group op inner rest ihInner ihRest =>
    simp only [tokens, List.mem_cons, List.mem_append] at h
    simp only [tokens, List.cons_append, List.append_assoc, Token.closes_spell_opening,
      Token.closes_spell_operator]
    rw [ihInner fun text htext => h text (by simp [htext]), Token.closes_spell_closing,
      Nat.add_sub_cancel, ihRest fun text htext => h text (by simp [htext])]
    simp
  | chain op inner ih =>
    simp only [tokens, List.mem_cons] at h
    rw [tokens, List.cons_append, Token.closes_spell_operator]
    exact ih fun text htext => h text (.inr htext)

theorem WellFormed.isOperand {operands : Operands} (h : operands.WellFormed) :
    ∀ text, .operand text ∈ operands.tokens → IsOperand text := by
  induction operands with
  | empty => simp [tokens]
  | word word rest ih =>
    simp only [tokens, List.mem_cons, Token.operand.injEq]
    rintro text (rfl | htext)
    · exact h.1
    · exact ih h.2 text htext
  | group op inner rest ihInner ihRest =>
    simp only [tokens, List.mem_cons, List.mem_append, reduceCtorEq, false_or]
    rintro text (htext | htext)
    · exact ihInner h.2.1 text htext
    · exact ihRest h.2.2 text htext
  | chain op inner ih =>
    simp only [tokens, List.mem_cons, reduceCtorEq, false_or]
    exact ih h.2

def Ends (tail : List Token) : Prop :=
  ∀ token ∈ tail.head?, token = .closing

theorem Ends.eq_closing {token : Token} {tail : List Token} (h : Ends (token :: tail)) :
    token = .closing :=
  h token rfl

theorem tokens_append_injective {s t : Operands} {u v : List Token} (hu : Ends u) (hv : Ends v)
    (h : s.tokens ++ u = t.tokens ++ v) : s = t ∧ u = v := by
  induction s generalizing t u v with
  | empty =>
    cases t with
    | empty => exact ⟨rfl, h⟩
    | word text rest =>
      obtain rfl : u = .operand text :: (rest.tokens ++ v) := h
      cases hu.eq_closing
    | group op inner rest =>
      obtain rfl : u = (group op inner rest).tokens ++ v := h
      cases hu.eq_closing
    | chain op inner =>
      obtain rfl : u = .operator op :: (inner.tokens ++ v) := h
      cases hu.eq_closing
  | word text rest ih =>
    cases t with
    | empty =>
      obtain rfl : .operand text :: (rest.tokens ++ u) = v := h
      cases hv.eq_closing
    | word text' rest' =>
      simp only [tokens, List.cons_append, List.cons.injEq, Token.operand.injEq] at h
      obtain ⟨rfl, rfl⟩ := ih hu hv h.2
      exact ⟨by rw [h.1], rfl⟩
    | group op inner rest' => simp [tokens] at h
    | chain op inner => simp [tokens] at h
  | group op inner rest ihInner ihRest =>
    cases t with
    | empty =>
      obtain rfl : (group op inner rest).tokens ++ u = v := h
      cases hv.eq_closing
    | word text rest' => simp [tokens] at h
    | group op' inner' rest' =>
      simp only [tokens, List.cons_append, List.append_assoc, List.cons.injEq, true_and,
        Token.operator.injEq] at h
      obtain ⟨rfl, htail⟩ := ihInner (by simp [Ends]) (by simp [Ends]) h.2
      obtain ⟨rfl, rfl⟩ := ihRest hu hv (List.cons.inj htail).2
      exact ⟨by rw [h.1], rfl⟩
    | chain op' inner' => simp [tokens] at h
  | chain op inner ih =>
    cases t with
    | empty =>
      obtain rfl : .operator op :: (inner.tokens ++ u) = v := h
      cases hv.eq_closing
    | word text rest' => simp [tokens] at h
    | group op' inner' rest' => simp [tokens] at h
    | chain op' inner' =>
      simp only [tokens, List.cons_append, List.cons.injEq, Token.operator.injEq] at h
      obtain ⟨rfl, rfl⟩ := ih hu hv h.2
      exact ⟨by rw [h.1], rfl⟩

end Operands

namespace Tree

theorem tokens_injective {s t : Tree} (h : s.tokens = t.tokens) : s = t := by
  obtain ⟨op, operands⟩ := s
  obtain ⟨op', operands'⟩ := t
  simp only [tokens, List.cons.injEq, Token.operator.injEq] at h
  have hnil : Operands.Ends [] := by simp [Operands.Ends]
  obtain ⟨rfl, -⟩ := Operands.tokens_append_injective hnil hnil (congrArg (· ++ []) h.2)
  rw [h.1]

variable {t : Tree}

theorem WellFormed.grammatical (h : t.WellFormed) : t.Grammatical := by
  simp only [Grammatical, tokens, List.mem_cons, reduceCtorEq, false_or]
  exact h.2.isOperand

theorem Grammatical.ofLine_spaced (h : t.Grammatical) {text : Text}
    (hs : Text.Spaced t.words text) : Token.ofLine text = t.tokens := by
  have htokens : ∀ token ∈ t.tokens, Token.ofText token.text = token := fun token htoken =>
    Token.ofText_text fun text htext => h text (htext ▸ htoken)
  rw [Token.ofLine, hs.lexemes_eq, words, List.map_map]
  exact (List.map_congr_left htokens).trans (List.map_id _)

theorem WellFormed.eq_of_spaced {s : Tree} {text : Text} (hs : s.WellFormed) (ht : t.WellFormed)
    (hsText : Text.Spaced s.words text) (htText : Text.Spaced t.words text) : s = t :=
  tokens_injective ((hs.grammatical.ofLine_spaced hsText).symm.trans
    (ht.grammatical.ofLine_spaced htText))

theorem Grammatical.balanced_of_spaced (h : t.Grammatical) {text : Text}
    (hs : Text.Spaced t.words text) : text.Balanced := by
  simp only [Grammatical, tokens, List.mem_cons, reduceCtorEq, false_or] at h
  have hspell : t.words.flatten = Token.spell t.tokens := rfl
  have hoperands : Text.Closes 0 (Token.spell (t.operands.tokens ++ [])) ↔ Text.Closes 0 [] :=
    Operands.closes_spell h
  rw [Text.balanced_iff_closes, hs.closes_iff, hspell, tokens, Token.closes_spell_operator,
    ← List.append_nil t.operands.tokens, hoperands]
  rfl

theorem Grammatical.comma_notMem (h : t.Grammatical) : ∀ word ∈ t.words, ',' ∉ word := by
  have hparenthesis : ',' ∉ ['('] ∧ ',' ∉ [')'] := by decide
  have hsymbol : ∀ op : Operator, ',' ∉ [op.symbol] := fun op => by cases op <;> decide
  rw [words, List.forall_mem_map]
  intro token htoken
  cases token with
  | opening => exact hparenthesis.1
  | closing => exact hparenthesis.2
  | operator op => exact hsymbol op
  | operand text => exact (h text htoken).2.1

end Tree

namespace Text

theorem Spaced.comma_notMem {words : List Text} {text : Text} (h : Spaced words text)
    (hwords : ∀ word ∈ words, ',' ∉ word) : ',' ∉ text := by
  induction h with
  | nil => simp
  | blank hc _ ih =>
    rw [List.mem_cons, not_or]
    refine ⟨?_, ih hwords⟩
    rintro rfl
    exact absurd hc (by decide)
  | parenthesis _ _ ih =>
    rw [List.forall_mem_cons] at hwords
    rw [List.mem_cons, not_or]
    exact ⟨by simpa using hwords.1, ih hwords.2⟩
  | word _ _ _ ih =>
    rw [List.forall_mem_cons] at hwords
    rw [List.mem_append, not_or]
    exact ⟨hwords.1, ih hwords.2⟩

theorem pointForComma_eq_self {text : Text} (h : ',' ∉ text) : text.pointForComma = text := by
  have hmap : ∀ c ∈ text, (if (c == ',') = true then '.' else c) = c := by
    intro c hc
    rw [if_neg]
    rintro hcomma
    exact h (beq_iff_eq.1 hcomma ▸ hc)
  exact (List.map_congr_left hmap).trans (List.map_id _)

theorem comma_notMem_pointForComma (text : Text) : ',' ∉ text.pointForComma := by
  simp only [pointForComma, List.mem_map, not_exists, not_and]
  intro c _
  split
  · decide
  · rename_i hc
    simpa using hc

end Text

theorem Text.Spaced.mem {words : List Text} {text : Text} (h : Text.Spaced words text) :
    ∀ word ∈ words, ((∃ c, Text.isParenthesis c = true ∧ word = [c]) ∨ word.IsWord) ∧
      word ⊆ text := by
  induction h with
  | nil => simp
  | blank _ _ ih =>
    exact fun word hword => ⟨(ih word hword).1, List.subset_cons_of_subset _ (ih word hword).2⟩
  | parenthesis hc _ ih =>
    rw [List.forall_mem_cons]
    refine ⟨⟨.inl ⟨_, hc, rfl⟩, by simp⟩, fun word hword => ?_⟩
    exact ⟨(ih word hword).1, List.subset_cons_of_subset _ (ih word hword).2⟩
  | word hw _ _ ih =>
    rw [List.forall_mem_cons]
    refine ⟨⟨.inr hw, List.subset_append_left _ _⟩, fun word hword => ?_⟩
    exact ⟨(ih word hword).1, List.subset_append_of_subset_right _ (ih word hword).2⟩

theorem Token.ofText_parenthesis {c : Char} (hc : Text.isParenthesis c = true) (text : Text) :
    ofText [c] ≠ operand text := by
  simp only [Text.isParenthesis, Bool.or_eq_true, beq_iff_eq] at hc
  rcases hc with rfl | rfl <;> simp [ofText]

theorem isOperand_of_mem_ofLine {line : Text} (hcomma : ',' ∉ line) (text : Text)
    (h : .operand text ∈ Token.ofLine line) : IsOperand text := by
  obtain ⟨word, hword, hofText⟩ := List.mem_map.1 h
  obtain ⟨hkind, hsubset⟩ := (Text.lexemes_eq_iff.1 rfl).mem word hword
  have htext : text = word := by
    have := Token.text_ofText word
    rwa [hofText] at this
  subst htext
  rcases hkind with ⟨c, hc, rfl⟩ | hkind
  · exact absurd hofText (Token.ofText_parenthesis hc [c])
  · refine ⟨hkind, fun hmem => hcomma (hsubset hmem), ?_⟩
    cases hop : Operator.ofText? text with
    | none => rfl
    | some op =>
      unfold Token.ofText at hofText
      split at hofText
      · cases hofText
      split at hofText
      · cases hofText
      · simp [hop] at hofText

theorem Tree.WellFormed.pointForComma_eq_self {t : Tree} (h : t.WellFormed) {text : Text}
    (hs : Text.Spaced t.words text) : text.pointForComma = text :=
  Text.pointForComma_eq_self (hs.comma_notMem h.grammatical.comma_notMem)

theorem Tree.Grammatical.readLine_spaced {t : Tree} (h : t.Grammatical) {line : Text}
    (hs : Text.Spaced t.words line.pointForComma) {maxLength : Int}
    (hlength : line.length ≤ maxLength) : readLine maxLength line = .ok t.tokens := by
  have hblank : ¬ ∀ c ∈ line, isBlank c = true := by
    rw [← Text.blank_pointForComma, ← Text.lexemes_eq_nil_iff, hs.lexemes_eq]
    simp [Tree.words, Tree.tokens]
  have hbalanced := Text.balanced_pointForComma.1 (h.balanced_of_spaced hs)
  rw [readLine_ok hlength hblank hbalanced, h.ofLine_spaced hs]

theorem Tree.WellFormed.readLine_spaced {t : Tree} (h : t.WellFormed) {line : Text}
    (hs : Text.Spaced t.words line.pointForComma) {maxLength : Int}
    (hlength : line.length ≤ maxLength) : readLine maxLength line = .ok t.tokens :=
  h.grammatical.readLine_spaced hs hlength

end PolishCalc
