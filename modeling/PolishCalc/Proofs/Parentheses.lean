import PolishCalc.Proofs.Grammar

namespace PolishCalc

namespace Token

def Balanced (tokens : List Token) : Prop :=
  (∀ front, front <+: tokens → front.count closing ≤ front.count opening) ∧
    tokens.count closing = tokens.count opening

def outline (tokens : List Token) : Text :=
  tokens.map fun
    | opening => '('
    | closing => ')'
    | _ => ' '

@[simp] theorem closes_outline_nil {depth : Nat} : Text.Closes depth (outline []) ↔ depth = 0 :=
  Text.closes_nil

@[simp] theorem closes_outline_opening {depth : Nat} {tokens : List Token} :
    Text.Closes depth (outline (opening :: tokens)) ↔ Text.Closes (depth + 1) (outline tokens) :=
  Text.closes_opening

@[simp] theorem closes_outline_closing {depth : Nat} {tokens : List Token} :
    Text.Closes depth (outline (closing :: tokens)) ↔
      0 < depth ∧ Text.Closes (depth - 1) (outline tokens) :=
  Text.closes_closing

@[simp] theorem closes_outline_operator {depth : Nat} {op : Operator} {tokens : List Token} :
    Text.Closes depth (outline (operator op :: tokens)) ↔ Text.Closes depth (outline tokens) :=
  Text.closes_cons rfl

@[simp] theorem closes_outline_operand {depth : Nat} {text : Text} {tokens : List Token} :
    Text.Closes depth (outline (operand text :: tokens)) ↔ Text.Closes depth (outline tokens) :=
  Text.closes_cons rfl

theorem count_outline (tokens : List Token) :
    (outline tokens).count '(' = tokens.count opening ∧
      (outline tokens).count ')' = tokens.count closing := by
  induction tokens with
  | nil => exact ⟨rfl, rfl⟩
  | cons token tokens ih =>
    obtain ⟨hopening, hclosing⟩ := ih
    simp only [outline] at hopening hclosing
    cases token <;> simp [outline, hopening, hclosing]

theorem balanced_iff_closes {tokens : List Token} :
    Balanced tokens ↔ Text.Closes 0 (outline tokens) := by
  obtain ⟨hopening, hclosing⟩ := count_outline tokens
  rw [Text.closes_iff, Balanced, hopening, hclosing, Nat.zero_add]
  refine and_congr_left fun _ => ⟨fun h front hfront => ?_, fun h front hfront => ?_⟩
  · obtain ⟨front, hstart, rfl⟩ := List.prefix_map_iff.1 hfront
    have hcount := count_outline front
    rw [outline] at hcount
    rw [hcount.1, hcount.2, Nat.zero_add]
    exact h front hstart
  · obtain ⟨hopening, hclosing⟩ := count_outline front
    have hle := h (outline front) (hfront.map _)
    rwa [hopening, hclosing, Nat.zero_add] at hle

instance (tokens : List Token) : Decidable (Balanced tokens) :=
  decidable_of_iff (outline tokens).Balanced
    (Text.balanced_iff_closes.trans balanced_iff_closes.symm)

theorem closes_append_iff {tokens : List Token} {base : Nat}
    (h : Text.Closes base (outline tokens)) (depth : Nat) (tail : List Token) :
    Text.Closes (base + depth) (outline (tokens ++ tail)) ↔ Text.Closes depth (outline tail) := by
  induction tokens generalizing base with
  | nil =>
    obtain rfl := closes_outline_nil.1 h
    rw [Nat.zero_add, List.nil_append]
  | cons token tokens ih =>
    cases token with
    | opening =>
      rw [List.cons_append, closes_outline_opening, Nat.add_right_comm]
      exact ih (closes_outline_opening.1 h)
    | closing =>
      obtain ⟨hpos, h⟩ := closes_outline_closing.1 h
      rw [List.cons_append, closes_outline_closing, Nat.sub_add_comm hpos, ih h,
        and_iff_right (Nat.add_pos_left hpos depth)]
    | operator op =>
      rw [List.cons_append, closes_outline_operator]
      exact ih (closes_outline_operator.1 h)
    | operand text =>
      rw [List.cons_append, closes_outline_operand]
      exact ih (closes_outline_operand.1 h)

theorem Balanced.closes_append {tokens : List Token} (h : Balanced tokens) {depth : Nat}
    {tail : List Token} :
    Text.Closes depth (outline (tokens ++ tail)) ↔ Text.Closes depth (outline tail) := by
  have happend := closes_append_iff (balanced_iff_closes.1 h) depth tail
  rwa [Nat.zero_add] at happend

theorem closes_append_congr {s t : List Token}
    (h : ∀ depth, Text.Closes depth (outline s) ↔ Text.Closes depth (outline t)) {depth : Nat}
    (tokens : List Token) :
    Text.Closes depth (outline (tokens ++ s)) ↔ Text.Closes depth (outline (tokens ++ t)) := by
  induction tokens generalizing depth with
  | nil => exact h depth
  | cons token tokens ih => cases token <;> simp [ih]

theorem closes_outline_ofText {word : Text}
    (hword : (∃ c, Text.isParenthesis c = true ∧ word = [c]) ∨ word.IsWord) {depth : Nat}
    {tokens : List Token} {text : Text}
    (h : ∀ depth, Text.Closes depth (outline tokens) ↔ Text.Closes depth text) :
    Text.Closes depth (outline (ofText word :: tokens)) ↔ Text.Closes depth (word ++ text) := by
  rcases hword with ⟨c, hc, rfl⟩ | hword
  · simp only [Text.isParenthesis, Bool.or_eq_true, beq_iff_eq] at hc
    rcases hc with rfl | rfl
    · exact closes_outline_opening.trans ((h _).trans Text.closes_opening.symm)
    · exact closes_outline_closing.trans ((and_congr_right fun _ => h _).trans
        Text.closes_closing.symm)
  · rw [Text.closes_append hword.not_parenthesis, ← h depth]
    have hne : ∀ c, Text.isParenthesis c = true → word ≠ [c] := by
      rintro c hc rfl
      have hfalse := hword.not_parenthesis c (List.mem_singleton_self c)
      rw [hc] at hfalse
      cases hfalse
    rw [ofText, if_neg (hne '(' rfl), if_neg (hne ')' rfl)]
    split
    · exact closes_outline_operator
    · exact closes_outline_operand

theorem balanced_ofLine {text : Text} : Balanced (ofLine text) ↔ text.Balanced := by
  have hspaced : Text.Spaced text.lexemes text := Text.lexemes_eq_iff.1 rfl
  have hcloses : ∀ depth, Text.Closes depth (outline (ofLine text)) ↔
      Text.Closes depth text.lexemes.flatten := by
    have hwords := hspaced.mem
    rw [ofLine]
    generalize text.lexemes = words at hwords
    induction words with
    | nil => exact fun _ => Iff.rfl
    | cons word words ih =>
      intro depth
      exact closes_outline_ofText (hwords word List.mem_cons_self).1
        (ih fun word' hword' => hwords word' (List.mem_cons_of_mem _ hword'))
  rw [balanced_iff_closes, Text.balanced_iff_closes, hspaced.closes_iff, hcloses]

end Token

theorem evaluateLine_eq_tokens {rules : Rules} {line : Text} {tokens : List Token}
    (htokens : Token.ofLine line.pointForComma = tokens) (hne : tokens ≠ [])
    (hbalanced : Token.Balanced tokens) (hlength : line.length ≤ rules.maxLength)
    (memory : Memory) : evaluateLine rules memory line = evaluateTokens rules memory tokens := by
  subst htokens
  have hblank : ¬ ∀ c ∈ line, isBlank c = true := by
    rw [← Text.blank_pointForComma, ← Text.lexemes_eq_nil_iff]
    exact fun hnil => hne (by rw [Token.ofLine, hnil]; rfl)
  have hline := Text.balanced_pointForComma.1 (Token.balanced_ofLine.1 hbalanced)
  rw [evaluateLine, readLine_ok hlength hblank hline]

end PolishCalc
