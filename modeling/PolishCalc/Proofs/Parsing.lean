import PolishCalc.Proofs.Grammar
import PolishCalc.Proofs.Reduction

namespace PolishCalc

namespace Progress

variable {rules : Rules}

theorem enter_ne_ok {p q : Progress} (token : Option Token)
    (h : ∀ op, token ≠ some (.operator op)) : p.enter rules token ≠ .ok q := by
  unfold enter
  split
  · nofun
  · split
    · exact absurd rfl (h _)
    · nofun

theorem exists_operator_of_read {outer : List Level} {memory : Memory} {token : Token}
    {q : Progress} (h : read rules ⟨[], outer, memory⟩ token = .ok q) :
    ∃ op, token = .operator op := by
  cases token with
  | operator op => exact ⟨op, rfl⟩
  | opening => exact absurd h (enter_ne_ok (some .opening) (by simp))
  | operand text => exact absurd h (enter_ne_ok (some (.operand text)) (by simp))
  | closing =>
    cases outer with
    | nil => exact absurd h (enter_ne_ok (some .closing) (by simp))
    | cons around outer => cases h

theorem finish_start_ne_ok (memory : Memory) {reduced : Double × Memory} :
    finish rules (start memory) ≠ .ok reduced := by
  rw [finish, if_pos (show (start memory).level.isEmpty = true from rfl)]
  split
  · nofun
  · rename_i hread
    exact absurd hread (enter_ne_ok none (by simp))

theorem exists_of_readAll_cons {p q : Progress} {token : Token} {tokens : List Token}
    (h : p.readAll rules (token :: tokens) = .ok q) :
    ∃ next, p.read rules token = .ok next ∧ next.readAll rules tokens = .ok q := by
  cases hread : p.read rules token with
  | error stop =>
    rw [readAll_cons_error hread tokens] at h
    cases h
  | ok next => exact ⟨next, rfl, readAll_cons_ok hread tokens ▸ h⟩

theorem exists_of_readAll_operator {outer : List Level} {memory : Memory} {token : Token}
    {tokens : List Token} {q : Progress}
    (h : readAll rules ⟨[], outer, memory⟩ (token :: tokens) = .ok q) :
    ∃ op, token = .operator op ∧ readAll rules ⟨[⟨op, []⟩], outer, memory⟩ tokens = .ok q := by
  obtain ⟨next, hread, hnext⟩ := exists_of_readAll_cons h
  obtain ⟨op, rfl⟩ := exists_operator_of_read hread
  rw [read_operator] at hread
  split at hread
  · cases hread
  · cases hread
    exact ⟨op, rfl, hnext⟩

theorem exists_of_readAll_group {inner : Operands} {p new : Pending} {rest : Level}
    {outer : List Level} {memory : Memory} {tail : List Token} {q : Progress}
    (h : readAll rules ⟨[new], (p :: rest) :: outer, memory⟩ (inner.tokens ++ .closing :: tail) =
      .ok q) :
    ∃ x memory', readAll rules ⟨p.push x :: rest, outer, memory'⟩ tail = .ok q := by
  have hclose : ∀ q level memory,
      readAll rules ⟨q :: level, (p :: rest) :: outer, memory⟩ (.closing :: tail) =
        (Level.reduce rules memory q level).bind fun reduced =>
          readAll rules ⟨p.push reduced.1 :: rest, outer, reduced.2⟩ tail :=
    fun q level memory => readAll_closing rules q level (p :: rest) outer memory tail
  rw [readAll_append, readAll_tokens rules inner new [] _ memory _ _ hclose] at h
  obtain ⟨collected, -, h⟩ := bind_eq_ok h
  obtain ⟨reduced, -, h⟩ := bind_eq_ok h
  exact ⟨reduced.1, reduced.2, h⟩

theorem exists_operands {tokens : List Token} {p : Pending} {rest : Level} {outer : List Level}
    {memory : Memory} {q : Progress} (hwords : ∀ text, .operand text ∈ tokens → IsOperand text)
    (hcloses : Text.Closes outer.length (Token.spell tokens))
    (h : readAll rules ⟨p :: rest, outer, memory⟩ tokens = .ok q) :
    ∃ (operands : Operands) (tail : List Token),
      tokens = operands.tokens ++ tail ∧ Operands.Ends tail := by
  -- on the number of tokens: what follows a group is no part of the tokens inside it
  induction hlength : tokens.length using Nat.strong_induction_on
    generalizing tokens p rest outer memory with
  | _ n ih =>
  subst hlength
  cases tokens with
  | nil => exact ⟨.empty, [], rfl, by simp [Operands.Ends]⟩
  | cons token tokens =>
  have hmem : ∀ text, .operand text ∈ tokens → IsOperand text := fun text htext =>
    hwords text (List.mem_cons_of_mem _ htext)
  cases token with
  | closing => exact ⟨.empty, .closing :: tokens, rfl, by simp [Operands.Ends]⟩
  | operand text =>
    have hrest := (Token.closes_spell_operand (hwords text List.mem_cons_self)).1 hcloses
    cases hvalue : operandValue? memory.answer text with
    | none =>
      rw [readAll_cons_error (read_operand_none hvalue p rest outer)] at h
      cases h
    | some x =>
      rw [readAll_cons_ok (read_operand hvalue p rest outer)] at h
      obtain ⟨operands, tail, rfl, hends⟩ := ih _ (by simp) hmem hrest h rfl
      exact ⟨.word text operands, tail, rfl, hends⟩
  | operator op =>
    obtain ⟨next, hread, hnext⟩ := exists_of_readAll_cons h
    rw [read_operator] at hread
    split at hread
    · cases hread
    · cases hread
      obtain ⟨operands, tail, rfl, hends⟩ :=
        ih _ (by simp) hmem (Token.closes_spell_operator.1 hcloses) hnext rfl
      exact ⟨.chain op operands, tail, rfl, hends⟩
  | opening =>
    have hopen : readAll rules ⟨[], (p :: rest) :: outer, memory⟩ tokens = .ok q := h
    have hinside : Text.Closes ((p :: rest) :: outer).length (Token.spell tokens) :=
      Token.closes_spell_opening.1 hcloses
    cases tokens with
    | nil => exact absurd hinside (by simp [Token.spell])
    | cons token tokens =>
    obtain ⟨op, rfl, hnext⟩ := exists_of_readAll_operator hopen
    have hmem' : ∀ text, .operand text ∈ tokens → IsOperand text := fun text htext =>
      hmem text (List.mem_cons_of_mem _ htext)
    rw [Token.closes_spell_operator] at hinside
    have hshorter : tokens.length < (Token.opening :: .operator op :: tokens).length := by
      simp only [List.length_cons]
      omega
    obtain ⟨inner, tail, rfl, hends⟩ := ih _ hshorter hmem' hinside hnext rfl
    rw [Operands.closes_spell fun text htext =>
      hmem' text (List.mem_append_left _ htext)] at hinside
    cases tail with
    | nil => exact absurd hinside (by simp [Token.spell])
    | cons token tail =>
    obtain rfl : token = .closing := hends.eq_closing
    obtain ⟨x, memory', hrest⟩ := exists_of_readAll_group hnext
    obtain ⟨operands, tail', rfl, hends'⟩ := ih _ (by simp; omega)
      (fun text htext => hmem' text (by simp [htext]))
      (Token.closes_spell_closing.1 hinside).2 hrest rfl
    exact ⟨.group op inner operands, tail', by simp [Operands.tokens], hends'⟩

end Progress

namespace Operands

variable {rules : Rules}

theorem ne_empty_of_reduce {inner : Operands} {op : Operator} {level : Nat}
    {memory : Memory} {collected : Pending × Memory} {reduced : Double × Memory}
    (hcollect : inner.collect rules level ⟨op, []⟩ memory = .ok collected)
    (hreduce : collected.1.reduce rules collected.2 = .ok reduced) : inner ≠ .empty := by
  rintro rfl
  obtain rfl := Except.ok.inj hcollect
  exact (Pending.reduce_ok hreduce).1 rfl

theorem collect_ok {operands : Operands} {level : Nat} {p : Pending} {memory : Memory}
    {collected : Pending × Memory}
    (hwords : ∀ text, .operand text ∈ operands.tokens → IsOperand text)
    (hlevel : level ≤ rules.maxDepth)
    (h : operands.collect rules level p memory = .ok collected) :
    operands.WellFormed ∧ (level + operands.depth : Nat) ≤ rules.maxDepth := by
  induction operands generalizing level p memory collected with
  | empty => exact ⟨trivial, by simpa [depth] using hlevel⟩
  | word text rest ih =>
    simp only [tokens, List.mem_cons] at hwords
    simp only [collect] at h
    split at h
    · obtain ⟨hwell, hdepth⟩ := ih (fun text htext => hwords text (.inr htext)) hlevel h
      exact ⟨⟨hwords text (.inl rfl), hwell⟩, hdepth⟩
    · cases h
  | group op inner rest ihInner ihRest =>
    simp only [tokens, List.mem_cons, List.mem_append] at hwords
    simp only [collect] at h
    split at h
    · cases h
    · obtain ⟨_, hcollect, h⟩ := bind_eq_ok h
      obtain ⟨_, hreduce, h⟩ := bind_eq_ok h
      obtain ⟨hinner, hdepth⟩ :=
        ihInner (fun text htext => hwords text (by simp [htext])) (by omega) hcollect
      obtain ⟨hrest, hdepth'⟩ := ihRest (fun text htext => hwords text (by simp [htext])) hlevel h
      refine ⟨⟨ne_empty_of_reduce hcollect hreduce, hinner, hrest⟩, ?_⟩
      simp only [depth]
      omega
  | chain op inner ih =>
    simp only [tokens, List.mem_cons] at hwords
    simp only [collect] at h
    split at h
    · cases h
    · obtain ⟨_, hcollect, h⟩ := bind_eq_ok h
      obtain ⟨_, hreduce, -⟩ := map_eq_ok h
      obtain ⟨hinner, hdepth⟩ :=
        ih (fun text htext => hwords text (.inr htext)) (by omega) hcollect
      refine ⟨⟨ne_empty_of_reduce hcollect hreduce, hinner⟩, ?_⟩
      simp only [depth]
      omega

end Operands

theorem Tree.evaluate_ok {rules : Rules} {memory : Memory} {t : Tree} {reduced : Double × Memory}
    (hwords : ∀ text, .operand text ∈ t.tokens → IsOperand text)
    (h : t.evaluate rules memory = .ok reduced) : t.WellFormed ∧ t.depth ≤ rules.maxDepth := by
  simp only [tokens, List.mem_cons, reduceCtorEq, false_or] at hwords
  rw [evaluate] at h
  split at h
  · cases h
  · obtain ⟨_, hcollect, hreduce⟩ := bind_eq_ok h
    obtain ⟨hwell, hdepth⟩ := Operands.collect_ok hwords (by omega) hcollect
    refine ⟨⟨Operands.ne_empty_of_reduce hcollect hreduce, hwell⟩, ?_⟩
    rw [depth]
    omega

theorem exists_tree_of_evaluateTokens {rules : Rules} {memory : Memory} {tokens : List Token}
    {reduced : Double × Memory} (hwords : ∀ text, .operand text ∈ tokens → IsOperand text)
    (hcloses : Text.Closes 0 (Token.spell tokens))
    (h : evaluateTokens rules memory tokens = .ok reduced) :
    ∃ t : Tree, tokens = t.tokens ∧ t.WellFormed ∧ t.depth ≤ rules.maxDepth := by
  obtain ⟨q, hread, -⟩ := bind_eq_ok h
  cases tokens with
  | nil => exact absurd h (Progress.finish_start_ne_ok memory)
  | cons token tokens =>
  obtain ⟨op, rfl, hnext⟩ := Progress.exists_of_readAll_operator hread
  rw [Token.closes_spell_operator] at hcloses
  simp only [List.mem_cons, reduceCtorEq, false_or] at hwords
  have hlevels : Text.Closes ([] : List Level).length (Token.spell tokens) := hcloses
  obtain ⟨operands, tail, rfl, hends⟩ := Progress.exists_operands hwords hlevels hnext
  rw [Operands.closes_spell fun text htext => hwords text (List.mem_append_left _ htext)]
    at hcloses
  cases tail with
  | nil =>
    have htokens : .operator op :: (operands.tokens ++ []) = Tree.tokens ⟨op, operands⟩ := by
      rw [List.append_nil, Tree.tokens]
    rw [htokens, evaluateTokens_tokens] at h
    exact ⟨⟨op, operands⟩, htokens, Tree.evaluate_ok (by simpa [Tree.tokens] using hwords) h⟩
  | cons token tail =>
    obtain rfl : token = .closing := hends.eq_closing
    exact absurd (Token.closes_spell_closing.1 hcloses).1 (Nat.lt_irrefl 0)

end PolishCalc
