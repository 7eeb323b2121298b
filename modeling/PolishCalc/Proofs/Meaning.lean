import PolishCalc.Proofs.Parsing
import PolishCalc.Session.Basic

namespace PolishCalc

abbrev Computation := ExceptT Failure (StateM Memory)

namespace Computation

def outcome {α : Type} (c : Computation α) (memory : Memory) : Except Failure α × Memory :=
  c.run.run memory

def operand (text : Text) : Computation Double := do
  match operandValue? (← get).answer text with
  | some x => return x
  | none => throw (.reported (.invalidNumber text))

def combine (rules : Rules) (op : Operator) (values : List Double) : Computation Double := do
  if values = [] then throw (.reported .noOperands)
  let memory ← get
  let operands := if values.length = 1 then memory.answer :: values else values
  let applied := op.apply rules.source (operands.map Operand.double) memory.requests
  set { memory with requests := applied.2 }
  match applied.1 with
  | .error failure => throw failure
  | .ok result =>
    if result.isNaN then throw (.reported (.notANumber (reductionText op operands)))
    else if result.isInfinite then
      throw (.reported (.infiniteResult (reductionText op operands)))
    else
      match result.roundAt rules.digits with
      | .error fault => throw (.fault fault)
      | .ok rounded =>
        set (memory.record applied.2 ⟨op, operands, rounded⟩)
        return rounded

end Computation

def Operands.values (rules : Rules) : Operands → Computation (List Double)
  | .empty => return []
  | .word text rest => do
    let x ← Computation.operand text
    return x :: (← rest.values rules)
  | .group op inner rest => do
    let x ← Computation.combine rules op (← inner.values rules)
    return x :: (← rest.values rules)
  | .chain op inner => do
    let x ← Computation.combine rules op (← inner.values rules)
    return [x]

def Tree.meaning (rules : Rules) (t : Tree) : Computation Double := do
  Computation.combine rules t.operator (← t.operands.values rules)

def Stop.split {α : Type} : Except Stop (α × Memory) → Except Failure α × Memory
  | .ok (a, memory) => (.ok a, memory)
  | .error stop => (.error stop.failure, stop.memory)

theorem Stop.eq_of_split_eq_ok {α : Type} {result : Except Stop (α × Memory)} {a : α}
    {memory : Memory} (h : Stop.split result = (.ok a, memory)) : result = .ok (a, memory) := by
  cases result with
  | ok reduced =>
    obtain ⟨ha, rfl⟩ := Prod.mk.inj h
    obtain rfl := Except.ok.inj ha
    rfl
  | error stop => cases (Prod.mk.inj h).1

namespace Computation

variable {α β : Type}

def Agrees (c : Computation α) (f : Memory → Except Stop (α × Memory)) : Prop :=
  ∀ memory, c.outcome memory = Stop.split (f memory)

theorem Agrees.pure (a : α) : Agrees (Pure.pure a) fun memory => .ok (a, memory) :=
  fun _ => rfl

theorem outcome_bind (c : Computation α) (next : α → Computation β) (memory : Memory) :
    (c >>= next).outcome memory =
      match c.outcome memory with
      | (.ok a, memory) => (next a).outcome memory
      | (.error failure, memory) => (.error failure, memory) := by
  simp only [outcome, ExceptT.run_bind, StateT.run_bind]
  cases h : c.run.run memory with
  | mk result memory => cases result <;> rfl

theorem outcome_get_bind (next : Memory → Computation α) (memory : Memory) :
    (get >>= next).outcome memory = (next memory).outcome memory := rfl

theorem outcome_set_bind (new : Memory) (next : PUnit → Computation α) (memory : Memory) :
    (set new >>= next).outcome memory = (next ⟨⟩).outcome new := rfl

theorem Agrees.bind {c : Computation α} {f : Memory → Except Stop (α × Memory)}
    {next : α → Computation β} {g : α → Memory → Except Stop (β × Memory)} (h : Agrees c f)
    (hnext : ∀ a, Agrees (next a) (g a)) :
    Agrees (c >>= next) fun memory => (f memory).bind fun r => g r.1 r.2 := by
  intro memory
  rw [outcome_bind, h memory]
  change _ = Stop.split ((f memory).bind _)
  cases f memory with
  | error stop => rfl
  | ok r => exact hnext r.1 r.2

theorem agrees_operand (text : Text) : Agrees (operand text) fun memory =>
    match operandValue? memory.answer text with
    | some x => .ok (x, memory)
    | none => .error ⟨.reported (.invalidNumber text), memory⟩ := by
  intro memory
  rw [operand, outcome_get_bind]
  dsimp only
  cases operandValue? memory.answer text <;> rfl

theorem complete_reverse (op : Operator) (values : List Double) (answer : Double) :
    Pending.complete ⟨op, values.reverse⟩ answer =
      if values.length = 1 then answer :: values else values := by
  unfold Pending.complete
  split
  · rename_i x hx
    have hvalues : values = [x] := by simpa using congrArg List.reverse hx
    simp [hvalues]
  · rename_i hne
    rw [if_neg, List.reverse_reverse]
    intro hlength
    obtain ⟨x, rfl⟩ := List.length_eq_one_iff.1 hlength
    exact hne x rfl

theorem agrees_combine (rules : Rules) (op : Operator) (values : List Double) :
    Agrees (combine rules op values) fun memory =>
      Pending.reduce rules memory ⟨op, values.reverse⟩ := by
  intro memory
  by_cases hvalues : values = []
  · subst hvalues
    rfl
  have hempty : ¬ values.reverse.isEmpty = true := by simpa using hvalues
  rw [combine, if_neg hvalues]
  change Computation.outcome (get >>= _) memory = _
  rw [outcome_get_bind, outcome_set_bind]
  dsimp only
  rw [Pending.reduce, if_neg hempty, complete_reverse]
  generalize (if values.length = 1 then memory.answer :: values else values) = operands
  dsimp only
  generalize op.apply rules.source (operands.map Operand.double) memory.requests = applied
  obtain ⟨result, requests⟩ := applied
  rcases result with failure | (_ | negative | ⟨negative, units, fits⟩)
  · rfl
  · rfl
  · rfl
  · simp only [Double.isNaN, Double.isInfinite, if_false, Bool.false_eq_true]
    cases Double.roundAt rules.digits (.finite negative units fits) <;> rfl

theorem Agrees.congr {c : Computation α} {f g : Memory → Except Stop (α × Memory)}
    (h : Agrees c f) (hfg : ∀ memory, f memory = g memory) : Agrees c g :=
  fun memory => (h memory).trans (congrArg Stop.split (hfg memory))

end Computation

open PolishCalc.Computation

namespace Operands

variable {rules : Rules}

theorem agrees_reduce {operands : Operands} {level : Nat} {op : Operator}
    (h : Agrees (operands.values rules >>= fun xs => pure ⟨op, xs.reverse ++ []⟩)
      (operands.collect rules level ⟨op, []⟩)) :
    Agrees (operands.values rules >>= combine rules op) fun memory =>
      (operands.collect rules level ⟨op, []⟩ memory).bind fun collected =>
        collected.1.reduce rules collected.2 := by
  have hcombine (q : Pending) : Agrees (combine rules q.operator q.operands.reverse)
      fun memory => q.reduce rules memory := by
    simpa using agrees_combine rules q.operator q.operands.reverse
  simpa [bind_assoc] using h.bind hcombine

theorem agrees_collect {operands : Operands} {level : Nat}
    (hdepth : (level + operands.depth : Nat) ≤ rules.maxDepth) (p : Pending) :
    Agrees (operands.values rules >>= fun xs => pure ⟨p.operator, xs.reverse ++ p.operands⟩)
      (operands.collect rules level p) := by
  induction operands generalizing level p with
  | empty => exact fun memory => rfl
  | word text rest ih =>
    have hrest (x : Double) := ih hdepth (p.push x)
    have h := (agrees_operand text).bind hrest
    simp only [values, bind_assoc, pure_bind, List.reverse_cons, List.append_assoc,
      List.singleton_append]
    refine h.congr fun memory => ?_
    simp only [collect]
    cases operandValue? memory.answer text <;> rfl
  | group op inner rest ihInner ihRest =>
    simp only [depth] at hdepth
    have hinnerDepth : (level + 1 + inner.depth : Nat) ≤ rules.maxDepth := by omega
    have hrestDepth : (level + rest.depth : Nat) ≤ rules.maxDepth := by omega
    have hrest (x : Double) := ihRest hrestDepth (p.push x)
    have h := (agrees_reduce (ihInner hinnerDepth ⟨op, []⟩)).bind hrest
    simp only [bind_assoc] at h
    simp only [values, bind_assoc, pure_bind, List.reverse_cons, List.append_assoc,
      List.singleton_append]
    refine h.congr fun memory => ?_
    rw [collect, if_neg (by omega)]
    exact bind_bind _ _ _
  | chain op inner ih =>
    simp only [depth] at hdepth
    have hinnerDepth : (level + 1 + inner.depth : Nat) ≤ rules.maxDepth := by omega
    have h := (agrees_reduce (ih hinnerDepth ⟨op, []⟩)).bind fun x => Agrees.pure (p.push x)
    simp only [bind_assoc] at h
    simp only [values, bind_assoc, pure_bind, List.reverse_singleton, List.singleton_append]
    refine h.congr fun memory => ?_
    rw [collect, if_neg (by omega)]
    exact bind_bind _ _ _

end Operands

theorem Tree.agrees_evaluate {rules : Rules} {t : Tree} (hdepth : t.depth ≤ rules.maxDepth) :
    Agrees (t.meaning rules) fun memory => t.evaluate rules memory := by
  rw [depth] at hdepth
  have h := Operands.agrees_reduce
    (Operands.agrees_collect (show (1 + t.operands.depth : Nat) ≤ rules.maxDepth by omega)
      ⟨t.operator, []⟩)
  refine h.congr fun memory => ?_
  rw [evaluate, if_neg (by omega)]

theorem Tree.Grammatical.evaluateLine_eq {rules : Rules} {t : Tree} (h : t.Grammatical)
    {line : Text} (hs : Text.Spaced t.words line.pointForComma)
    (hlength : line.length ≤ rules.maxLength) (memory : Memory) :
    evaluateLine rules memory line = t.evaluate rules memory := by
  rw [evaluateLine, h.readLine_spaced hs hlength]
  exact evaluateTokens_tokens rules memory t

theorem Tree.WellFormed.evaluateLine_spaced {rules : Rules} {t : Tree} (h : t.WellFormed)
    (hdepth : t.depth ≤ rules.maxDepth) {line : Text}
    (hs : Text.Spaced t.words line.pointForComma) (hlength : line.length ≤ rules.maxLength)
    (memory : Memory) :
    Stop.split (evaluateLine rules memory line) = (t.meaning rules).outcome memory := by
  rw [h.grammatical.evaluateLine_eq hs hlength, agrees_evaluate hdepth memory]

theorem exists_tree_of_evaluateLine {rules : Rules} {memory : Memory} {line : Text}
    {reduced : Double × Memory} (h : evaluateLine rules memory line = .ok reduced) :
    ∃ t : Tree, t.WellFormed ∧ t.depth ≤ rules.maxDepth ∧
      Text.Spaced t.words line.pointForComma ∧ line.length ≤ rules.maxLength := by
  cases hread : readLine rules.maxLength line with
  | error error => simp [evaluateLine, hread] at h
  | ok tokens =>
    obtain ⟨hlength, -, hbalanced, rfl⟩ := readLine_eq_ok_iff.1 hread
    rw [evaluateLine, hread] at h
    have hspell : Token.spell (Token.ofLine line.pointForComma) =
        line.pointForComma.lexemes.flatten := by
      simp [Token.spell, Token.ofLine, List.flatMap_map, Token.text_ofText, List.flatMap_id']
    have hcloses : Text.Closes 0 (Token.spell (Token.ofLine line.pointForComma)) := by
      rw [hspell, ← (Text.lexemes_eq_iff.1 rfl).closes_iff, ← Text.balanced_iff_closes]
      exact Text.balanced_pointForComma.2 hbalanced
    obtain ⟨t, htokens, hwell, hdepth⟩ := exists_tree_of_evaluateTokens
      (isOperand_of_mem_ofLine (Text.comma_notMem_pointForComma line)) hcloses h
    refine ⟨t, hwell, hdepth, ?_, hlength⟩
    have hwords : line.pointForComma.lexemes = t.words := by
      rw [Tree.words, ← htokens, Token.ofLine, List.map_map]
      exact ((List.map_congr_left fun word _ => Token.text_ofText word).trans (List.map_id _)).symm
    exact Text.lexemes_eq_iff.1 hwords

theorem Tree.exists_completes_of_evaluate {rules : Rules} {memory after : Memory} {t : Tree}
    {x : Double} (h : t.evaluate rules memory = .ok (x, after)) :
    1 ≤ rules.maxDepth ∧ ∃ before r, Completes rules before r after ∧ r.result = x := by
  rw [evaluate] at h
  split at h
  · cases h
  · rename_i hroom
    obtain ⟨collected, -, hreduce⟩ := bind_eq_ok h
    exact ⟨by omega, _, _, (Pending.reduce_ok hreduce).2, rfl⟩

theorem exists_completes_of_evaluateLine {rules : Rules} {memory after : Memory} {line : Text}
    {x : Double} (h : evaluateLine rules memory line = .ok (x, after)) :
    1 ≤ rules.maxDepth ∧ ∃ before r, Completes rules before r after ∧ r.result = x := by
  obtain ⟨t, hwell, hdepth, hs, hlength⟩ := exists_tree_of_evaluateLine h
  rw [hwell.grammatical.evaluateLine_eq hs hlength] at h
  exact Tree.exists_completes_of_evaluate h

theorem answer_of_evaluateLine_ok {rules : Rules} {memory after : Memory} {line : Text}
    {x : Double} (h : evaluateLine rules memory line = .ok (x, after)) : after.answer = x := by
  obtain ⟨-, before, r, hcompletes, hresult⟩ := exists_completes_of_evaluateLine h
  obtain ⟨y, requests, -, -, -, rfl⟩ := hcompletes
  exact hresult

def Operand.ofPrecision : Option Int → Operand
  | some n => .integer n
  | none => .absent

def Session.rules (settings : Settings) (source : Source) (s : Session)
    (precision maxDepth : Option Int) : Rules :=
  ⟨(precision.getD s.precision.value).toNat, settings.maxInputLength,
    maxDepth.getD settings.maxExpressionDepth, source⟩

theorem Session.outcome_eq (settings : Settings) (source : Source) (s : Session) (line : Text)
    (traced : Bool) (precision maxDepth : Option Int) :
    s.outcome settings source line traced (.ofPrecision precision) maxDepth =
      evaluateLine (s.rules settings source precision maxDepth) (s.memory traced) line := by
  cases precision <;> rfl

theorem Session.outcome_of_placesFor {settings : Settings} {source : Source} {s : Session}
    {precision : Operand} {digits : Nat} (h : s.placesFor precision = .ok digits) (line : Text)
    (traced : Bool) (maxDepth : Option Int) :
    s.outcome settings source line traced precision maxDepth =
      evaluateLine ⟨digits, settings.maxInputLength,
        maxDepth.getD settings.maxExpressionDepth, source⟩ (s.memory traced) line := by
  rw [outcome, h]

theorem Session.exists_placesFor_of_outcome {settings : Settings} {source : Source} {s : Session}
    {line : Text} {traced : Bool} {precision : Operand} {maxDepth : Option Int}
    {reduced : Double × Memory}
    (h : s.outcome settings source line traced precision maxDepth = .ok reduced) :
    ∃ digits, s.placesFor precision = .ok digits := by
  cases hplaces : s.placesFor precision with
  | error fault =>
    rw [outcome, hplaces] at h
    cases h
  | ok digits => exact ⟨digits, rfl⟩

theorem Outcome.result_eq_ok {outcome : Outcome} {x : Double}
    (h : Outcome.result outcome = .ok x) : ∃ after, outcome = .ok (x, after) := by
  cases outcome with
  | ok reduced =>
    obtain rfl := Except.ok.inj h
    exact ⟨reduced.2, rfl⟩
  | error stop => cases h

theorem Outcome.result_eq_error {outcome : Outcome} {failure : Failure}
    (h : Outcome.result outcome = .error failure) :
    ∃ memory, outcome = .error ⟨failure, memory⟩ := by
  cases outcome with
  | ok reduced => cases h
  | error stop =>
    obtain rfl := Except.error.inj h
    exact ⟨stop.memory, rfl⟩

/-- Evaluating a spacing of a well-formed tree within the limits comes to the meaning of the tree,
whose value is the answer left behind. Conversely, a line that evaluates is a spacing of exactly one
well-formed tree, which is within the limits and has the line's outcome as its meaning. -/
theorem evaluate_eq_meaning (settings : Settings) (source : Source) (s : Session)
    (traced : Bool) (precision maxDepth : Option Int) :
    let rules := s.rules settings source precision maxDepth
    let outcome := fun line =>
      s.outcome settings source line traced (.ofPrecision precision) maxDepth
    (∀ (t : Tree) (text : Text), t.WellFormed → t.depth ≤ rules.maxDepth →
      Text.Spaced t.words text → text.length ≤ rules.maxLength →
        Stop.split (outcome text) = (t.meaning rules).outcome (s.memory traced) ∧
        ∀ x after, outcome text = .ok (x, after) → after.answer = x) ∧
    ∀ (line : Text) (x : Double) (after : Memory), outcome line = .ok (x, after) →
      ∃ t : Tree, (t.WellFormed ∧ t.depth ≤ rules.maxDepth ∧
          Text.Spaced t.words line.pointForComma ∧
          (t.meaning rules).outcome (s.memory traced) = (.ok x, after)) ∧
        ∀ t' : Tree, t'.WellFormed → Text.Spaced t'.words line.pointForComma → t' = t := by
  dsimp only
  simp only [Session.outcome_eq]
  constructor
  · intro t text hwell hdepth hs hlength
    have hs' : Text.Spaced t.words text.pointForComma := by
      rwa [hwell.pointForComma_eq_self hs]
    exact ⟨hwell.evaluateLine_spaced hdepth hs' hlength (s.memory traced),
      fun x after => answer_of_evaluateLine_ok⟩
  · intro line x after h
    obtain ⟨t, hwell, hdepth, hs, hlength⟩ := exists_tree_of_evaluateLine h
    have hmeaning := hwell.evaluateLine_spaced hdepth hs hlength (s.memory traced)
    rw [h] at hmeaning
    refine ⟨t, ⟨hwell, hdepth, hs, hmeaning.symm⟩, ?_⟩
    intro t' hwell' hs'
    exact hwell'.eq_of_spaced hwell hs' hs

theorem evaluate_eq_meaning_group :
    let t : Tree := ⟨.add, .group .multiply (.word ['2'] (.word ['3'] .empty))
      (.word answerName .empty)⟩
    let rules := (Session.fresh .usual).rules .usual .lowest none none
    let outcome :=
      (Session.fresh .usual).outcome .usual .lowest "+ (* 2 3) ans".toList false .absent none
    (t.WellFormed ∧ t.depth ≤ rules.maxDepth ∧ Text.Spaced t.words "+ (* 2 3) ans".toList) ∧
      Stop.split outcome = (t.meaning rules).outcome ((Session.fresh .usual).memory false) ∧
      Outcome.result outcome = .ok (.ofNat 12) := by
  intro t rules outcome
  have hwell : t.WellFormed := by decide
  have hdepth : t.depth ≤ rules.maxDepth := by decide
  have hspaced : Text.Spaced t.words "+ (* 2 3) ans".toList := Text.lexemes_eq_iff.1 (by decide)
  have hmeaning := (evaluate_eq_meaning .usual .lowest (.fresh .usual) false none none).1 t
    "+ (* 2 3) ans".toList hwell hdepth hspaced (by decide)
  exact ⟨⟨hwell, hdepth, hspaced⟩, hmeaning.1, by decide +kernel⟩

end PolishCalc
