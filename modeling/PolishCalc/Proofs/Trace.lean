import PolishCalc.Proofs.Recording
import PolishCalc.Proofs.RunningAnswer

namespace PolishCalc

structure Place where
  position : Nat
  tree : Tree
  deriving DecidableEq

namespace Place

def stop (c : Place) : Nat :=
  c.position + c.tree.tokens.length

def Spelled (tokens : List Token) (c : Place) : Prop :=
  c.tree.tokens <+: tokens.drop c.position

def Within (c d : Place) : Prop :=
  d.position < c.position ∧ c.stop ≤ d.stop

def Before (c d : Place) : Prop :=
  c.stop ≤ d.position

theorem position_lt_stop (c : Place) : c.position < c.stop := by
  simp [stop, Tree.tokens]

theorem ne_of_within_or_before {c d : Place} (h : c.Within d ∨ c.Before d) :
    c.position ≠ d.position := by
  have := c.position_lt_stop
  rcases h with h | h
  · exact Nat.ne_of_gt h.1
  · exact Nat.ne_of_lt (Nat.lt_of_lt_of_le this h)

end Place

def Operands.places (p : Nat) : Operands → List Place
  | .empty => []
  | .word _ rest => rest.places (p + 1)
  | .group op inner rest =>
    inner.places (p + 2) ++ [⟨p + 1, ⟨op, inner⟩⟩] ++ rest.places (p + 2 + inner.tokens.length + 1)
  | .chain op inner => inner.places (p + 1) ++ [⟨p, ⟨op, inner⟩⟩]

def Tree.places (t : Tree) : List Place :=
  t.operands.places 1 ++ [⟨0, t⟩]

def Token.isOperator : Token → Bool
  | .operator _ => true
  | _ => false

def operatorPositions (tokens : List Token) : List Nat :=
  (List.range tokens.length).filter fun i => tokens[i]?.any Token.isOperator

theorem Token.exists_operator {token : Token} (h : token.isOperator = true) :
    ∃ op, token = .operator op := by
  cases token with
  | operator op => exact ⟨op, rfl⟩
  | _ => cases h

structure Listed (tokens : List Token) (low high : Nat) (cs : List Place) : Prop where
  spelled : ∀ c ∈ cs, c.Spelled tokens
  inside : ∀ c ∈ cs, low ≤ c.position ∧ c.stop ≤ high
  every : ∀ i op, low ≤ i → i < high → tokens[i]? = some (.operator op) → ∃ c ∈ cs, c.position = i
  ordered : cs.Pairwise fun c d => c.Within d ∨ c.Before d

namespace Listed

variable {tokens : List Token} {low middle high : Nat} {cs ds : List Place}

theorem nil (low : Nat) : Listed tokens low low [] :=
  ⟨by simp, by simp, fun i _ hlow hhigh => by omega, .nil⟩

theorem nodup (h : Listed tokens low high cs) : (cs.map Place.position).Nodup :=
  List.pairwise_map.2 (h.ordered.imp Place.ne_of_within_or_before)

theorem skip (h : Listed tokens (low + 1) high cs)
    (htoken : ∀ op, tokens[low]? ≠ some (.operator op)) : Listed tokens low high cs where
  spelled := h.spelled
  inside c hc := ⟨Nat.le_of_succ_le (h.inside c hc).1, (h.inside c hc).2⟩
  every := by
    intro i op hlow hhigh hoperator
    rcases Nat.eq_or_lt_of_le hlow with rfl | hlow
    · exact absurd hoperator (htoken op)
    · exact h.every i op hlow hhigh hoperator
  ordered := h.ordered

theorem append (h : Listed tokens low middle cs) (h' : Listed tokens middle high ds)
    (hlow : low ≤ middle) (hhigh : middle ≤ high) : Listed tokens low high (cs ++ ds) where
  spelled := List.forall_mem_append.2 ⟨h.spelled, h'.spelled⟩
  inside := by
    refine List.forall_mem_append.2 ⟨fun c hc => ?_, fun d hd => ?_⟩
    · exact ⟨(h.inside c hc).1, (h.inside c hc).2.trans hhigh⟩
    · exact ⟨hlow.trans (h'.inside d hd).1, (h'.inside d hd).2⟩
  every := by
    intro i op hi hi' hoperator
    rcases Nat.lt_or_ge i middle with hmiddle | hmiddle
    · obtain ⟨c, hc, hposition⟩ := h.every i op hi hmiddle hoperator
      exact ⟨c, List.mem_append_left _ hc, hposition⟩
    · obtain ⟨c, hc, hposition⟩ := h'.every i op hmiddle hi' hoperator
      exact ⟨c, List.mem_append_right _ hc, hposition⟩
  ordered := List.pairwise_append.2 ⟨h.ordered, h'.ordered, fun c hc d hd =>
    .inr ((h.inside c hc).2.trans (h'.inside d hd).1)⟩

theorem finish {t : Tree} (h : Listed tokens (low + 1) high cs)
    (hspelled : t.tokens <+: tokens.drop low) (hhigh : low + t.tokens.length = high) :
    Listed tokens low high (cs ++ [⟨low, t⟩]) where
  spelled := List.forall_mem_append.2 ⟨h.spelled, by simpa [Place.Spelled] using hspelled⟩
  inside := by
    refine List.forall_mem_append.2 ⟨fun c hc => ?_, ?_⟩
    · exact ⟨Nat.le_of_succ_le (h.inside c hc).1, (h.inside c hc).2⟩
    · simp [Place.stop, hhigh]
  every := by
    intro i op hlow hi hoperator
    rcases Nat.eq_or_lt_of_le hlow with rfl | hlow
    · exact ⟨⟨low, t⟩, by simp, rfl⟩
    · obtain ⟨c, hc, hposition⟩ := h.every i op hlow hi hoperator
      exact ⟨c, List.mem_append_left _ hc, hposition⟩
  ordered := by
    refine List.pairwise_append.2 ⟨h.ordered, List.pairwise_singleton _ _, fun c hc d hd => ?_⟩
    obtain rfl := List.mem_singleton.1 hd
    exact .inl ⟨(h.inside c hc).1, (h.inside c hc).2.trans hhigh.ge⟩

theorem perm_operatorPositions (h : Listed tokens 0 tokens.length cs) :
    (cs.map Place.position).Perm (operatorPositions tokens) := by
  refine (List.perm_ext_iff_of_nodup h.nodup (List.nodup_range.filter _)).2 fun i => ?_
  rw [List.mem_filter, List.mem_range, List.mem_map]
  constructor
  · rintro ⟨c, hc, rfl⟩
    obtain ⟨tail, htail⟩ := h.spelled c hc
    have hposition : tokens[c.position]? = some (.operator c.tree.operator) := by
      rw [← List.head?_drop, ← htail]
      rfl
    refine ⟨c.position_lt_stop.trans_le (h.inside c hc).2, ?_⟩
    rw [hposition]
    rfl
  · rintro ⟨hi, hoperator⟩
    rw [List.getElem?_eq_getElem hi, Option.any_some] at hoperator
    obtain ⟨op, hop⟩ := Token.exists_operator hoperator
    exact h.every i op (Nat.zero_le i) hi (by rw [List.getElem?_eq_getElem hi, hop])

end Listed

theorem Operands.listed_places {tokens tail : List Token} {p : Nat} {operands : Operands}
    (h : tokens.drop p = operands.tokens ++ tail) :
    Listed tokens p (p + operands.tokens.length) (operands.places p) := by
  -- Each operand lists a stretch of the tokens; the stretches follow each other.
  induction operands generalizing p tail with
  | empty => exact .nil p
  | word text rest ih =>
    obtain ⟨htoken, hrest⟩ := drop_eq_cons h
    have hlength : p + (word text rest).tokens.length = p + 1 + rest.tokens.length := by
      simp only [Operands.tokens, List.length_cons]
      omega
    rw [hlength]
    exact (ih hrest).skip (by simp [htoken])
  | group op inner rest ihInner ihRest =>
    rw [Operands.tokens, List.cons_append, List.cons_append, List.append_assoc] at h
    obtain ⟨hopening, htree⟩ := drop_eq_cons h
    obtain ⟨-, hinner⟩ := drop_eq_cons htree
    obtain ⟨hclosing, hrest⟩ := drop_eq_cons (drop_eq_append hinner)
    have hspelled : Tree.tokens ⟨op, inner⟩ <+: tokens.drop (p + 1) := by
      rw [htree]
      exact ⟨_, rfl⟩
    have hlength : p + (group op inner rest).tokens.length =
        p + 2 + inner.tokens.length + 1 + rest.tokens.length := by
      simp only [Operands.tokens, List.length_cons, List.length_append]
      omega
    have htreeLength : p + 1 + (Tree.tokens ⟨op, inner⟩).length = p + 2 + inner.tokens.length := by
      simp only [Tree.tokens, List.length_cons]
      omega
    have hgroup := ((ihInner hinner).finish hspelled htreeLength).skip (by simp [hopening])
    rw [hlength]
    exact hgroup.append ((ihRest hrest).skip (by simp [hclosing])) (by omega) (by omega)
  | chain op inner ih =>
    obtain ⟨-, hinner⟩ := drop_eq_cons h
    have hlength : p + (Tree.tokens ⟨op, inner⟩).length = p + 1 + inner.tokens.length := by
      simp only [Tree.tokens, List.length_cons]
      omega
    have hspelled : Tree.tokens ⟨op, inner⟩ <+: tokens.drop p := ⟨tail, h.symm⟩
    have hchain := (ih hinner).finish hspelled hlength
    rwa [← hlength] at hchain

theorem Tree.listed_places (t : Tree) : Listed t.tokens 0 t.tokens.length t.places := by
  have hlength : 1 + t.operands.tokens.length = t.tokens.length := Nat.add_comm _ _
  have hoperands : Listed t.tokens 1 (1 + t.operands.tokens.length) (t.operands.places 1) :=
    Operands.listed_places (List.append_nil _).symm
  rw [hlength] at hoperands
  exact hoperands.finish List.prefix_rfl (Nat.zero_add _)

structure Tree.EndsWith (rules : Rules) (t : Tree) (before : Memory) (r : Reduction)
    (after : Memory) : Prop where
  collected : ∃ level start operands, t.operands.collect rules level ⟨t.operator, []⟩ start =
    .ok (⟨t.operator, operands⟩, before) ∧
      Pending.reduce rules before ⟨t.operator, operands⟩ = .ok (r.result, after)
  operator : r.operator = t.operator
  recorded : after.reductions = r :: before.reductions

inductive Finished (rules : Rules) (start : Memory) : List Place → List Reduction → Memory → Prop
  | none : Finished rules start [] [] start
  | next {cs rs before c r after} : Finished rules start cs rs before →
      c.tree.EndsWith rules before r after → Finished rules start (cs ++ [c]) (rs ++ [r]) after

namespace Finished

variable {rules : Rules} {start middle after : Memory} {cs ds : List Place}
  {rs rs' : List Reduction}

theorem trans (h : Finished rules start cs rs middle) (h' : Finished rules middle ds rs' after) :
    Finished rules start (cs ++ ds) (rs ++ rs') after := by
  induction h' with
  | none => rwa [List.append_nil, List.append_nil]
  | next _ hlast ih =>
    rw [← List.append_assoc, ← List.append_assoc]
    exact ih.next hlast

theorem reductions_eq (h : Finished rules start cs rs after) :
    after.reductions = rs.reverse ++ start.reductions := by
  induction h with
  | none => rfl
  | next _ hlast ih => simp [hlast.recorded, ih]

end Finished

namespace Operands

variable {rules : Rules} {operands : Operands} {level : Nat} {memory : Memory}

theorem operator_of_collect {p : Pending} {collected : Pending × Memory}
    (h : operands.collect rules level p memory = .ok collected) :
    collected.1.operator = p.operator := by
  induction operands generalizing p memory with
  | empty =>
    obtain rfl := Except.ok.inj h
    rfl
  | word text rest ih =>
    rw [collect] at h
    split at h
    · exact (ih h).trans rfl
    · cases h
  | group op inner rest _ ihRest =>
    rw [collect] at h
    split at h
    · cases h
    obtain ⟨_, -, h⟩ := bind_eq_ok h
    obtain ⟨_, -, h⟩ := bind_eq_ok h
    exact (ihRest h).trans rfl
  | chain op inner _ =>
    rw [collect] at h
    split at h
    · cases h
    obtain ⟨_, -, h⟩ := bind_eq_ok h
    obtain ⟨_, -, rfl⟩ := map_eq_ok h
    rfl

theorem endsWith {op : Operator} {collected : Pending × Memory} {x : Double} {after : Memory}
    (hcollect : operands.collect rules level ⟨op, []⟩ memory = .ok collected)
    (hreduce : collected.1.reduce rules collected.2 = .ok (x, after)) :
    ∃ r, Tree.EndsWith rules ⟨op, operands⟩ collected.2 r after := by
  have hoperator : collected.1.operator = op := operator_of_collect hcollect
  obtain ⟨⟨_, values⟩, before⟩ := collected
  dsimp only at hoperator
  subst hoperator
  obtain ⟨-, _, _, -, -, -, rfl⟩ := Pending.reduce_ok hreduce
  exact ⟨_, ⟨level, memory, values, hcollect, hreduce⟩, rfl, rfl⟩

theorem exists_finished {p : Pending} {collected : Pending × Memory}
    (h : operands.collect rules level p memory = .ok collected) (position : Nat) :
    ∃ rs, Finished rules memory (operands.places position) rs collected.2 := by
  induction operands generalizing level p memory position collected with
  | empty =>
    obtain rfl := Except.ok.inj h
    exact ⟨[], .none⟩
  | word text rest ih =>
    rw [collect] at h
    split at h
    · exact ih h (position + 1)
    · cases h
  | group op inner rest ihInner ihRest =>
    rw [collect] at h
    split at h
    · cases h
    obtain ⟨middle, hinner, h⟩ := bind_eq_ok h
    obtain ⟨⟨x, reduced⟩, hreduce, hrest⟩ := bind_eq_ok h
    obtain ⟨rs, hrs⟩ := ihInner hinner (position + 2)
    obtain ⟨r, hr⟩ := endsWith hinner hreduce
    obtain ⟨rs', hrs'⟩ := ihRest hrest (position + 2 + inner.tokens.length + 1)
    exact ⟨_, (hrs.next hr).trans hrs'⟩
  | chain op inner ih =>
    rw [collect] at h
    split at h
    · cases h
    obtain ⟨middle, hinner, h⟩ := bind_eq_ok h
    obtain ⟨⟨x, reduced⟩, hreduce, rfl⟩ := map_eq_ok h
    obtain ⟨rs, hrs⟩ := ih hinner (position + 1)
    obtain ⟨r, hr⟩ := endsWith hinner hreduce
    exact ⟨_, hrs.next hr⟩

end Operands

/-- The reductions of a tree that has been evaluated: one for each operator among its tokens, in the
order in which the expressions end, the tree itself last. -/
structure Tree.Trace (rules : Rules) (start : Memory) (t : Tree) (rs : List Reduction)
    (after : Memory) : Prop where
  finished : Finished rules start t.places rs after
  listed : Listed t.tokens 0 t.tokens.length t.places
  positions : (t.places.map Place.position).Perm (operatorPositions t.tokens)
  last : t.places.getLast? = some ⟨0, t⟩

theorem Tree.exists_trace {rules : Rules} {memory after : Memory} {t : Tree} {x : Double}
    (h : t.evaluate rules memory = .ok (x, after)) : ∃ rs, t.Trace rules memory rs after := by
  rw [evaluate] at h
  split at h
  · cases h
  obtain ⟨collected, hcollect, hreduce⟩ := bind_eq_ok h
  obtain ⟨rs, hrs⟩ := Operands.exists_finished hcollect 1
  obtain ⟨r, hr⟩ := Operands.endsWith hcollect hreduce
  exact ⟨rs ++ [r], hrs.next hr, t.listed_places, t.listed_places.perm_operatorPositions,
    by simp [places]⟩

theorem exists_trace_of_evaluateLine {rules : Rules} {memory after : Memory} {line : Text}
    {x : Double} (h : evaluateLine rules memory line = .ok (x, after)) :
    ∃ t rs, readLine rules.maxLength line = .ok (Tree.tokens t) ∧
      t.Trace rules memory rs after := by
  obtain ⟨t, hwell, -, hspaced, hlength⟩ := exists_tree_of_evaluateLine h
  have hread := hwell.readLine_spaced hspaced hlength
  rw [hwell.grammatical.evaluateLine_eq hspaced hlength] at h
  obtain ⟨rs, hrs⟩ := Tree.exists_trace h
  exact ⟨t, rs, hread, hrs⟩

namespace Session

/-- An evaluation ends alike whether it is traced or not: with the same failure or the same number,
and with the same session. The steps of one that succeeds are those of the tree that the line
spells. What is recorded has no influence on what follows. -/
theorem trace_of_evaluate (settings : Settings) (source : Source) (s : Session) (line : Text)
    (precision maxDepth : Option Int) :
    let rules := s.rules settings source precision maxDepth
    let done := fun traced =>
      s.perform settings source (.evaluate line traced (.ofPrecision precision) maxDepth)
    (done true).2 = (done false).2 ∧
    ((∃ failure, (done true).1 = .error failure ∧ (done false).1 = .error failure) ∨
      ∃ x t rs after, (done true).1 = .ok (.traced x (rs.map Reduction.text)) ∧
        (done false).1 = .ok (.number x) ∧
        readLine settings.maxInputLength line = .ok (Tree.tokens t) ∧
        t.Trace rules (s.memory true) rs after ∧ (done true).2 = s.adopt after) ∧
    ∀ traced earlier, evaluateLine rules ((s.memory traced).recordedAfter earlier) line =
      Outcome.recordedAfter (evaluateLine rules (s.memory traced) line) earlier := by
  intro rules done
  have hsession : (done true).2 = (done false).2 :=
    s.adopt_outcome settings source line true (.ofPrecision precision) maxDepth
  refine ⟨hsession, ?_, fun traced => evaluateLine_recordedAfter rules (s.memory traced) line⟩
  have huntraced : done false = s.withOutcome (s.outcome settings source line false
      (.ofPrecision precision) maxDepth) .number :=
    s.perform_evaluate_untraced settings source line (.ofPrecision precision) maxDepth
  have hresult := s.result_outcome settings source line true (.ofPrecision precision) maxDepth
  have hsteps := s.steps_outcome settings source line true (.ofPrecision precision) maxDepth
  rw [huntraced, withOutcome, ← hresult]
  simp only [done, perform, hsteps]
  rw [outcome_eq]
  cases h : evaluateLine rules (s.memory true) line with
  | error stop => exact .inl ⟨stop.failure, rfl, rfl⟩
  | ok reduced =>
    obtain ⟨x, after⟩ := reduced
    obtain ⟨t, rs, hread, hrs⟩ := exists_trace_of_evaluateLine h
    have hreductions : after.reductions.reverse = rs := by
      rw [hrs.finished.reductions_eq]
      simp [memory]
    refine .inr ⟨x, t, rs, after, ?_, rfl, hread, hrs, rfl⟩
    rw [← hreductions]
    rfl

example : Outcome.steps ((fresh .usual).outcome .usual .lowest "+ (* 2 3) (- 9 / 8 2)".toList true
    .absent none) =
      some ["* 2 3".toList, "/ 8 2".toList, "- 9 4".toList, "+ 6 5".toList] := by
  decide +kernel

end Session

end PolishCalc
