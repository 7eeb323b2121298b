import PolishCalc.Proofs.Descent.Basic
import PolishCalc.Proofs.Nesting

namespace PolishCalc

namespace Descent

variable {tokens : List Token} {rules : Rules} {rest front tail : List Token} {p : Nat}

structure Account.Meets {α : Type} (P : α → Prop) (Q : Event → Prop) (a : Account α) : Prop where
  value : ∀ x, a.outcome = .ok x → P x
  events : ∀ event ∈ a.events, Q event

namespace Account

variable {α β : Type} {P : α → Prop} {Q : Event → Prop} {a : Account α}

theorem meets_fail (failure : Failure) (memory : Memory) :
    (fail failure memory : Account α).Meets P Q :=
  ⟨nofun, List.forall_mem_nil _⟩

theorem Meets.after {events : List Event} (h : a.Meets P Q) (hevents : ∀ event ∈ events, Q event) :
    (a.after events).Meets P Q :=
  ⟨h.value, List.forall_mem_append.2 ⟨hevents, h.events⟩⟩

theorem Meets.map {P' : β → Prop} {f : α → β} (h : a.Meets P Q) (hf : ∀ x, P x → P' (f x)) :
    (a.map f).Meets P' Q := by
  refine ⟨fun y hy => ?_, h.events⟩
  rw [Account.map] at hy
  cases houtcome : a.outcome with
  | error stop =>
    rw [houtcome] at hy
    cases hy
  | ok x =>
    rw [houtcome] at hy
    obtain rfl := Except.ok.inj hy
    exact hf x (h.value x houtcome)

theorem Meets.bind {P' : β → Prop} {f : α → Account β} (h : a.Meets P Q)
    (hf : ∀ x, P x → (f x).Meets P' Q) : (a.bind f).Meets P' Q := by
  rw [Account.bind]
  split
  · rename_i x houtcome
    exact (hf x (h.value x houtcome)).after h.events
  · exact ⟨nofun, h.events⟩

theorem Meets.calling {low : Nat} {routine : Routine} {caller : Option (Routine × Nat)}
    {start : Nat} {P : Reached low → Prop} {a : Account (Reached low)} (h : a.Meets P Q)
    (hcall : ∀ stop, (∀ q ∈ stop, ∃ r, P r ∧ r.position = q) →
      Q (.call ⟨routine, caller, start, stop⟩)) :
    (Account.calling routine caller start a).Meets P Q := by
  refine h.after (List.forall_mem_singleton.2 (hcall _ fun q hq => ?_))
  cases houtcome : a.outcome with
  | error stop =>
    rw [houtcome] at hq
    cases hq
  | ok r =>
    rw [houtcome] at hq
    exact ⟨r, h.value r houtcome, Option.some.inj hq⟩

end Account

/-- Where a call starts: after the expression that makes it, but where the group does that makes
it. Groups call expressions alone. -/
def StartsBy (routine : Routine) (start : Nat) : Routine × Nat → Prop
  | (.expression, p) => p < start
  | (.group, p) => routine = .expression ∧ start = p

/-- What is claimed of a call: it starts where its caller lets it, and if it returns, it has moved
the position, an expression to the end of its level, a group past the parenthesis that matches the
one in front of it. -/
structure Call.Disciplined (tokens : List Token) (c : Call) : Prop where
  within : c.start ≤ tokens.length
  later : ∀ caller ∈ c.caller, StartsBy c.routine c.start caller
  moves : ∀ q ∈ c.stop, c.start < q
  stop : ∀ q ∈ c.stop, match c.routine with
    | .expression => (Token.outline tokens).EndsLevel c.start q
    | .group => ∃ i j, c.start = i + 1 ∧ (Token.outline tokens).Matches i j ∧ q = j + 1

def measure (tokens : List Token) : Routine × Nat → Nat
  | (.expression, p) => 2 * (tokens.length - p)
  | (.group, p) => 2 * (tokens.length - p) + 1

theorem Call.Disciplined.measure_lt {c : Call} (h : c.Disciplined tokens) {caller : Routine × Nat}
    (hcaller : caller ∈ c.caller) :
    measure tokens (c.routine, c.start) < measure tokens caller := by
  obtain ⟨routine, _, start, _⟩ := c
  have hwithin : start ≤ tokens.length := h.within
  have hlater : StartsBy routine start caller := h.later caller hcaller
  obtain ⟨outer, p⟩ := caller
  cases outer with
  | expression =>
    have hlt : p < start := hlater
    cases routine <;> simp only [measure] <;> omega
  | group =>
    obtain ⟨rfl, rfl⟩ : routine = .expression ∧ start = p := hlater
    exact Nat.lt_succ_self _

def Event.Sound (tokens : List Token) : Event → Prop
  | .look p => p ≤ tokens.length
  | .access p => p < tokens.length
  | .call c => c.Disciplined tokens

theorem meets_reduceAt (rules : Rules) (p : Nat) (pending : Pending) (memory : Memory)
    (Q : Event → Prop) : (reduceAt rules p pending memory).Meets (fun r => r.position = p) Q := by
  refine ⟨fun r hr => ?_, List.forall_mem_nil _⟩
  rw [reduceAt] at hr
  cases hreduce : pending.reduce rules memory with
  | error stop =>
    rw [hreduce] at hr
    cases hr
  | ok reduced =>
    rw [hreduce] at hr
    obtain rfl := Except.ok.inj hr
    rfl

theorem Ahead.outline_eq (h : Ahead tokens p (front ++ tail)) :
    Token.outline tokens =
      Token.outline (tokens.take p) ++ Token.outline front ++ Token.outline tail ∧
    (Token.outline (tokens.take p)).length = p := by
  constructor
  · rw [List.append_assoc, Token.outline, Token.outline, Token.outline, Token.outline,
      ← List.map_append, ← List.map_append, ← h.drop_eq, List.take_append_drop]
  · rw [Token.outline, List.length_map, List.length_take, Nat.min_eq_left h.le]

theorem Ahead.endsLevel (h : Ahead tokens p (front ++ tail)) (hbalanced : Token.Balanced tokens)
    (hfront : Token.Nested front) (htail : Stops tail) :
    (Token.outline tokens).EndsLevel p (p + front.length) := by
  obtain ⟨houtline, hlength⟩ := h.outline_eq
  have hwhole := hbalanced.nested.balanced_outline
  have hstop : ∀ c ∈ (Token.outline tail).head?, c = ')' := by
    intro c hc
    cases tail with
    | nil => cases hc
    | cons token tail =>
      obtain rfl := htail token rfl
      exact (Option.some.inj hc).symm
  rw [houtline] at hwhole ⊢
  have hends := hwhole.endsLevel hfront.balanced_outline hstop
  rwa [hlength, Token.outline, Token.outline, List.length_map] at hends

theorem Ahead.matches {inner : List Token}
    (h : Ahead tokens p (.opening :: (inner ++ .closing :: rest))) (hinner : Token.Nested inner) :
    (Token.outline tokens).Matches p (p + inner.length + 1) := by
  have hsplit : Ahead tokens p ([] ++ .opening :: (inner ++ .closing :: rest)) := h
  obtain ⟨houtline, hlength⟩ := hsplit.outline_eq
  refine ⟨_, Token.outline inner, Token.outline rest, ?_, hlength, ?_, hinner.balanced_outline⟩
  · rw [houtline]
    simp [Token.outline]
  · rw [Token.outline, List.length_map]

structure Moves (tokens : List Token) (rules : Rules) (inner : List Token) : Prop where
  expression : ∀ (caller : Option (Routine × Nat)) (depth p : Nat) (memory : Memory)
    (tail : List Token), (∀ c ∈ caller, StartsBy .expression p c) →
    Ahead tokens p (inner ++ tail) → Stops tail →
    (expression tokens rules caller depth p memory).Meets (fun r => r.position = p + inner.length)
      (Event.Sound tokens)
  operands : ∀ (start depth p : Nat) (pending : Pending) (memory : Memory) (tail : List Token),
    start < p → Ahead tokens p (inner ++ tail) → Stops tail →
    (operands tokens rules start depth p pending memory).Meets
      (fun r => r.position = p + inner.length) (Event.Sound tokens)

section

variable {inner : List Token} {caller : Option (Routine × Nat)} {start depth : Nat}
  {pending : Pending} {memory : Memory}

theorem sound_looks (h : p < tokens.length) :
    (∀ event ∈ [Event.look p], event.Sound tokens) ∧
      ∀ event ∈ [Event.access p], event.Sound tokens :=
  ⟨List.forall_mem_singleton.2 (Nat.le_of_lt h), List.forall_mem_singleton.2 h⟩

theorem meets_expression (hbalanced : Token.Balanced tokens) (hinner : Token.Nested inner)
    (hcaller : ∀ c ∈ caller, StartsBy .expression p c) (h : Ahead tokens p (inner ++ tail))
    (htail : Stops tail)
    {a : Account (Reached (p + 1))}
    (ha : a.Meets (fun r => r.position = p + inner.length) (Event.Sound tokens)) :
    (Account.calling .expression caller p
      (if rules.maxDepth < depth then .fail (.tooDeep rules.maxDepth) memory
        else .after [.look p] a)).Meets (fun r => r.position = p + inner.length)
      (Event.Sound tokens) := by
  refine Account.Meets.calling ?_ fun stop hstop =>
    ⟨h.le, hcaller, fun q hq => ?_, fun q hq => ?_⟩
  · split
    · exact Account.meets_fail _ _
    · exact ha.after (List.forall_mem_singleton.2 h.le)
  · obtain ⟨r, -, rfl⟩ := hstop q hq
    exact r.low_le
  · obtain ⟨r, hr, rfl⟩ := hstop q hq
    rw [hr]
    exact h.endsLevel hbalanced hinner htail

theorem meets_invalid (hbalanced : Token.Balanced tokens) (hinner : Token.Nested inner)
    (hcaller : ∀ c ∈ caller, StartsBy .expression p c) (h : Ahead tokens p (inner ++ tail))
    (htail : Stops tail)
    (hinvalid : ∀ op, (inner ++ tail).head? ≠ some (.operator op)) :
    (expression tokens rules caller depth p memory).Meets (fun r => r.position = p + inner.length)
      (Event.Sound tokens) := by
  rw [expression_invalid (h.getElem? ▸ hinvalid)]
  exact meets_expression hbalanced hinner hcaller h htail (Account.meets_fail _ _)

theorem meets_group (hinner : Token.Nested inner)
    (hmoves : Moves tokens rules inner) (hcaller : start < p)
    (h : Ahead tokens p (.opening :: (inner ++ .closing :: rest))) :
    (group tokens rules start depth (p + 1) memory).Meets
      (fun r => r.position = p + inner.length + 2) (Event.Sound tokens) := by
  rw [group]
  refine Account.Meets.calling ?_ fun stop hstop => ⟨h.next.le, ?_, fun q hq => ?_, fun q hq => ?_⟩
  · refine Account.Meets.after ?_ (List.forall_mem_singleton.2 h.next.le)
    split
    · exact Account.meets_fail _ _
    · refine (hmoves.expression (some (.group, p + 1)) depth (p + 1) memory (.closing :: rest) ?_
        h.next ?_).map fun r hr => ?_
      · exact fun c hc => Option.some.inj hc ▸ ⟨rfl, rfl⟩
      · exact fun token htoken => (Option.some.inj htoken).symm
      · dsimp only
        omega
  · exact fun c hc => Option.some.inj hc ▸ Nat.lt_succ_of_lt hcaller
  · obtain ⟨r, -, rfl⟩ := hstop q hq
    exact r.low_le
  · obtain ⟨r, hr, rfl⟩ := hstop q hq
    exact ⟨p, _, rfl, h.matches hinner, hr⟩

end

theorem moves_of_nested (hbalanced : Token.Balanced tokens) (rules : Rules) {inner : List Token}
    (hinner : Token.Nested inner) : Moves tokens rules inner := by
  induction hinner with
  | nil =>
    constructor
    · intro caller depth p memory tail hcaller h htail
      refine meets_invalid hbalanced .nil hcaller h htail fun op hop => ?_
      cases htail _ hop
    · intro start depth p pending memory tail hstart h htail
      rw [operands_stop (h.getElem? ▸ htail)]
      exact (meets_reduceAt rules p pending memory _).after (List.forall_mem_singleton.2 h.le)
  | @operator op rest hrest ih =>
    have hexpression : ∀ (caller : Option (Routine × Nat)) (depth p : Nat) (memory : Memory)
        (tail : List Token), (∀ c ∈ caller, StartsBy .expression p c) →
        Ahead tokens p (.operator op :: (rest ++ tail)) → Stops tail →
        (expression tokens rules caller depth p memory).Meets
          (fun r => r.position = p + (Token.operator op :: rest).length) (Event.Sound tokens) := by
      intro caller depth p memory tail hcaller h htail
      rw [expression_operator h.getElem?]
      refine meets_expression hbalanced (.operator op hrest) hcaller h htail ?_
      rw [List.length_cons, Nat.add_comm rest.length, ← Nat.add_assoc]
      exact ih.operands p depth (p + 1) _ memory tail (Nat.lt_succ_self p) h.next htail
    refine ⟨hexpression, ?_⟩
    intro start depth p pending memory tail hstart h htail
    obtain ⟨hlook, haccess⟩ := sound_looks h.lt
    rw [operands_operator h.getElem?]
    refine .after (.after ?_ haccess) hlook
    refine (hexpression (some (.expression, start)) (depth + 1) p memory tail ?_ h
      htail).bind fun r hr => ?_
    · exact fun c hc => Option.some.inj hc ▸ hstart
    · exact (meets_reduceAt rules r.position _ r.memory _).map fun r' hr' => hr'.trans hr
  | @operand text rest hrest ih =>
    constructor
    · intro caller depth p memory tail hcaller h htail
      refine meets_invalid hbalanced (.operand text hrest) hcaller h htail fun op hop => ?_
      cases hop
    · intro start depth p pending memory tail hstart h htail
      obtain ⟨hlook, haccess⟩ := sound_looks h.lt
      rw [operands_operand h.getElem?]
      refine .after (.after ?_ haccess) hlook
      split
      · refine (ih.operands start depth (p + 1) _ memory tail (Nat.lt_succ_of_lt hstart) h.next
          htail).map fun r hr => ?_
        exact hr.trans (by rw [List.length_cons]; omega)
      · exact Account.meets_fail _ _
  | @group inner rest hinner hrest ihInner ihRest =>
    constructor
    · intro caller depth p memory tail hcaller h htail
      refine meets_invalid hbalanced (.group hinner hrest) hcaller h htail fun op hop => ?_
      cases hop
    · intro start depth p pending memory tail hstart h htail
      obtain ⟨hlook, haccess⟩ := sound_looks h.lt
      have hgroup : Ahead tokens p (.opening :: (inner ++ .closing :: (rest ++ tail))) := by
        simpa using h
      rw [operands_opening h.getElem?]
      refine .after (.after ?_ haccess) hlook
      refine (meets_group hinner ihInner hstart hgroup).bind fun r hr => ?_
      have hnext : Ahead tokens r.position (rest ++ tail) := hgroup.past_group hr
      have hlater : start < r.position := hstart.trans (Nat.lt_of_succ_lt r.low_le)
      refine (ihRest.operands start depth r.position _ r.memory tail hlater hnext htail).map
        fun r' hr' => ?_
      refine hr'.trans ?_
      simp only [hr, List.length_cons, List.length_append]
      omega

end Descent

end PolishCalc
