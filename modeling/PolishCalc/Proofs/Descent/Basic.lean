import PolishCalc.Proofs.RunningAnswer

/-!
Evaluation as a recursive descent. `expression` and `group` call each other; a position goes from
call to call and only moves forward, which is why the recursion ends.
-/

namespace PolishCalc

namespace Descent

inductive Routine where
  | expression
  | group
  deriving DecidableEq

/-- A call: what has called it and where that started, where it starts, and where it leaves the
position if it returns. A group starts after its opening parenthesis. -/
structure Call where
  routine : Routine
  caller : Option (Routine × Nat)
  start : Nat
  stop : Option Nat
  deriving DecidableEq

inductive Event where
  | look (position : Nat)
  | access (position : Nat)
  | call (call : Call)
  deriving DecidableEq

structure Account (α : Type) where
  outcome : Except Stop α
  events : List Event

namespace Account

variable {α β : Type}

def fail (failure : Failure) (memory : Memory) : Account α :=
  ⟨.error ⟨failure, memory⟩, []⟩

def after (events : List Event) (a : Account α) : Account α :=
  { a with events := events ++ a.events }

def map (f : α → β) (a : Account α) : Account β :=
  ⟨a.outcome.map f, a.events⟩

def bind (a : Account α) (f : α → Account β) : Account β :=
  match a.outcome with
  | .ok x => (f x).after a.events
  | .error stop => ⟨.error stop, a.events⟩

end Account

structure Reached (low : Nat) where
  value : Double
  position : Nat
  memory : Memory
  low_le : low ≤ position

def Reached.weaken {low high : Nat} (h : low ≤ high) (r : Reached high) : Reached low :=
  { r with low_le := h.trans r.low_le }

def Account.calling {low : Nat} (routine : Routine) (caller : Option (Routine × Nat))
    (start : Nat) (a : Account (Reached low)) : Account (Reached low) :=
  a.after [.call ⟨routine, caller, start, a.outcome.toOption.map Reached.position⟩]

def reduceAt (rules : Rules) (p : Nat) (pending : Pending) (memory : Memory) :
    Account (Reached p) :=
  ⟨(pending.reduce rules memory).map fun reduced => ⟨reduced.1, p, reduced.2, le_rfl⟩, []⟩

variable (tokens : List Token) (rules : Rules)

mutual

def expression (caller : Option (Routine × Nat)) (depth p : Nat) (memory : Memory) :
    Account (Reached (p + 1)) :=
  .calling .expression caller p <|
    if rules.maxDepth < depth then .fail (.tooDeep rules.maxDepth) memory
    else .after [.look p] <|
      if h : p < tokens.length then
        match tokens[p] with
        | .operator op => operands p depth (p + 1) ⟨op, []⟩ memory
        | token => .fail (.reported (.invalidSymbol (some token.text))) memory
      else .fail (.reported (.invalidSymbol none)) memory
termination_by 3 * (tokens.length - p)

def operands (start depth p : Nat) (pending : Pending) (memory : Memory) : Account (Reached p) :=
  .after [.look p] <|
    if h : p < tokens.length then
      match tokens[p] with
      | .closing => reduceAt rules p pending memory
      | .opening =>
        .after [.access p] <| (group start (depth + 1) (p + 1) memory).bind fun r =>
          have := r.low_le
          (operands start depth r.position (pending.push r.value) r.memory).map
            (.weaken (Nat.le_of_succ_le (Nat.le_of_succ_le r.low_le)))
      | .operator _ =>
        .after [.access p] <|
          (expression (some (.expression, start)) (depth + 1) p memory).bind fun r =>
            (reduceAt rules r.position (pending.push r.value) r.memory).map
              (.weaken (Nat.le_of_succ_le r.low_le))
      | .operand text =>
        .after [.access p] <|
          match operandValue? memory.answer text with
          | some x =>
            (operands start depth (p + 1) (pending.push x) memory).map (.weaken (Nat.le_succ p))
          | none => .fail (.reported (.invalidNumber text)) memory
    else reduceAt rules p pending memory
termination_by 3 * (tokens.length - p) + 2

/-- What stands between the parentheses that open in front of `start`, with the depth of its
expression. The position is moved past the token after it without a look at it. -/
def group (caller depth start : Nat) (memory : Memory) : Account (Reached (start + 1)) :=
  .calling .group (some (.expression, caller)) start <| .after [.look start] <|
    if tokens[start]? = some .closing then .fail (.reported .emptyParentheses) memory
    else
      (expression (some (.group, start)) depth start memory).map fun r =>
        ⟨r.value, r.position + 1, r.memory, Nat.le_succ_of_le r.low_le⟩
termination_by 3 * (tokens.length - start) + 1

end

def run (memory : Memory) : Account (Reached 1) :=
  expression tokens rules none 1 0 memory

structure Ahead (tokens : List Token) (p : Nat) (rest : List Token) : Prop where
  le : p ≤ tokens.length
  drop_eq : tokens.drop p = rest

def Stops (tail : List Token) : Prop :=
  ∀ token ∈ tail.head?, token = .closing

variable {tokens rules} {rest front tail : List Token} {token : Token} {p : Nat}

namespace Ahead

theorem getElem? (h : Ahead tokens p rest) : tokens[p]? = rest.head? := by
  rw [← List.head?_drop, h.drop_eq]

theorem lt (h : Ahead tokens p (token :: rest)) : p < tokens.length :=
  (List.getElem?_eq_some_iff.1 h.getElem?).1

theorem next (h : Ahead tokens p (token :: rest)) : Ahead tokens (p + 1) rest :=
  ⟨h.lt, (drop_eq_cons h.drop_eq).2⟩

theorem skip (h : Ahead tokens p (front ++ rest)) : Ahead tokens (p + front.length) rest := by
  refine ⟨?_, drop_eq_append h.drop_eq⟩
  have hlength := congrArg List.length h.drop_eq
  have := h.le
  rw [List.length_drop, List.length_append] at hlength
  omega

theorem past_group {inner : List Token} {q : Nat}
    (h : Ahead tokens p (.opening :: (inner ++ .closing :: rest)))
    (hq : q = p + inner.length + 2) : Ahead tokens q rest := by
  rw [hq, show p + inner.length + 2 = p + 1 + inner.length + 1 by omega]
  exact h.next.skip.next

end Ahead

section

variable {caller : Option (Routine × Nat)} {start depth : Nat} {pending : Pending} {memory : Memory}

theorem expression_operator {op : Operator} (h : tokens[p]? = some (.operator op)) :
    expression tokens rules caller depth p memory = .calling .expression caller p
      (if rules.maxDepth < depth then .fail (.tooDeep rules.maxDepth) memory
        else .after [.look p] (operands tokens rules p depth (p + 1) ⟨op, []⟩ memory)) := by
  obtain ⟨hp, htoken⟩ := List.getElem?_eq_some_iff.1 h
  rw [expression, dif_pos hp, htoken]

theorem expression_invalid (h : ∀ op, tokens[p]? ≠ some (.operator op)) :
    expression tokens rules caller depth p memory = .calling .expression caller p
      (if rules.maxDepth < depth then .fail (.tooDeep rules.maxDepth) memory
        else .after [.look p]
          (.fail (.reported (.invalidSymbol (tokens[p]?.map Token.text))) memory)) := by
  rw [expression]
  by_cases hp : p < tokens.length
  · rw [List.getElem?_eq_getElem hp] at h ⊢
    rw [dif_pos hp]
    generalize tokens[p] = token at h
    cases token with
    | operator op => exact absurd rfl (h op)
    | _ => rfl
  · rw [dif_neg hp, List.getElem?_eq_none (Nat.not_lt.1 hp), Option.map_none]

theorem operands_stop (h : ∀ token ∈ tokens[p]?, token = .closing) :
    operands tokens rules start depth p pending memory =
      .after [.look p] (reduceAt rules p pending memory) := by
  rw [operands]
  by_cases hp : p < tokens.length
  · have htoken : tokens[p] = .closing := h _ (List.getElem?_eq_getElem hp)
    rw [dif_pos hp, htoken]
  · rw [dif_neg hp]

theorem operands_opening (h : tokens[p]? = some .opening) :
    operands tokens rules start depth p pending memory = .after [.look p] (.after [.access p]
      ((group tokens rules start (depth + 1) (p + 1) memory).bind fun r =>
        (operands tokens rules start depth r.position (pending.push r.value) r.memory).map
          (.weaken (Nat.le_of_succ_le (Nat.le_of_succ_le r.low_le))))) := by
  obtain ⟨hp, htoken⟩ := List.getElem?_eq_some_iff.1 h
  rw [operands, dif_pos hp, htoken]

theorem operands_operator {op : Operator} (h : tokens[p]? = some (.operator op)) :
    operands tokens rules start depth p pending memory = .after [.look p] (.after [.access p]
      ((expression tokens rules (some (.expression, start)) (depth + 1) p memory).bind fun r =>
        (reduceAt rules r.position (pending.push r.value) r.memory).map
          (.weaken (Nat.le_of_succ_le r.low_le)))) := by
  obtain ⟨hp, htoken⟩ := List.getElem?_eq_some_iff.1 h
  rw [operands, dif_pos hp, htoken]

theorem operands_operand {text : Text} (h : tokens[p]? = some (.operand text)) :
    operands tokens rules start depth p pending memory = .after [.look p] (.after [.access p]
      (match operandValue? memory.answer text with
        | some x => (operands tokens rules start depth (p + 1) (pending.push x) memory).map
            (.weaken (Nat.le_succ p))
        | none => .fail (.reported (.invalidNumber text)) memory)) := by
  obtain ⟨hp, htoken⟩ := List.getElem?_eq_some_iff.1 h
  rw [operands, dif_pos hp, htoken]

end

end Descent

end PolishCalc
