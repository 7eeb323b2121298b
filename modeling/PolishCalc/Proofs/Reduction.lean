import PolishCalc.Expression.Tree

namespace PolishCalc

theorem bind_eq_ok {ε α β : Type} {x : Except ε α} {f : α → Except ε β} {b : β}
    (h : x.bind f = .ok b) : ∃ a, x = .ok a ∧ f a = .ok b := by
  cases x with
  | error e => cases h
  | ok a => exact ⟨a, rfl, h⟩

theorem map_eq_ok {ε α β : Type} {x : Except ε α} {f : α → β} {b : β}
    (h : x.map f = .ok b) : ∃ a, x = .ok a ∧ f a = b := by
  cases x with
  | error e => cases h
  | ok a => exact ⟨a, rfl, Except.ok.inj h⟩

def Completes (rules : Rules) (before : Memory) (r : Reduction) (after : Memory) : Prop :=
  ∃ y requests, r.operator.apply rules.source (r.operands.map Operand.double) before.requests =
      (.ok y, requests) ∧
    y.isFinite = true ∧ y.roundAt rules.digits = .ok r.result ∧
    after = before.record requests r

namespace Pending

variable {rules : Rules} {memory : Memory} {p : Pending}

inductive Reduces (rules : Rules) (memory : Memory) (p : Pending) :
    Except Stop (Double × Memory) → Prop
  | empty : p.operands = [] → Reduces rules memory p (.error ⟨.reported .noOperands, memory⟩)
  | failed {failure requests} : p.operands ≠ [] →
      p.operator.apply rules.source ((p.complete memory.answer).map Operand.double)
        memory.requests = (.error failure, requests) →
      Reduces rules memory p (.error ⟨failure, { memory with requests := requests }⟩)
  | notANumber {requests} : p.operands ≠ [] →
      p.operator.apply rules.source ((p.complete memory.answer).map Operand.double)
        memory.requests = (.ok .nan, requests) →
      Reduces rules memory p (.error ⟨.reported (.notANumber (reductionText p.operator
        (p.complete memory.answer))), { memory with requests := requests }⟩)
  | infinite {negative requests} : p.operands ≠ [] →
      p.operator.apply rules.source ((p.complete memory.answer).map Operand.double)
        memory.requests = (.ok (.infinity negative), requests) →
      Reduces rules memory p (.error ⟨.reported (.infiniteResult (reductionText p.operator
        (p.complete memory.answer))), { memory with requests := requests }⟩)
  | unrounded {x requests fault} : p.operands ≠ [] →
      p.operator.apply rules.source ((p.complete memory.answer).map Operand.double)
        memory.requests = (.ok x, requests) →
      x.isFinite = true → x.roundAt rules.digits = .error fault →
      Reduces rules memory p (.error ⟨.fault fault, { memory with requests := requests }⟩)
  | completed {x y requests} : p.operands ≠ [] →
      p.operator.apply rules.source ((p.complete memory.answer).map Operand.double)
        memory.requests = (.ok x, requests) →
      x.isFinite = true → x.roundAt rules.digits = .ok y →
      Reduces rules memory p
        (.ok (y, memory.record requests ⟨p.operator, p.complete memory.answer, y⟩))

theorem reduces (rules : Rules) (memory : Memory) (p : Pending) :
    p.Reduces rules memory (p.reduce rules memory) := by
  rw [reduce]
  split
  · rename_i hempty
    exact .empty (by simpa using hempty)
  rename_i hempty
  have hne : p.operands ≠ [] := by simpa using hempty
  dsimp only
  cases happly : p.operator.apply rules.source ((p.complete memory.answer).map Operand.double)
    memory.requests with
  | mk result requests =>
  rcases result with failure | (_ | negative | ⟨negative, units, fits⟩)
  · exact .failed hne happly
  · exact .notANumber hne happly
  · exact .infinite hne happly
  · dsimp only
    split
    · rename_i hround
      exact .unrounded hne happly rfl hround
    · rename_i hround
      exact .completed hne happly rfl hround

theorem reduce_ok {x : Double} {after : Memory} (h : p.reduce rules memory = .ok (x, after)) :
    p.operands ≠ [] ∧ Completes rules memory ⟨p.operator, p.complete memory.answer, x⟩ after := by
  have hreduces := p.reduces rules memory
  rw [h] at hreduces
  cases hreduces with
  | completed hne happly hfinite hround => exact ⟨hne, _, _, happly, hfinite, hround, rfl⟩

theorem reduce_error {stop : Stop} (h : p.reduce rules memory = .error stop) :
    stop.memory = { memory with requests := stop.memory.requests } := by
  have hreduces := p.reduces rules memory
  rw [h] at hreduces
  cases hreduces <;> rfl

theorem reduce_of_apply {x y : Double} {requests : List Request} (hne : p.operands ≠ [])
    (happly : p.operator.apply rules.source ((p.complete memory.answer).map Operand.double)
      memory.requests = (.ok x, requests))
    (hfinite : x.isFinite = true) (hround : x.roundAt rules.digits = .ok y) :
    p.reduce rules memory =
      .ok (y, memory.record requests ⟨p.operator, p.complete memory.answer, y⟩) := by
  have hempty : ¬ p.operands.isEmpty = true := by simpa using hne
  rw [reduce, if_neg hempty]
  dsimp only
  rw [happly]
  rcases x with _ | negative | ⟨negative, units, fits⟩
  · cases hfinite
  · cases hfinite
  · dsimp only
    rw [hround]
    rfl

end Pending

end PolishCalc
