import PolishCalc.Proofs.Lockstep
import PolishCalc.Session.Action

namespace PolishCalc

/-- A change of what is recorded: it leaves alone what an evaluation reads of the memory, and what
is recorded after it is added to what it has made. -/
structure Unread (f : Memory → Memory) : Prop where
  answer : ∀ memory, (f memory).answer = memory.answer
  requests : ∀ (memory : Memory) (requests : List Request),
    f { memory with requests := requests } =
      ⟨(f memory).answer, requests, (f memory).reductions, (f memory).steps⟩
  record : ∀ memory requests r, f (memory.record requests r) = (f memory).record requests r

def Outcome.withMemory (f : Memory → Memory) : Outcome → Outcome
  | .ok (x, memory) => .ok (x, f memory)
  | .error stop => .error ⟨stop.failure, f stop.memory⟩

@[simp]
theorem Outcome.memory_withMemory (f : Memory → Memory) (outcome : Outcome) :
    Outcome.memory (Outcome.withMemory f outcome) = f (Outcome.memory outcome) := by
  cases outcome <;> rfl

@[simp]
theorem Outcome.result_withMemory (f : Memory → Memory) (outcome : Outcome) :
    Outcome.result (Outcome.withMemory f outcome) = Outcome.result outcome := by
  cases outcome <;> rfl

namespace Unread

variable {f : Memory → Memory}

theorem requests_eq (h : Unread f) (memory : Memory) :
    (f memory).requests = memory.requests := by
  have hsame := congrArg Memory.requests (h.requests memory memory.requests)
  exact hsame

theorem lockstep (h : Unread f) (rules : Rules) :
    Lockstep (fun _ => True) (fun memory memory' => memory' = f memory) (fun _ => False)
      rules rules where
  maxLength := rfl
  maxDepth := rfl
  answer := by
    rintro memory _ rfl
    exact h.answer memory
  apart _ hfalse := hfalse
  reduce := by
    rintro memory _ p rfl -
    have hcomplete : p.complete (f memory).answer = p.complete memory.answer := by
      rw [h.answer]
    rw [Pending.reduce, Pending.reduce]
    split
    · exact .failure rfl
    dsimp only
    rw [hcomplete, h.requests_eq]
    generalize p.operator.apply rules.source ((p.complete memory.answer).map Operand.double)
      memory.requests = applied
    obtain ⟨result, requests⟩ := applied
    have hrequests := (h.requests memory requests).symm
    rcases result with failure | (_ | negative | ⟨negative, units, fits⟩)
    · exact .failure hrequests
    · exact .failure hrequests
    · exact .failure hrequests
    · dsimp only
      split
      · exact .failure hrequests
      · refine .value ?_
        rw [hrequests, h.record]

theorem evaluateLine (h : Unread f) (rules : Rules) (memory : Memory) (line : Text) :
    evaluateLine rules (f memory) line =
      Outcome.withMemory f (PolishCalc.evaluateLine rules memory line) := by
  have halike : Alike _ _ (PolishCalc.evaluateLine rules memory line)
      (PolishCalc.evaluateLine rules (f memory) line) :=
    (h.lockstep rules).evaluateLine (fun _ _ => trivial) rfl
  generalize PolishCalc.evaluateLine rules memory line = first at halike
  generalize PolishCalc.evaluateLine rules (f memory) line = second at halike
  cases halike with
  | value hmemory => rw [hmemory]; rfl
  | failure hmemory => rw [hmemory]; rfl
  | apart hapart => exact hapart.elim

end Unread

namespace Memory

def untraced (memory : Memory) : Memory :=
  { memory with steps := none }

theorem unread_untraced : Unread untraced :=
  ⟨fun _ => rfl, fun _ _ => rfl, fun _ _ _ => rfl⟩

def recordedAfter (memory : Memory) (earlier : List Reduction) : Memory :=
  { memory with
    reductions := memory.reductions ++ earlier
    steps := memory.steps.map (· ++ earlier.map Reduction.text) }

theorem unread_recordedAfter (earlier : List Reduction) : Unread (recordedAfter · earlier) := by
  refine ⟨fun _ => rfl, fun _ _ => rfl, fun memory requests r => ?_⟩
  simp [recordedAfter, record, Function.comp_def]

def Shows (traced : Bool) (memory : Memory) : Prop :=
  memory.steps = if traced then some (memory.reductions.map Reduction.text) else none

end Memory

def Outcome.recordedAfter (outcome : Outcome) (earlier : List Reduction) : Outcome :=
  Outcome.withMemory (Memory.recordedAfter · earlier) outcome

theorem evaluateLine_recordedAfter (rules : Rules) (memory : Memory) (line : Text)
    (earlier : List Reduction) :
    evaluateLine rules (memory.recordedAfter earlier) line =
      Outcome.recordedAfter (evaluateLine rules memory line) earlier :=
  (Memory.unread_recordedAfter earlier).evaluateLine rules memory line

theorem preserves_shows (rules : Rules) (traced : Bool) :
    Preserves rules (Memory.Shows traced) (fun _ => True)
      (fun stop => stop.memory.Shows traced) where
  operand _ _ := trivial
  fail _ hmemory := hmemory
  tooDeep hmemory := hmemory
  reduce := by
    intro memory p hmemory _
    have hreduces := p.reduces rules memory
    generalize p.reduce rules memory = outcome at hreduces
    cases hreduces with
    | completed =>
      refine ⟨trivial, ?_⟩
      rw [Memory.Shows] at hmemory ⊢
      cases traced <;> simp [hmemory]
    | _ => exact hmemory

namespace Session

variable (settings : Settings) (source : Source) (s : Session) (line : Text) (traced : Bool)
  (precision : Operand) (maxDepth : Option Int)

theorem outcome_untraced :
    Outcome.withMemory Memory.untraced
        (s.outcome settings source line traced precision maxDepth) =
      s.outcome settings source line false precision maxDepth := by
  rw [outcome, outcome]
  cases s.placesFor precision with
  | error fault => rfl
  | ok digits => exact (Memory.unread_untraced.evaluateLine _ (s.memory traced) line).symm

theorem result_outcome :
    Outcome.result (s.outcome settings source line traced precision maxDepth) =
      Outcome.result (s.outcome settings source line false precision maxDepth) := by
  rw [← s.outcome_untraced settings source line traced precision maxDepth,
    Outcome.result_withMemory]

theorem adopt_outcome :
    s.adopt (Outcome.memory (s.outcome settings source line traced precision maxDepth)) =
      s.adopt (Outcome.memory (s.outcome settings source line false precision maxDepth)) := by
  rw [← s.outcome_untraced settings source line traced precision maxDepth,
    Outcome.memory_withMemory]
  rfl

theorem shows_outcome :
    (Outcome.memory (s.outcome settings source line traced precision maxDepth)).Shows traced := by
  have hstart : (s.memory traced).Shows traced := by
    cases traced <;> rfl
  rw [outcome]
  cases s.placesFor precision with
  | error fault => exact hstart
  | ok digits =>
    dsimp only
    have hends := (preserves_shows ⟨digits, settings.maxInputLength,
      maxDepth.getD settings.maxExpressionDepth, source⟩ traced).evaluateLine hstart line
    generalize evaluateLine _ (s.memory traced) line = outcome at hends ⊢
    cases outcome with
    | ok reduced => exact hends.2
    | error stop => exact hends

theorem steps_outcome :
    Outcome.steps (s.outcome settings source line traced precision maxDepth) =
      if traced then
        some ((Outcome.memory (s.outcome settings source line traced precision
          maxDepth)).reductions.reverse.map Reduction.text)
      else none := by
  have hshows := s.shows_outcome settings source line traced precision maxDepth
  rw [Outcome.steps, hshows]
  cases traced <;> simp

theorem memory_adopt {s : Session} {memory : Memory} {traced : Bool} (h : memory.Shows traced) :
    ((s.adopt memory).memory traced).recordedAfter memory.reductions = memory := by
  rw [Memory.Shows] at h
  obtain ⟨answer, requests, reductions, steps⟩ := memory
  dsimp only at h
  subst h
  cases traced <;> rfl

section

variable {settings source s line precision maxDepth}

theorem exists_outcome_ok {x : Double} {memory : Memory}
    (h : s.outcome settings source line false precision maxDepth = .ok (x, memory))
    (traced : Bool) :
    ∃ memory', s.outcome settings source line traced precision maxDepth = .ok (x, memory') ∧
      memory'.untraced = memory := by
  have huntraced := (s.outcome_untraced settings source line traced precision maxDepth).trans h
  cases houtcome : s.outcome settings source line traced precision maxDepth with
  | error stop =>
    rw [houtcome] at huntraced
    cases huntraced
  | ok reduced =>
    rw [houtcome] at huntraced
    cases huntraced
    exact ⟨reduced.2, rfl, rfl⟩

theorem exists_outcome_error {stop : Stop}
    (h : s.outcome settings source line false precision maxDepth = .error stop) (traced : Bool) :
    ∃ memory, s.outcome settings source line traced precision maxDepth =
      .error ⟨stop.failure, memory⟩ ∧ memory.untraced = stop.memory := by
  have huntraced := (s.outcome_untraced settings source line traced precision maxDepth).trans h
  cases houtcome : s.outcome settings source line traced precision maxDepth with
  | ok reduced =>
    rw [houtcome] at huntraced
    cases huntraced
  | error stopped =>
    rw [houtcome] at huntraced
    cases huntraced
    exact ⟨stopped.memory, rfl, rfl⟩

end

theorem perform_evaluate_untraced :
    s.perform settings source (.evaluate line false precision maxDepth) =
      s.withOutcome (s.outcome settings source line false precision maxDepth) .number := by
  rw [perform, steps_outcome]
  rfl

end Session

end PolishCalc
