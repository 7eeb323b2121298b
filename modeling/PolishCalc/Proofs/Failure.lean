import PolishCalc.Proofs.Balance
import PolishCalc.Proofs.Invariant
import PolishCalc.Proofs.Meaning
import PolishCalc.Proofs.Reduction
import PolishCalc.Session.Action

namespace PolishCalc

inductive Completed (rules : Rules) (start : Memory) : List Reduction → Memory → Prop
  | none : Completed rules start [] start
  | next {rs memory r after} : Completed rules start rs memory → Completes rules memory r after →
      Completed rules start (rs ++ [r]) after

def lastResult (answer : Double) (reductions : List Reduction) : Double :=
  (reductions.getLast?.map Reduction.result).getD answer

namespace Completed

variable {rules : Rules} {start memory : Memory} {rs : List Reduction}

theorem answer_eq (h : Completed rules start rs memory) :
    memory.answer = lastResult start.answer rs := by
  cases h with
  | none => rfl
  | next _ hlast =>
    obtain ⟨y, requests, -, -, -, rfl⟩ := hlast
    simp [lastResult]

theorem reductions_eq (h : Completed rules start rs memory) :
    memory.reductions = rs.reverse ++ start.reductions := by
  induction h with
  | none => rfl
  | next _ hlast ih =>
    obtain ⟨y, requests, -, -, -, rfl⟩ := hlast
    simp [ih]

end Completed

/-- Some reductions have been completed. After them either there was an error outside reductions,
or a reduction failed, of which nothing has been kept but its requests. -/
def StopsAfter (rules : Rules) (start : Memory) (rs : List Reduction) (stop : Stop) : Prop :=
  ∃ before, Completed rules start rs before ∧
    (stop.memory = before ∨
      ∃ p : Pending, p.reduce rules before = .error stop ∧
        stop.memory = { before with requests := stop.memory.requests })

theorem StopsAfter.memory_eq {rules : Rules} {start : Memory} {rs : List Reduction} {stop : Stop}
    (h : StopsAfter rules start rs stop) :
    stop.memory.answer = lastResult start.answer rs ∧
      stop.memory.reductions = rs.reverse ++ start.reductions := by
  obtain ⟨before, hrs, hmemory⟩ := h
  rw [← hrs.answer_eq, ← hrs.reductions_eq]
  rcases hmemory with rfl | ⟨p, -, hmemory⟩
  · exact ⟨rfl, rfl⟩
  · rw [hmemory]
    exact ⟨rfl, rfl⟩

theorem preserves_completed (rules : Rules) (start : Memory) :
    Preserves rules (fun memory => ∃ rs, Completed rules start rs memory) (fun _ => True)
      (fun stop => ∃ rs, StopsAfter rules start rs stop) where
  operand _ _ := trivial
  reduce := by
    rintro memory p ⟨rs, hrs⟩ -
    cases hreduce : p.reduce rules memory with
    | ok reduced =>
      obtain ⟨x, after⟩ := reduced
      exact ⟨trivial, _, hrs.next (Pending.reduce_ok hreduce).2⟩
    | error stop =>
      exact ⟨rs, memory, hrs, .inr ⟨p, hreduce, Pending.reduce_error hreduce⟩⟩
  fail := by
    rintro memory error ⟨rs, hrs⟩
    exact ⟨rs, memory, hrs, .inl rfl⟩
  tooDeep := by
    rintro memory ⟨rs, hrs⟩
    exact ⟨rs, memory, hrs, .inl rfl⟩

theorem stopsAfter_of_evaluateLine {rules : Rules} {memory : Memory} {line : Text} {stop : Stop}
    (h : evaluateLine rules memory line = .error stop) : ∃ rs, StopsAfter rules memory rs stop := by
  have hends := (preserves_completed rules memory).evaluateLine ⟨[], .none⟩ line
  rwa [h] at hends

namespace Session

def Refused (s : Session) (code : String) (done : Except Failure Reply × Session) : Prop :=
  ∃ error : CalcError, error.code = code.toList ∧ done = (.error (.reported error), s)

variable {settings : Settings} {source : Source} {s : Session} {line : Text} {traced : Bool}
  {precision maxDepth : Option Int}

theorem perform_evaluate_refused {error : CalcError}
    (h : readLine settings.maxInputLength line = .error error) :
    s.perform settings source (.evaluate line traced (.ofPrecision precision) maxDepth) =
      (.error (.reported error), s) := by
  have houtcome : s.outcome settings source line traced (.ofPrecision precision) maxDepth =
      .error ⟨.reported error, s.memory traced⟩ := by
    rw [outcome_eq, evaluateLine, show (s.rules settings source precision maxDepth).maxLength =
      settings.maxInputLength from rfl, h]
  rw [perform, houtcome]
  rfl

theorem perform_evaluate_error {failure : Failure}
    (h : (s.perform settings source
      (.evaluate line traced (.ofPrecision precision) maxDepth)).1 = .error failure) :
    ∃ memory, s.outcome settings source line traced (.ofPrecision precision) maxDepth =
      .error ⟨failure, memory⟩ := by
  cases houtcome : s.outcome settings source line traced (.ofPrecision precision) maxDepth with
  | ok reduced =>
    simp only [perform, withOutcome, houtcome, Outcome.result] at h
    cases h
  | error stop =>
    simp only [perform, withOutcome, houtcome, Outcome.result] at h
    obtain rfl := Except.error.inj h
    exact ⟨stop.memory, rfl⟩

/-- An evaluation that fails leaves the answer of the last reduction that was completed before, or
the old one if none was. A line that is too long, else blank, else not balanced is refused, and
leaves the session as it was. -/
theorem failed_evaluation (settings : Settings) (source : Source) (s : Session) (line : Text)
    (traced : Bool) (precision maxDepth : Option Int) :
    let outcome := s.outcome settings source line traced (.ofPrecision precision) maxDepth
    let done :=
      s.perform settings source (.evaluate line traced (.ofPrecision precision) maxDepth)
    (∀ failure, done.1 = .error failure →
      ∃ rs memory, outcome = .error ⟨failure, memory⟩ ∧
        StopsAfter (s.rules settings source precision maxDepth) (s.memory traced) rs
          ⟨failure, memory⟩ ∧
        memory.reductions = rs.reverse ∧ done.2 = s.adopt memory ∧
        done.2.answer.value = lastResult s.answer.value rs) ∧
    (settings.maxInputLength < line.length → s.Refused "TOO_LONG" done) ∧
    (line.length ≤ settings.maxInputLength →
      ((∀ c ∈ line, isBlank c = true) → s.Refused "EMPTY_INPUT" done) ∧
      ((¬ ∀ c ∈ line, isBlank c = true) → ¬ line.Balanced → s.Refused "UNBALANCED" done)) := by
  refine ⟨?_, ?_, fun hlength => ⟨?_, ?_⟩⟩
  · intro failure hfailure
    obtain ⟨memory, houtcome⟩ := perform_evaluate_error hfailure
    obtain ⟨rs, hrs⟩ := stopsAfter_of_evaluateLine ((outcome_eq ..).symm.trans houtcome)
    obtain ⟨hanswer, hreductions⟩ := hrs.memory_eq
    have hdone : (s.perform settings source
        (.evaluate line traced (.ofPrecision precision) maxDepth)).2 = s.adopt memory := by
      rw [perform, houtcome]
      rfl
    refine ⟨rs, memory, houtcome, hrs, ?_, hdone, ?_⟩
    · exact hreductions.trans (List.append_nil _)
    · rw [hdone]
      exact hanswer
  · intro hlong
    exact ⟨.tooLong settings.maxInputLength, rfl, perform_evaluate_refused (readLine_tooLong hlong)⟩
  · intro hblank
    exact ⟨.emptyInput, rfl, perform_evaluate_refused (readLine_blank hlength hblank)⟩
  · intro hblank hbalanced
    rcases readLine_unbalanced hlength hblank hbalanced with hread | hread
    · exact ⟨.unmatchedClosing, rfl, perform_evaluate_refused hread⟩
    · exact ⟨.unmatchedOpening, rfl, perform_evaluate_refused hread⟩

theorem failed_evaluation_groups :
    let done := fun line : String => Session.perform .usual .lowest (.fresh .usual)
      (.evaluate line.toList false (.ofPrecision none) none)
    (done "+ (* 2 3) (- 5 1) x").2.answer.value = .ofNat 4 ∧
      (Session.fresh .usual).Refused "UNBALANCED" (done "+ (* 2 3) (- 5 1) ) x") := by
  intro done
  obtain ⟨-, -, hrefused⟩ := failed_evaluation .usual .lowest (.fresh .usual)
    "+ (* 2 3) (- 5 1) ) x".toList false none none
  have hblank : ¬ ∀ c ∈ "+ (* 2 3) (- 5 1) ) x".toList, isBlank c = true := fun h =>
    absurd (h '+' (by decide)) (by decide)
  exact ⟨by decide +kernel, (hrefused (by decide)).2 hblank (by decide)⟩

end Session

end PolishCalc
