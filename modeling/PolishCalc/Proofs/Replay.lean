import PolishCalc.Proofs.Display
import PolishCalc.Proofs.Drift
import PolishCalc.Proofs.Fields
import PolishCalc.Proofs.Masking
import PolishCalc.Proofs.Number.ZeroSign
import PolishCalc.Proofs.Recording

namespace PolishCalc

namespace Double

variable {x y : Double}

theorem matches_dropZeroSign (x : Double) : Matches x x.dropZeroSign := by
  by_cases h : x.isZero = true
  · have hzero : x.dropZeroSign = zero := if_pos h
    rw [hzero]
    exact .zero h rfl
  · have hself : x.dropZeroSign = x := if_neg h
    rw [hself]
    exact .refl x

theorem Matches.isFinite (h : Matches x y) (hx : x.isFinite = true) : y.isFinite = true := by
  cases h with
  | refl => exact hx
  | zero _ hy => exact isFinite_of_isZero hy

theorem Matches.sameNumber (h : Matches x y) (hx : x.isFinite = true) :
    y.sameNumber x = true := by
  rcases h.eq_or_zeroOf with rfl | ⟨s, t, rfl, rfl⟩
  · exact sameNumber_self hx
  · cases s <;> cases t <;> rfl

end Double

theorem flatTree_words (op : Operator) (words : List Text) :
    (flatTree op words).words = [op.symbol] :: words := by
  have htokens : (Operands.ofWords words).tokens.map Token.text = words := by
    induction words with
    | nil => rfl
    | cons word words ih => exact congrArg (word :: ·) ih
  exact congrArg ([op.symbol] :: ·) htokens

theorem isWord_symbol (op : Operator) : Text.IsWord [op.symbol] := by
  cases op <;> decide

theorem spaced_text (op : Operator) (operands : List Double) :
    Text.Spaced (flatTree op (operands.map Double.display)).words (reductionText op operands) := by
  have hwords : ∀ word ∈ [op.symbol] :: operands.map Double.display, Text.IsWord word := by
    rw [List.forall_mem_cons]
    refine ⟨isWord_symbol op, fun word hword => ?_⟩
    obtain ⟨x, -, rfl⟩ := List.mem_map.1 hword
    exact (isOperand_display x).1
  rw [flatTree_words, reductionText, Operator.stepText, List.map_map]
  exact Text.spaced_intercalate fun word hword => .inr (.inr (hwords word hword))

theorem isLiteral_display {x : Double} (h : x.isFinite = true) :
    IsLiteral x.display x.dropZeroSign :=
  ⟨(isOperand_display x).1, Double.readOperand?_display h⟩

structure Reduction.Recorded (rules : Rules) (r : Reduction) : Prop where
  length : 2 ≤ r.operands.length
  finite : ∀ x ∈ r.operands, x.isFinite = true
  completes : ∃ before after, Completes rules before r after

theorem Pending.two_le_length_complete {p : Pending} (h : p.operands ≠ []) (answer : Double) :
    2 ≤ (p.complete answer).length := by
  obtain ⟨op, operands⟩ := p
  rcases operands with _ | ⟨x, _ | ⟨y, operands⟩⟩
  · exact absurd rfl h
  · exact Nat.le_refl 2
  · simp [complete]

theorem preserves_recorded (rules : Rules) : Preserves rules
    (fun memory => memory.answer.isFinite = true ∧ ∀ r ∈ memory.reductions, r.Recorded rules)
    (fun x => x.isFinite = true) (fun _ => True) where
  operand hmemory h := (eq_or_isFinite_of_operandValue? h).elim (fun hx => hx ▸ hmemory.1) id
  fail _ _ := trivial
  tooDeep _ := trivial
  reduce := by
    intro memory p hmemory hp
    cases hreduce : p.reduce rules memory with
    | error stop => exact trivial
    | ok reduced =>
      obtain ⟨x, after⟩ := reduced
      obtain ⟨hx, hanswer⟩ := Pending.isFinite_of_reduce hreduce
      obtain ⟨hne, hcompletes⟩ := Pending.reduce_ok hreduce
      have hrecorded : Reduction.Recorded rules ⟨p.operator, p.complete memory.answer, x⟩ :=
        ⟨Pending.two_le_length_complete hne memory.answer,
          Pending.forall_mem_complete hmemory.1 hp, memory, after, hcompletes⟩
      refine ⟨hx, hanswer, ?_⟩
      obtain ⟨y, requests, -, -, -, rfl⟩ := hcompletes
      exact List.forall_mem_cons.2 ⟨hrecorded, hmemory.2⟩

theorem recorded_of_evaluateLine {rules : Rules} {memory after : Memory} {line : Text} {x : Double}
    (hanswer : memory.answer.isFinite = true) (hstart : memory.reductions = [])
    (h : evaluateLine rules memory line = .ok (x, after)) :
    ∀ r ∈ after.reductions, r.Recorded rules := by
  have hrecorded := (preserves_recorded rules).evaluateLine ⟨hanswer, by simp [hstart]⟩ line
  rw [h] at hrecorded
  exact hrecorded.2.2

theorem exists_last_of_evaluateLine {rules : Rules} {memory after : Memory} {line : Text}
    {x : Double} (h : evaluateLine rules memory line = .ok (x, after)) :
    ∃ r earlier, after.reductions = r :: earlier ∧ r.result = x := by
  obtain ⟨-, before, r, hcompletes, hresult⟩ := exists_completes_of_evaluateLine h
  obtain ⟨y, requests, -, -, -, rfl⟩ := hcompletes
  exact ⟨r, before.reductions, rfl, hresult⟩

theorem forall₂_isLiteral {operands : List Double} (h : ∀ x ∈ operands, x.isFinite = true) :
    List.Forall₂ IsLiteral (operands.map Double.display) (operands.map Double.dropZeroSign) := by
  rw [List.forall₂_map_left_iff, List.forall₂_map_right_iff, List.forall₂_same]
  exact fun x hx => isLiteral_display (h x hx)

theorem forall₂_matches (operands : List Double) :
    List.Forall₂ Double.Matches operands (operands.map Double.dropZeroSign) := by
  rw [List.forall₂_map_right_iff, List.forall₂_same]
  exact fun x _ => Double.matches_dropZeroSign x

theorem reductionText_dropZeroSign (op : Operator) {operands : List Double}
    (h : ∀ x ∈ operands, x.isFinite = true) :
    reductionText op (operands.map Double.dropZeroSign) = reductionText op operands := by
  have hdisplay : operands.map (Double.display ∘ Double.dropZeroSign) =
      operands.map Double.display :=
    List.map_congr_left fun x hx => Double.display_dropZeroSign (h x hx)
  simp only [reductionText, Operator.stepText, List.map_map]
  exact congrArg (fun words => List.intercalate [' '] ([op.symbol] :: words)) hdisplay

theorem Reduction.Recorded.reduce {rules rules' : Rules} {r : Reduction} (h : r.Recorded rules)
    (hop : r.operator ≠ .random) (hdigits : rules'.digits = rules.digits) (memory : Memory) :
    ∃ y, Double.Matches r.result y ∧
      Pending.reduce rules' memory ⟨r.operator, (r.operands.map Double.dropZeroSign).reverse⟩ =
        .ok (y, memory.record memory.requests
          ⟨r.operator, r.operands.map Double.dropZeroSign, y⟩) := by
  obtain ⟨before, after, z, requests, happly, hfinite, hround, -⟩ := h.completes
  have hlength := h.length
  rw [← List.length_map Double.dropZeroSign] at hlength
  obtain ⟨z', happly', hz⟩ : ∃ z', r.operator.apply rules'.source
      ((r.operands.map Double.dropZeroSign).map Operand.double) memory.requests =
        (.ok z', memory.requests) ∧ Double.Matches z z' :=
    Operator.exists_matches_of_apply hop (forall₂_matches r.operands) happly
  generalize r.operands.map Double.dropZeroSign = operands at hlength happly' ⊢
  have hne : operands.reverse ≠ [] := by
    rw [ne_eq, List.reverse_eq_nil_iff, ← List.length_eq_zero_iff]
    omega
  have hcomplete : Pending.complete ⟨r.operator, operands.reverse⟩ memory.answer = operands := by
    rw [Computation.complete_reverse, if_neg (by omega)]
  have hagree := hz.roundAt rules.digits
  rw [hround, ← hdigits] at hagree
  generalize hround' : z'.roundAt rules'.digits = rounded at hagree
  cases hagree with
  | @value _ y hy =>
    rw [← hcomplete] at happly'
    have hreduce := Pending.reduce_of_apply hne happly' (hz.isFinite hfinite) hround'
    rw [hcomplete] at hreduce
    exact ⟨y, hy, hreduce⟩

theorem Reduction.Recorded.isFinite_result {rules : Rules} {r : Reduction} (h : r.Recorded rules) :
    r.result.isFinite = true := by
  obtain ⟨before, after, z, requests, -, hfinite, hround, -⟩ := h.completes
  exact Double.isFinite_of_roundAt hfinite hround

theorem Reduction.Recorded.evaluateLine_text {rules : Rules} {r : Reduction}
    (h : r.Recorded rules) (rules' : Rules) (hop : r.operator ≠ .random)
    (hdigits : rules'.digits = rules.digits) (hdepth : 1 ≤ rules'.maxDepth)
    (hlength : r.text.length ≤ rules'.maxLength) (memory : Memory) :
    ∃ (y : Double) (r' : Reduction), y.sameNumber r.result = true ∧ r'.text = r.text ∧
      evaluateLine rules' memory r.text = .ok (y, memory.record memory.requests r') := by
  have hliteral := forall₂_isLiteral h.finite
  have hne : r.operands.map Double.display ≠ [] := by
    intro hempty
    have hlength := h.length
    rw [List.map_eq_nil_iff.1 hempty] at hlength
    exact absurd hlength (by decide)
  have hwell := flatTree_wellFormed r.operator hne hliteral
  have hspaced := spaced_text r.operator r.operands
  rw [← hwell.pointForComma_eq_self hspaced] at hspaced
  obtain ⟨y, hy, hreduce⟩ := h.reduce hop hdigits memory
  refine ⟨y, ⟨r.operator, r.operands.map Double.dropZeroSign, y⟩,
    hy.sameNumber h.isFinite_result, reductionText_dropZeroSign r.operator h.finite, ?_⟩
  exact (hwell.grammatical.evaluateLine_eq hspaced hlength memory).trans
    ((evaluate_flatTree hdepth hliteral memory).trans hreduce)

namespace Session

/-- The trace of an evaluation that started from a finite answer has the texts of its reductions.
Each of them can be evaluated again as a line, if it is short enough and draws nothing: in every
session, with as many decimal places and any depth that allows one operator, it gives the number
that was recorded, with itself as the trace. The number recorded last is that of the whole
evaluation. -/
theorem replay_of_outcome (settings : Settings) (source : Source) (s : Session) (line : Text)
    (traced : Bool) (precision : Operand) (maxDepth : Option Int) (x : Double) (after : Memory)
    (hanswer : s.answer.value.isFinite = true)
    (h : s.outcome settings source line traced precision maxDepth = .ok (x, after)) :
    (s.perform settings source (.evaluate line true precision maxDepth)).1 =
        .ok (.traced x (after.reductions.reverse.map Reduction.text)) ∧
      (∀ r ∈ after.reductions, r.operator ≠ .random → r.text.length ≤ settings.maxInputLength →
        ∀ (source' : Source) (s' : Session) (precision' : Operand) (maxDepth' : Option Int),
          s'.placesFor precision' = s.placesFor precision →
          1 ≤ maxDepth'.getD settings.maxExpressionDepth →
          ∃ y, (s'.perform settings source' (.evaluate r.text true precision' maxDepth')).1 =
              .ok (.traced y [r.text]) ∧
            y.sameNumber r.result = true) ∧
      ∃ r earlier, after.reductions = r :: earlier ∧ r.result = x := by
  have htraced : (s.perform settings source (.evaluate line true precision maxDepth)).1 =
      .ok (.traced x (after.reductions.reverse.map Reduction.text)) := by
    have huntraced := s.outcome_untraced settings source line traced precision maxDepth
    rw [h] at huntraced
    obtain ⟨after', houtcome, hafter⟩ := exists_outcome_ok huntraced.symm true
    have hreductions : after'.reductions = after.reductions :=
      show after'.untraced.reductions = after.untraced.reductions by rw [hafter]
    rw [perform, steps_outcome, houtcome, ← hreductions]
    rfl
  obtain ⟨digits, hplaces⟩ := exists_placesFor_of_outcome h
  rw [outcome_of_placesFor hplaces] at h
  refine ⟨htraced, fun r hr hop hlength source' s' precision' maxDepth' hplaces' hdepth => ?_,
    exists_last_of_evaluateLine h⟩
  have hrecorded := recorded_of_evaluateLine hanswer rfl h r hr
  rw [hplaces] at hplaces'
  obtain ⟨y, r', hy, htext, hline⟩ := hrecorded.evaluateLine_text
    ⟨digits, settings.maxInputLength, maxDepth'.getD settings.maxExpressionDepth, source'⟩
    hop rfl hdepth hlength (s'.memory true)
  refine ⟨y, ?_, hy⟩
  rw [perform, outcome_of_placesFor hplaces', hline, ← htext]
  rfl

theorem replay_of_outcome_signs :
    let outcome :=
      (fresh .usual).outcome .usual .lowest "+ -0 (* 1e20 (- 2.5))".toList true .absent none
    let elsewhere : Session := { fresh .usual with answer := Answer.ofDouble .nan }
    ((fresh .usual).answer.value.isFinite = true ∧
        Outcome.result outcome = .ok (.ofInt (-25 * 10 ^ 19))) ∧
      Outcome.steps outcome =
        some ["- 0 2.5".toList, "* 1e+20 -2.5".toList, "+ 0 -2.5e+20".toList] ∧
      ∀ r ∈ (Outcome.memory outcome).reductions, ∃ y,
        (elsewhere.perform .usual (.scripted []) (.evaluate r.text true .absent (some 1))).1 =
            .ok (.traced y [r.text]) ∧
          y.sameNumber r.result = true := by
  intro outcome elsewhere
  have hanswer : (fresh .usual).answer.value.isFinite = true := by decide +kernel
  have hresult : Outcome.result outcome = .ok (.ofInt (-25 * 10 ^ 19)) := by decide +kernel
  have hsteps : Outcome.steps outcome =
      some ["- 0 2.5".toList, "* 1e+20 -2.5".toList, "+ 0 -2.5e+20".toList] := by
    decide +kernel
  have hshort : ∀ r ∈ (Outcome.memory outcome).reductions, r.operator ≠ .random ∧
      r.text.length ≤ Settings.usual.maxInputLength := by
    decide +kernel
  obtain ⟨after, hok⟩ := Outcome.result_eq_ok hresult
  obtain ⟨-, hreplay, -⟩ :=
    replay_of_outcome .usual .lowest _ _ true .absent none _ after hanswer hok
  refine ⟨⟨hanswer, hresult⟩, hsteps, fun r hr => ?_⟩
  obtain ⟨hop, hlength⟩ := hshort r hr
  rw [hok] at hr
  exact hreplay r hr hop hlength (.scripted []) elsewhere .absent (some 1) rfl (by decide)

end Session

end PolishCalc
