import PolishCalc.Proofs.Numeral
import PolishCalc.Proofs.Safety

namespace PolishCalc

namespace Double

theorem one_eq : one = .finite false unitsPerOne fits_unitsPerOne :=
  (congrArg (ofUnits false) (Nat.one_mul unitsPerOne)).trans
    (ofUnits_of_fits fits_unitsPerOne false)

theorem one_sub_one : one.sub one = zero := by
  rw [one_eq]
  simp [sub, neg, withSign, isNegative, add, signedUnits, zero]

theorem isFinite_dropZeroSign {x : Double} (h : x.isFinite = true) :
    x.dropZeroSign.isFinite = true := by
  rw [dropZeroSign]
  split
  · rfl
  · exact h

theorem zero_add {x : Double} (h : x.isFinite = true) : zero.add x = x.dropZeroSign := by
  obtain ⟨negative, units, fits, rfl⟩ := exists_of_isFinite h
  rcases Nat.eq_zero_or_pos units with rfl | hpos
  · simp [zero, zeroOf, add, signedUnits, dropZeroSign, isZero]
  · rw [dropZeroSign_of_ne fits (Nat.ne_of_gt hpos)]
    have hsum : signedUnits false 0 + signedUnits negative units = signedUnits negative units :=
      Int.zero_add _
    have hne : signedUnits negative units ≠ 0 := by
      have := natAbs_signedUnits negative units
      omega
    have hsign : decide (signedUnits negative units < 0) = negative := decide_signed_neg hpos
    simp only [zero, zeroOf, add, hsum]
    rw [if_neg hne, hsign, natAbs_signedUnits, ofUnits_of_fits fits]

theorem dropZeroSign_idem (x : Double) : x.dropZeroSign.dropZeroSign = x.dropZeroSign := by
  by_cases h : x.isZero = true
  · have hzero : x.dropZeroSign = zero := if_pos h
    rw [hzero]
    rfl
  · have hself : x.dropZeroSign = x := if_neg h
    rw [hself, hself]

def RoundsToItself (digits : Nat) (x : Double) : Prop :=
  ∃ y, x.roundAt digits = .ok y ∧ y.sameNumber x = true

theorem sameNumber_iff_roundsToItself {x y : Double} (hx : x.isFinite = true) {digits : Nat}
    (h : x.dropZeroSign.roundAt digits = .ok y) :
    y.sameNumber x = true ↔ x.RoundsToItself digits := by
  by_cases hzero : x.isZero = true
  · obtain ⟨negative, units, fits, rfl⟩ := exists_of_isFinite hx
    obtain rfl : units = 0 := by simpa [isZero] using hzero
    have hvalue : (zero.roundAt digits) = .ok y := h
    rw [roundAt_zero] at hvalue
    obtain rfl := Except.ok.inj hvalue
    refine iff_of_true ?_ ⟨_, roundAt_zeroOf negative digits, ?_⟩
    · cases negative <;> rfl
    · split <;> cases negative <;> rfl
  · have hself : x.dropZeroSign = x := if_neg hzero
    rw [hself] at h
    constructor
    · intro hsame
      exact ⟨y, h, hsame⟩
    · rintro ⟨z, hz, hsame⟩
      rw [h] at hz
      obtain rfl := Except.ok.inj hz
      exact hsame

end Double

theorem Pending.reduce_pair (rules : Rules) {op : Operator} (hop : op ≠ .random) {a b x y : Double}
    (hcompute : op.compute a (.double b) = .ok x) (hfinite : x.isFinite = true)
    (hround : x.roundAt rules.digits = .ok y) (memory : Memory) :
    Pending.reduce rules memory ⟨op, [b, a]⟩ =
      .ok (y, memory.record memory.requests ⟨op, [a, b], y⟩) :=
  Pending.reduce_of_apply (p := ⟨op, [b, a]⟩) (by simp)
    (Operator.apply_pair hop hcompute rules.source memory.requests) hfinite hround

def resetTree (settings : Settings) : Tree :=
  ⟨.add, .group .subtract (.word ['1'] (.word ['1'] .empty))
    (.word settings.ansDefault.display .empty)⟩

section

variable {settings : Settings}

theorem resetTree_wellFormed (settings : Settings) : (resetTree settings).WellFormed := by
  have hone : IsOperand ['1'] := by decide
  exact ⟨nofun, nofun, ⟨hone, hone, trivial⟩, isOperand_display settings.ansDefault, trivial⟩

theorem resetTree_spaced (settings : Settings) :
    Text.Spaced (resetTree settings).words (resetExpression settings) := by
  have hword := (isOperand_display settings.ansDefault).1
  have hlast := Text.Spaced.word hword (by simp) .nil
  rw [List.append_nil] at hlast
  have hlexemes : (resetExpression settings).lexemes =
      [['+'], ['('], ['-'], ['1'], ['1'], [')']] ++ settings.ansDefault.display.lexemes := rfl
  rw [hlast.lexemes_eq] at hlexemes
  exact Text.lexemes_eq_iff.1 hlexemes

theorem readLine_resetExpression {maxLength : Int}
    (hlength : (resetExpression settings).length ≤ maxLength) :
    readLine maxLength (resetExpression settings) = .ok (resetTree settings).tokens := by
  have hwell := resetTree_wellFormed settings
  have hspaced := resetTree_spaced settings
  rw [← hwell.pointForComma_eq_self hspaced] at hspaced
  exact hwell.readLine_spaced hspaced hlength

def zeroed (memory : Memory) : Memory :=
  memory.record memory.requests ⟨.subtract, [.one, .one], .zero⟩

def resetMemory (settings : Settings) (memory : Memory) (y : Double) : Memory :=
  (zeroed memory).record memory.requests ⟨.add, [.zero, settings.ansDefault.dropZeroSign], y⟩

theorem evaluate_resetTree_eq (settings : Settings) {rules : Rules} (hdepth : 2 ≤ rules.maxDepth)
    (memory : Memory) :
    (resetTree settings).evaluate rules memory =
      match operandValue? .zero settings.ansDefault.display with
      | some x => Pending.reduce rules (zeroed memory) ⟨.add, [x, .zero]⟩
      | none => .error ⟨.reported (.invalidNumber settings.ansDefault.display), zeroed memory⟩ := by
  have hone (answer : Double) : operandValue? answer ['1'] = some .one := by
    have hnumeral : Text.IsNumeral ['1'] := ⟨List.all_eq_true.1 rfl, '1', by decide, rfl⟩
    have hread : Double.readOperand? ['1'] = some .one := by decide +kernel
    rw [operandValue?, hnumeral.constant?_eq_none, hread]
    rfl
  have hdifference : Operator.subtract.compute .one (.double .one) = .ok .zero :=
    congrArg Except.ok Double.one_sub_one
  have hgroup := Pending.reduce_pair rules (by decide) hdifference rfl
    (Double.roundAt_zero rules.digits) memory
  rw [Tree.evaluate, if_neg (by omega)]
  simp only [resetTree, Operands.collect, hone]
  rw [if_neg (by omega)]
  simp only [Pending.push, ok_bind, hgroup, Memory.answer_record]
  cases operandValue? .zero settings.ansDefault.display <;> rfl

theorem evaluate_resetTree (hdefault : settings.ansDefault.isFinite = true) {rules : Rules}
    (hdepth : 2 ≤ rules.maxDepth) (memory : Memory) {y : Double}
    (hround : settings.ansDefault.dropZeroSign.roundAt rules.digits = .ok y) :
    (resetTree settings).evaluate rules memory =
      .ok (y, resetMemory settings memory y) := by
  have hfinite := Double.isFinite_dropZeroSign hdefault
  have hsum : Operator.add.compute .zero (.double settings.ansDefault.dropZeroSign) =
      .ok settings.ansDefault.dropZeroSign :=
    congrArg Except.ok ((Double.zero_add hfinite).trans (Double.dropZeroSign_idem _))
  rw [evaluate_resetTree_eq settings hdepth, operandValue?_display hdefault]
  exact Pending.reduce_pair rules (by decide) hsum hfinite hround (zeroed memory)

theorem evaluateLine_resetExpression (hdefault : settings.ansDefault.isFinite = true)
    (rules : Rules) (hdepth : 2 ≤ rules.maxDepth)
    (hlength : (resetExpression settings).length ≤ rules.maxLength) (memory : Memory)
    {y : Double} (hround : settings.ansDefault.dropZeroSign.roundAt rules.digits = .ok y) :
    evaluateLine rules memory (resetExpression settings) =
      .ok (y, resetMemory settings memory y) := by
  have htree := evaluate_resetTree hdefault hdepth memory hround
  rw [← evaluateTokens_tokens] at htree
  rw [evaluateLine, readLine_resetExpression hlength]
  exact htree

def Settings.resetError? (settings : Settings) : Option CalcError :=
  if settings.maxInputLength < (resetExpression settings).length then
    some (.tooLong settings.maxInputLength)
  else if settings.maxExpressionDepth < 2 then
    some (.tooDeep ⟨settings.maxExpressionDepth, settings.limits_writable.2⟩)
  else if settings.ansDefault.isFinite then none
  else some (.invalidNumber settings.ansDefault.display)

theorem evaluate_resetTree_tooDeep (settings : Settings) {rules : Rules}
    (hdepth : rules.maxDepth < 2) (memory : Memory) : (resetTree settings).evaluate rules memory =
      .error ⟨.tooDeep rules.maxDepth, memory⟩ := by
  rw [Tree.evaluate]
  split
  · rfl
  · rw [resetTree, Operands.collect, if_pos (by omega)]
    rfl

theorem result_resetExpression (rules : Rules) (hlength : rules.maxLength = settings.maxInputLength)
    (hdepth : rules.maxDepth = settings.maxExpressionDepth) (memory : Memory) :
    match settings.resetError? with
    | none => ∃ reduced, evaluateLine rules memory (resetExpression settings) = .ok reduced
    | some error => ∃ after, evaluateLine rules memory (resetExpression settings) =
        .error ⟨.reported error, after⟩ := by
  by_cases hlong : settings.maxInputLength < (resetExpression settings).length
  · rw [Settings.resetError?, if_pos hlong]
    rw [← hlength] at hlong ⊢
    rw [evaluateLine, readLine_tooLong hlong]
    exact ⟨memory, rfl⟩
  have hread := readLine_resetExpression (hlength ▸ Int.not_lt.1 hlong)
  by_cases hdeep : settings.maxExpressionDepth < 2
  · have htree := evaluate_resetTree_tooDeep settings (hdepth ▸ hdeep) memory
    rw [← evaluateTokens_tokens, hdepth,
      Failure.tooDeep_of_writable settings.limits_writable.2] at htree
    rw [Settings.resetError?, if_neg hlong, if_pos hdeep, evaluateLine, hread]
    exact ⟨memory, htree⟩
  have hroom : 2 ≤ rules.maxDepth := by omega
  rw [Settings.resetError?, if_neg hlong, if_neg hdeep]
  cases hdefault : settings.ansDefault.isFinite with
  | true =>
    obtain ⟨y, hround, -⟩ := Double.exists_roundAt rules.digits
      (Double.isFinite_dropZeroSign hdefault)
    exact ⟨_, evaluateLine_resetExpression hdefault rules hroom (by omega) memory hround⟩
  | false =>
    have htree := evaluate_resetTree_eq settings hroom memory
    rw [operandValue?_display_eq_none hdefault, ← evaluateTokens_tokens] at htree
    rw [evaluateLine, hread]
    exact ⟨_, htree⟩

end

namespace Session

inductive Reachable (settings : Settings) (source : Source) : Session → Prop
  | fresh : Reachable settings source (fresh settings)
  | perform {s} (action : Action) : Reachable settings source s →
      Reachable settings source (s.perform settings source action).2

theorem Reachable.configured {settings : Settings} {source : Source} {s : Session}
    (h : Reachable settings source s) : s.Configured settings := by
  induction h with
  | fresh => exact configured_fresh settings
  | perform action _ ih => exact ih.perform source action

def freshWith (settings : Settings) (answer : Double) (requests : List Request) : Session :=
  { fresh settings with answer := ⟨settings.ansDefault, answer⟩, requests := requests }

theorem perform_resetSession {settings : Settings} {s : Session} (hs : s.Configured settings)
    (hdefault : settings.ansDefault.isFinite = true)
    (hlength : (resetExpression settings).length ≤ settings.maxInputLength)
    (hdepth : 2 ≤ settings.maxExpressionDepth) (source : Source) {y : Double}
    (hround : settings.ansDefault.dropZeroSign.roundAt s.precision.value.toNat = .ok y) :
    s.perform settings source .resetSession =
      (.ok .nothing, freshWith settings y s.requests) := by
  have hline := evaluateLine_resetExpression hdefault
    (s.cleared.rules settings source none none) hdepth hlength (s.cleared.memory false) hround
  have hreset := (outcome_eq settings source s.cleared _ false none none).trans hline
  rw [perform_resetSession_ok hreset]
  obtain ⟨⟨standard, value⟩, ⟨minimum, maximum, precision, places⟩, ⟨sentinel, entries, browsing⟩,
    requests⟩ := s
  obtain ⟨hstandard, hminimum, hmaximum, hprecision, hsentinel⟩ := hs
  dsimp only at hstandard hminimum hmaximum hprecision hsentinel
  subst hstandard hminimum hmaximum hprecision hsentinel
  rfl

/-- A reset of a session that actions have led to is completed. It leaves a fresh session, with the
default answer exactly if rounding to the precision of the session leaves that number as it is. -/
theorem resetSession_eq_fresh (settings : Settings) (hdefault : settings.ansDefault.isFinite = true)
    (hlength : (resetExpression settings).length ≤ settings.maxInputLength)
    (hdepth : 2 ≤ settings.maxExpressionDepth) (source : Source) (s : Session)
    (hs : Reachable settings source s) :
    ∃ y, settings.ansDefault.dropZeroSign.roundAt s.precision.value.toNat = .ok y ∧
      s.perform settings source .resetSession = (.ok .nothing, freshWith settings y s.requests) ∧
      (y.sameNumber settings.ansDefault = true ↔
        settings.ansDefault.RoundsToItself s.precision.value.toNat) := by
  obtain ⟨y, hround, -⟩ := Double.exists_roundAt s.precision.value.toNat
    (Double.isFinite_dropZeroSign hdefault)
  exact ⟨y, hround, perform_resetSession hs.configured hdefault hlength hdepth source hround,
    Double.sameNumber_iff_roundsToItself hdefault hround⟩

theorem resetSession_eq_fresh_usual :
    let s := ((fresh .usual).perform .usual .lowest
      (.evaluate "+ 1 2".toList false (.ofPrecision none) none)).2
    ∃ y, Settings.usual.ansDefault.dropZeroSign.roundAt s.precision.value.toNat = .ok y ∧
      s.perform .usual .lowest .resetSession = (.ok .nothing, freshWith .usual y s.requests) ∧
      (y.sameNumber Settings.usual.ansDefault = true ↔
        Settings.usual.ansDefault.RoundsToItself s.precision.value.toNat) :=
  resetSession_eq_fresh .usual rfl (by decide +kernel) (by decide) .lowest _ (.perform _ .fresh)

theorem resetSession_ne_fresh :
    let settings : Settings := { Settings.usual with ansDefault := .ofDecimal false 12345 (-5) }
    let done := (fresh settings).perform settings .lowest .resetSession
    done = (.ok .nothing, freshWith settings (.ofDecimal false 123 (-3)) []) ∧
      done.2.answer.value.sameNumber settings.ansDefault = false := by
  decide +kernel

end Session

end PolishCalc
