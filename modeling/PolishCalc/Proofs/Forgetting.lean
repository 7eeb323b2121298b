import PolishCalc.Proofs.Number.Places
import PolishCalc.Proofs.Replay
import PolishCalc.Proofs.Reset

namespace PolishCalc

theorem exists_places (standard : Int) {digits : Operand}
    (h : ∀ x, digits = .double x → x.isFinite = true) : ∃ n, places standard digits = .ok n := by
  have hnan : digits ≠ .double .nan := fun hdigits => nomatch h _ hdigits
  rcases Double.places_cases standard hnan with hplaces | hinfinite
  · exact hplaces
  · rcases digits with (_ | negative | ⟨negative, units, fits⟩) | n | _
    · exact absurd rfl hnan
    · exact nomatch h _ rfl
    all_goals cases hinfinite

theorem Double.exists_roundAt_dropZeroSign {x : Double} (hx : x.isFinite = true) (digits : Nat) :
    ∃ y z, x.roundAt digits = .ok y ∧ x.dropZeroSign.roundAt digits = .ok z ∧
      z.sameNumber y = true := by
  obtain ⟨y, hy, hfinite⟩ := exists_roundAt digits hx
  have hagree := (matches_dropZeroSign x).roundAt digits
  rw [hy] at hagree
  generalize hz : x.dropZeroSign.roundAt digits = rounded at hagree
  cases hagree with
  | @value _ z hmatches => exact ⟨y, z, hy, rfl, hmatches.sameNumber hfinite⟩

namespace Session

def resetSteps (settings : Settings) : List Text :=
  ["- 1 1".toList, "+ 0 ".toList ++ settings.ansDefault.display]

def withAnswer (s : Session) (x : Double) : Session :=
  { s with answer := { s.answer with value := x } }

variable {settings : Settings} {s : Session} {precision : Operand} {digits : Nat} {y : Double}

theorem resetSteps_eq (hdefault : settings.ansDefault.isFinite = true) :
    [reductionText .subtract [.one, .one],
      reductionText .add [.zero, settings.ansDefault.dropZeroSign]] = resetSteps settings := by
  have hone : Double.one.display = ['1'] := by decide +kernel
  have hzero : Double.zero.display = ['0'] := by decide +kernel
  have hdisplay := Double.display_dropZeroSign hdefault
  simp [reductionText, Operator.stepText, Operator.symbol, Operand.display, List.intercalate,
    resetSteps, hone, hzero, hdisplay]

theorem outcome_resetExpression (hdefault : settings.ansDefault.isFinite = true)
    (hlength : (resetExpression settings).length ≤ settings.maxInputLength)
    (hplaces : s.placesFor precision = .ok digits) {maxDepth : Option Int}
    (hdepth : 2 ≤ maxDepth.getD settings.maxExpressionDepth)
    (hround : settings.ansDefault.dropZeroSign.roundAt digits = .ok y) (source : Source)
    (traced : Bool) :
    s.outcome settings source (resetExpression settings) traced precision maxDepth =
      .ok (y, resetMemory settings (s.memory traced) y) :=
  (outcome_of_placesFor hplaces _ traced maxDepth).trans
    (evaluateLine_resetExpression hdefault _ hdepth hlength (s.memory traced) hround)

theorem perform_resetExpression (hdefault : settings.ansDefault.isFinite = true)
    (hlength : (resetExpression settings).length ≤ settings.maxInputLength)
    (hplaces : s.placesFor precision = .ok digits) {maxDepth : Option Int}
    (hdepth : 2 ≤ maxDepth.getD settings.maxExpressionDepth)
    (hround : settings.ansDefault.dropZeroSign.roundAt digits = .ok y) (source : Source)
    (traced : Bool) :
    s.perform settings source (.evaluate (resetExpression settings) traced precision maxDepth) =
      (.ok (if traced then .traced y (resetSteps settings) else .number y), s.withAnswer y) := by
  rw [perform, outcome_resetExpression hdefault hlength hplaces hdepth hround source,
    ← resetSteps_eq hdefault]
  cases traced <;> rfl

/-- The default answer, rounded to some decimal places, is what the reset expression comes to
whenever it is evaluated with these places, and becomes the answer, as a number. The session before
the evaluation, whose answer need not be a number, has no part in it, nor has the random source, of
which nothing is requested. So evaluating it once more, with the session that it left, gives the
same. Every precision but an infinity and what is no number asks for some decimal places. -/
theorem resetExpression_forgets (settings : Settings)
    (hdefault : settings.ansDefault.isFinite = true)
    (hlength : (resetExpression settings).length ≤ settings.maxInputLength) :
    (∀ (s : Session) (precision : Operand), (∀ x, precision = .double x → x.isFinite = true) →
      ∃ digits, s.placesFor precision = .ok digits) ∧
    ∀ digits : Nat, ∃ x y,
      roundTo settings.defaultPrecision (.double settings.ansDefault) (.integer digits) = .ok x ∧
      y.sameNumber x = true ∧
      ∀ (source : Source) (s : Session) (traced : Bool) (precision : Operand)
        (maxDepth : Option Int), s.placesFor precision = .ok digits →
        2 ≤ maxDepth.getD settings.maxExpressionDepth →
        let reset := Action.evaluate (resetExpression settings) traced precision maxDepth
        let done := s.perform settings source reset
        done = (.ok (if traced then .traced y (resetSteps settings) else .number y),
          s.withAnswer y) ∧
        ∀ source' : Source, done.2.perform settings source' reset = done := by
  refine ⟨fun s precision h => exists_places s.precision.value h, fun digits => ?_⟩
  obtain ⟨x, y, hx, hround, hsame⟩ := Double.exists_roundAt_dropZeroSign hdefault digits
  have hplaces : places settings.defaultPrecision (.integer digits) = .ok digits := rfl
  refine ⟨x, y, (Double.roundTo_of_places hplaces _).trans hx, hsame, ?_⟩
  intro source s traced precision maxDepth hs hdepth reset done
  have hdone : done = (.ok (if traced then .traced y (resetSteps settings) else .number y),
      s.withAnswer y) :=
    perform_resetExpression hdefault hlength hs hdepth hround source traced
  have hafter : (s.withAnswer y).placesFor precision = .ok digits := hs
  refine ⟨hdone, fun source' => ?_⟩
  rw [hdone]
  exact perform_resetExpression hdefault hlength hafter hdepth hround source' traced

theorem resetExpression_forgets_subnormal :
    let settings : Settings := { Settings.usual with ansDefault := .ofDecimal true 5 (-324) }
    let s := (fresh settings).withAnswer .nan
    let reset := Action.evaluate (resetExpression settings) true (.integer 400) (some 2)
    (settings.ansDefault.isFinite = true ∧
        resetExpression settings = "+ (- 1 1) -5e-324".toList ∧
        ((resetExpression settings).length : Int) ≤ settings.maxInputLength) ∧
      (∃ digits, s.placesFor (.integer 400) = .ok digits) ∧
      ∃ x y, roundTo settings.defaultPrecision (.double settings.ansDefault) (.integer 400) =
          .ok x ∧ y.sameNumber x = true ∧
        s.perform settings (.scripted []) reset =
          (.ok (.traced y (resetSteps settings)), s.withAnswer y) ∧
        (s.withAnswer y).perform settings .lowest reset =
          (.ok (.traced y (resetSteps settings)), s.withAnswer y) := by
  intro settings s reset
  have hdefault : settings.ansDefault.isFinite = true := by decide +kernel
  have htext : resetExpression settings = "+ (- 1 1) -5e-324".toList := by decide +kernel
  have hlength : ((resetExpression settings).length : Int) ≤ settings.maxInputLength := by
    rw [htext]
    decide
  obtain ⟨hplaces, hforgets⟩ := resetExpression_forgets settings hdefault hlength
  obtain ⟨x, y, hx, hsame, hperform⟩ := hforgets 400
  obtain ⟨hdone, hagain⟩ := hperform (.scripted []) s true (.integer 400) (some 2) rfl (by decide)
  have hsecond := hagain .lowest
  rw [hdone] at hsecond
  exact ⟨⟨hdefault, htext, hlength⟩, hplaces s (.integer 400) nofun,
    x, y, hx, hsame, hdone, hsecond⟩

end Session

end PolishCalc
