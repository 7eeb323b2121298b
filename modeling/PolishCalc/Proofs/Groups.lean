import PolishCalc.Proofs.Surroundings
import PolishCalc.Proofs.Trace

namespace PolishCalc

/-- From the first tokens to the second ones, a pair of parentheses is left out. Between them there
is an expression; an operator and other operands come before them on their level, and nothing comes
after them on it. -/
inductive Unwraps : List Token → List Token → Prop
  | last {before operands inner after : List Token} {op op' : Operator} :
      Token.Balanced operands → Token.Balanced inner → Operands.Ends after →
      Unwraps
        (before ++ .operator op ::
          (operands ++ .opening :: .operator op' :: (inner ++ .closing :: after)))
        (before ++ .operator op :: (operands ++ .operator op' :: (inner ++ after)))

namespace Progress

variable {rules : Rules}

theorem level_ne_nil_of_readAll {p q : Progress} {operands : List Token}
    (hlevel : p.level ≠ []) (hoperands : Token.Balanced operands)
    (h : p.readAll rules operands = .ok q) : q.level ≠ [] := by
  obtain ⟨level, outer, memory⟩ := p
  let c : Surroundings := ⟨[], outer⟩
  have hp : Surroundings.Begun ⟨level, [], memory⟩ := ⟨fun _ => hlevel, List.forall_mem_nil _⟩
  have hplace := c.readAll_place rules hp (Token.balanced_iff_closes.1 hoperands)
  have hin : c.place ⟨level, [], memory⟩ = ⟨level, outer, memory⟩ := by
    simp [c, Surroundings.place, Surroundings.surround]
  rw [hin, h] at hplace
  cases hread : readAll (rules.inside c.depth) ⟨level, [], memory⟩ operands with
  | error stop =>
    rw [hread] at hplace
    cases hplace
  | ok r =>
    rw [hread] at hplace
    obtain rfl : q = c.place r := Except.ok.inj hplace
    obtain ⟨r, level, memory, rfl⟩ := exists_level_of_readAll hp rfl hoperands hread
    exact List.cons_ne_nil _ _

theorem level_ne_nil_of_operator {p q : Progress} {op : Operator} {before operands : List Token}
    (hoperands : Token.Balanced operands)
    (h : p.readAll rules (before ++ .operator op :: operands) = .ok q) : q.level ≠ [] := by
  rw [readAll_append] at h
  obtain ⟨start, -, h⟩ := bind_eq_ok h
  obtain ⟨next, hread, h⟩ := exists_of_readAll_cons h
  have hnext : next.level ≠ [] := by
    cases moves_of_read hread with
    | operator => exact List.cons_ne_nil _ _
  exact level_ne_nil_of_readAll hnext hoperands h

theorem readAll_ends (rules : Rules) {after : List Token} {outer : List Level}
    (hafter : Operands.Ends after) (hcloses : Text.Closes outer.length (Token.outline after)) :
    ∃ next, ∀ q level memory,
      (readAll rules ⟨q :: level, outer, memory⟩ after).bind (finish rules) =
        (Level.reduce rules memory q level).bind next := by
  cases after with
  | nil =>
    obtain rfl := List.length_eq_zero_iff.1 (Token.closes_outline_nil.1 hcloses)
    refine ⟨.ok, fun q level memory => ?_⟩
    change Level.reduce rules memory q level = _
    cases Level.reduce rules memory q level <;> rfl
  | cons token after =>
    obtain rfl := hafter.eq_closing
    obtain ⟨around, outer, rfl⟩ :=
      List.exists_cons_of_length_pos (Token.closes_outline_closing.1 hcloses).1
    refine ⟨fun reduced =>
      (readAll rules ⟨Level.push around reduced.1, outer, reduced.2⟩ after).bind (finish rules),
      fun q level memory => ?_⟩
    rw [readAll_closing, bind_bind]

end Progress

namespace Unwraps

variable {grouped bare : List Token}

theorem ne_nil (h : Unwraps grouped bare) : grouped ≠ [] ∧ bare ≠ [] := by
  cases h with
  | last => simp

theorem closes_iff {operands inner : List Token} (hoperands : Token.Balanced operands)
    (hinner : Token.Balanced inner) (op op' : Operator) (after : List Token) (depth : Nat) :
    (Text.Closes depth (Token.outline (.operator op ::
        (operands ++ .opening :: .operator op' :: (inner ++ .closing :: after)))) ↔
      Text.Closes depth (Token.outline after)) ∧
    (Text.Closes depth (Token.outline (.operator op ::
        (operands ++ .operator op' :: (inner ++ after)))) ↔
      Text.Closes depth (Token.outline after)) := by
  simp [hoperands.closes_append, hinner.closes_append]

theorem balanced (h : Unwraps grouped bare) (hgrouped : Token.Balanced grouped) :
    Token.Balanced bare := by
  rw [Token.balanced_iff_closes] at hgrouped ⊢
  cases h with
  | @last before operands inner after op op' hoperands hinner _ =>
    refine (Token.closes_append_congr (fun depth => ?_) before).1 hgrouped
    obtain ⟨hwith, hwithout⟩ := closes_iff hoperands hinner op op' after depth
    exact hwith.trans hwithout.symm

theorem evaluateTokens (h : Unwraps grouped bare) (hgrouped : Token.Balanced grouped)
    (rules : Rules) (memory : Memory) :
    evaluateTokens rules memory grouped = evaluateTokens rules memory bare := by
  rw [Token.balanced_iff_closes] at hgrouped
  cases h with
  | @last before operands inner after op op' hoperands hinner hafter =>
    -- Both sides read the same up to the last operand. With parentheses its operators are reduced
    -- where they close, without them where the level ends: nothing stands in between.
    have hsplit (tail : List Token) : before ++ .operator op :: (operands ++ tail) =
        (before ++ .operator op :: operands) ++ tail := by
      simp
    have hfront (tail : List Token) : (Progress.start memory).readAll rules
        (before ++ .operator op :: (operands ++ tail)) =
          ((Progress.start memory).readAll rules (before ++ .operator op :: operands)).bind
            fun q => q.readAll rules tail := by
      rw [← Progress.readAll_append, hsplit]
    rw [PolishCalc.evaluateTokens, PolishCalc.evaluateTokens, hfront, hfront, bind_bind, bind_bind]
    rw [hsplit] at hgrouped
    cases hread : Progress.readAll rules (Progress.start memory)
        (before ++ .operator op :: operands) with
    | error stop => rfl
    | ok q =>
      have hlevel := Progress.level_ne_nil_of_operator hoperands hread
      have hcloses := (Progress.closes_of_readAll hread).1 hgrouped
      obtain ⟨level, outer, memory⟩ := q
      obtain ⟨p, rest, rfl⟩ := List.exists_cons_of_ne_nil hlevel
      have hends : Text.Closes outer.length (Token.outline after) := by
        simpa [hinner.closes_append] using hcloses
      obtain ⟨next, hfinish⟩ := Progress.readAll_ends rules hafter hends
      simp only [ok_bind]
      rw [Progress.readAll_group hinner, bind_bind, ← List.cons_append, Progress.readAll_append,
        bind_bind, Progress.readAll_last hinner op' p rest outer memory hfinish]

end Unwraps

namespace Session

/-- Without the parentheses around a last operand, balanced tokens come to the same: the same value
or failure, the same answer, requests and reductions, under all rules and from every memory. So do
lines with these tokens, in every session. -/
theorem outcome_unwrapped {grouped bare : List Token} (h : Unwraps grouped bare)
    (hbalanced : Token.Balanced grouped) :
    (∀ (rules : Rules) (memory : Memory),
      evaluateTokens rules memory grouped = evaluateTokens rules memory bare) ∧
    ∀ (settings : Settings) (source : Source) (s : Session) (line line' : Text)
      (traced : Bool) (precision : Operand) (maxDepth : Option Int),
      Token.ofLine line.pointForComma = grouped → Token.ofLine line'.pointForComma = bare →
      line.length ≤ settings.maxInputLength → line'.length ≤ settings.maxInputLength →
      s.outcome settings source line traced precision maxDepth =
        s.outcome settings source line' traced precision maxDepth := by
  refine ⟨h.evaluateTokens hbalanced, ?_⟩
  intro settings source s line line' traced precision maxDepth hline hline' hlength hlength'
  rw [outcome, outcome]
  cases s.placesFor precision with
  | error fault => rfl
  | ok digits =>
    dsimp only
    rw [evaluateLine_eq_tokens hline h.ne_nil.1 hbalanced hlength,
      evaluateLine_eq_tokens hline' h.ne_nil.2 (h.balanced hbalanced) hlength']
    exact h.evaluateTokens hbalanced _ _

theorem outcome_unwrapped_nested :
    let line : Text := "+ (* 2 (- 5 ans)) 1".toList
    let line' : Text := "+ (* 2 - 5 ans) 1".toList
    let outcome := fun line maxDepth =>
      (fresh .usual).outcome .usual .lowest line false (.ofPrecision none) maxDepth
    (Unwraps (Token.ofLine line) (Token.ofLine line') ∧ Token.Balanced (Token.ofLine line)) ∧
      outcome line none = outcome line' none ∧
      Outcome.result (outcome line' none) = .ok (.ofNat 11) ∧
      outcome line (some 2) = outcome line' (some 2) ∧
      Outcome.result (outcome line' (some 2)) = .error (.tooDeep 2) := by
  intro line line' outcome
  have hunwraps : Unwraps (Token.ofLine line) (Token.ofLine line') :=
    @Unwraps.last [.operator .add, .opening] [.operand ['2']]
      [.operand ['5'], .operand answerName] [.closing, .operand ['1']] .multiply .subtract
      (by decide) (by decide) (by simp [Operands.Ends])
  have hbalanced : Token.Balanced (Token.ofLine line) := by decide
  have hsame := (outcome_unwrapped hunwraps hbalanced).2 .usual .lowest (fresh .usual) line line'
    false (.ofPrecision none)
  have hsameAt (maxDepth : Option Int) : outcome line maxDepth = outcome line' maxDepth :=
    hsame maxDepth (by decide) (by decide) (by decide) (by decide)
  exact ⟨⟨hunwraps, hbalanced⟩, hsameAt none, by decide +kernel, hsameAt (some 2),
    by decide +kernel⟩

end Session

theorem evaluateInside_eq {rules : Rules} {n : Nat} {memory : Memory} {tokens : List Token}
    (h : ¬ Outcome.CutOff (evaluateInside rules n memory tokens)) :
    evaluateInside rules n memory tokens = evaluateTokens rules memory tokens := by
  have hle : rules.maxDepth - n ≤ rules.maxDepth := by omega
  have hdeepened : Deepened (rules.maxDepth - n) (evaluateTokens (rules.inside n) memory tokens)
      (evaluateTokens rules memory tokens) :=
    Progress.readAll_finish_withLimit rules hle (Progress.start memory) tokens
  rw [evaluateInside] at h ⊢
  generalize evaluateTokens (rules.inside n) memory tokens = inside at h hdeepened ⊢
  generalize evaluateTokens rules memory tokens = alone at hdeepened ⊢
  cases hdeepened with
  | cut =>
    refine absurd ⟨rules.maxDepth, ?_⟩ h
    exact congrArg (fun stop : Stop => Except.error stop.failure) (Stop.deeper_tooDeep _ _ _)
  | same =>
    cases inside with
    | ok reduced => rfl
    | error stop =>
      refine congrArg Except.error (Stop.deeper_of_ne (fun hfailure => h ⟨rules.maxDepth, ?_⟩) _)
      exact congrArg (fun stop : Stop => Except.error stop.failure) (if_pos hfailure)

def IsFixed (text : Text) : Prop :=
  text ∈ fixedConstants.map Prod.fst ∨ (Double.readOperand? text).isSome = true

instance (text : Text) : Decidable (IsFixed text) :=
  inferInstanceAs (Decidable (_ ∨ _))

def HasValue (text : Text) (x : Double) : Prop :=
  ∀ answer, operandValue? answer text = some x

theorem IsFixed.exists_value {text : Text} (h : IsFixed text) : ∃ x, HasValue text x := by
  have hname : text ≠ answerName := by
    rintro rfl
    exact absurd h (by decide)
  have hdenotes : Denotes text := h.imp (List.mem_cons_of_mem _) id
  obtain ⟨x, hx⟩ := Option.isSome_iff_exists.1 (isSome_operandValue?.2 hdenotes :
    (operandValue? .zero text).isSome = true)
  exact ⟨x, fun answer => (operandValue?_eq hname answer .zero).trans hx⟩

theorem exists_values {texts : List Text} (h : ∀ text ∈ texts, IsFixed text) :
    ∃ values, List.Forall₂ HasValue texts values := by
  induction texts with
  | nil => exact ⟨[], .nil⟩
  | cons text texts ih =>
    obtain ⟨htext, htexts⟩ := List.forall_mem_cons.1 h
    obtain ⟨x, hx⟩ := htext.exists_value
    obtain ⟨values, hvalues⟩ := ih htexts
    exact ⟨x :: values, .cons hx hvalues⟩

namespace Progress

theorem readAll_operands {rules : Rules} {texts : List Text} {values : List Double}
    (h : List.Forall₂ HasValue texts values)
    (p : Pending) (rest : Level) (outer : List Level) (memory : Memory) (tail : List Token) :
    readAll rules ⟨p :: rest, outer, memory⟩ (texts.map .operand ++ tail) =
      readAll rules ⟨⟨p.operator, values.reverse ++ p.operands⟩ :: rest, outer, memory⟩ tail := by
  induction h generalizing p with
  | nil => rfl
  | @cons text x texts values htext _ ih =>
    rw [List.map_cons, List.cons_append,
      readAll_cons_ok (read_operand (htext memory.answer) p rest outer), ih]
    simp [Pending.push]

end Progress

section

variable {rules : Rules} {op head : Operator} {texts : List Text} {values : List Double}
  {inner : List Token}

theorem evaluateTokens_operands (hdepth : 1 ≤ rules.maxDepth)
    (h : List.Forall₂ HasValue texts values)
    (op : Operator) (memory : Memory) (tail : List Token) :
    evaluateTokens rules memory (.operator op :: (texts.map .operand ++ tail)) =
      (Progress.readAll rules ⟨[⟨op, values.reverse⟩], [], memory⟩ tail).bind
        (Progress.finish rules) := by
  have hoperator : (Progress.start memory).read rules (.operator op) =
      .ok ⟨[⟨op, []⟩], [], memory⟩ := by
    refine (Progress.read_operator rules op [] [] memory).trans (if_neg ?_)
    simpa using hdepth
  rw [evaluateTokens, Progress.readAll_cons_ok hoperator, Progress.readAll_operands h,
    List.append_nil]

theorem evaluateTokens_group (hdepth : 1 ≤ rules.maxDepth)
    (h : List.Forall₂ HasValue texts values)
    (hinner : Token.Balanced inner) (memory : Memory) (tail : List Token) :
    evaluateTokens rules memory (.operator op :: (texts.map .operand ++
        .opening :: .operator head :: (inner ++ .closing :: tail))) =
      (evaluateInside rules 1 memory (.operator head :: inner)).bind fun reduced =>
        (Progress.readAll rules ⟨[⟨op, reduced.1 :: values.reverse⟩], [], reduced.2⟩ tail).bind
          (Progress.finish rules) := by
  rw [evaluateTokens_operands hdepth h, Progress.readAll_group hinner, bind_bind]
  rfl

theorem evaluateTokens_answer (hdepth : 1 ≤ rules.maxDepth)
    (h : List.Forall₂ HasValue texts values)
    (memory : Memory) (tail : List Token) :
    evaluateTokens rules memory (.operator op :: (texts.map .operand ++
        .operand answerName :: tail)) =
      (Progress.readAll rules ⟨[⟨op, memory.answer :: values.reverse⟩], [], memory⟩ tail).bind
        (Progress.finish rules) := by
  have hanswer := @Progress.read_operand rules _ _ _ (operandValue?_answerName memory.answer)
    ⟨op, values.reverse⟩ [] []
  rw [evaluateTokens_operands hdepth h, Progress.readAll_cons_ok hanswer]
  rfl

theorem cutOff_of_evaluateTokens (hdepth : ¬ 1 ≤ rules.maxDepth) (memory : Memory)
    (tail : List Token) : Outcome.CutOff (evaluateTokens rules memory (.operator op :: tail)) := by
  have hoperator : (Progress.start memory).read rules (.operator op) =
      .error ⟨.tooDeep rules.maxDepth, memory⟩ := by
    refine (Progress.read_operator rules op [] [] memory).trans (if_pos ?_)
    simpa using hdepth
  rw [evaluateTokens, Progress.readAll_cons_error hoperator]
  exact ⟨rules.maxDepth, rfl⟩

end

theorem Token.balanced_operands (texts : List Text) : Token.Balanced (texts.map .operand) := by
  rw [balanced_iff_closes]
  induction texts with
  | nil => exact closes_outline_nil.2 rfl
  | cons text texts ih => exact closes_outline_operand.2 ih

theorem Outcome.steps_recordedAfter (outcome : Outcome) (earlier : List Reduction) :
    Outcome.steps (Outcome.recordedAfter outcome earlier) =
      (Outcome.steps outcome).map (earlier.reverse.map Reduction.text ++ ·) := by
  simp [Outcome.steps, Outcome.recordedAfter, Memory.recordedAfter, Function.comp_def]

/-- The first tokens are an operator with operands that are fixed, an expression in parentheses, and
the rest of the level. The second ones are the expression, and the third ones have the answer in its
place. -/
inductive Extracts : List Token → List Token → List Token → Prop
  | group {texts : List Text} {inner tail : List Token} {op op' : Operator} :
      (∀ text ∈ texts, IsFixed text) → Token.Balanced (.operator op' :: inner) →
      Token.Balanced tail →
      Extracts
        (.operator op :: (texts.map .operand ++
          .opening :: .operator op' :: (inner ++ .closing :: tail)))
        (.operator op' :: inner)
        (.operator op :: (texts.map .operand ++ .operand answerName :: tail))

namespace Extracts

variable {whole first second : List Token}

theorem ne_nil (h : Extracts whole first second) : whole ≠ [] ∧ first ≠ [] ∧ second ≠ [] := by
  cases h with
  | group => simp

theorem balanced (h : Extracts whole first second) :
    Token.Balanced whole ∧ Token.Balanced first ∧ Token.Balanced second := by
  cases h with
  | @group texts inner tail op op' _ hgroup htail =>
    have htexts := Token.balanced_operands texts
    have hinner : Token.Balanced inner := by
      simpa [Token.balanced_iff_closes] using hgroup
    rw [Token.balanced_iff_closes] at htail
    refine ⟨?_, hgroup, ?_⟩
    · simp [Token.balanced_iff_closes, htexts.closes_append, hinner.closes_append, htail]
    · simp [Token.balanced_iff_closes, htexts.closes_append, htail]

theorem evaluateTokens (h : Extracts whole first second) {rules : Rules} {memory : Memory}
    (hdeep : ¬ Outcome.CutOff (evaluateTokens rules memory whole)) :
    (∀ stop, evaluateTokens rules memory first = .error stop →
      evaluateTokens rules memory whole = .error stop) ∧
    ∀ x after, evaluateTokens rules memory first = .ok (x, after) → after.answer = x →
      evaluateTokens rules memory whole = evaluateTokens rules after second := by
  cases h with
  | @group texts inner tail op op' htexts hgroup htail =>
    obtain ⟨values, hvalues⟩ := exists_values htexts
    have hinner : Token.Balanced inner := by
      simpa [Token.balanced_iff_closes] using hgroup
    have hdepth : 1 ≤ rules.maxDepth := by
      by_contra hlimit
      exact hdeep (cutOff_of_evaluateTokens hlimit memory _)
    rw [evaluateTokens_group hdepth hvalues hinner] at hdeep ⊢
    have hinside : ¬ Outcome.CutOff (evaluateInside rules 1 memory (.operator op' :: inner)) := by
      rintro ⟨limit, hlimit⟩
      obtain ⟨after, hlimit⟩ := Outcome.result_eq_error hlimit
      rw [hlimit] at hdeep
      exact hdeep ⟨limit, rfl⟩
    rw [evaluateInside_eq hinside]
    constructor
    · intro stop hstop
      rw [hstop]
      rfl
    · intro x after hok hanswer
      rw [hok, ok_bind, evaluateTokens_answer hdepth hvalues, hanswer]

end Extracts

namespace Session

theorem outcome_eq_tokens {settings : Settings} (source : Source) (s : Session) (traced : Bool)
    (precision maxDepth : Option Int) {line : Text} {tokens : List Token}
    (htokens : Token.ofLine line.pointForComma = tokens) (hne : tokens ≠ [])
    (hbalanced : Token.Balanced tokens) (hlength : line.length ≤ settings.maxInputLength) :
    s.outcome settings source line traced (.ofPrecision precision) maxDepth =
      evaluateTokens (s.rules settings source precision maxDepth) (s.memory traced)
        tokens := by
  rw [outcome_eq]
  exact evaluateLine_eq_tokens htokens hne hbalanced hlength (s.memory traced)

/-- A group behind an operator and fixed operands can be evaluated beforehand, as a line of its own.
If that fails, so does the whole, in the same way. If not, the whole comes to what the line with the
answer in place of the group comes to in the session that the first line leaves, and its reductions
are those of the first line and then those of the second. -/
theorem outcome_group_beforehand {whole first second : List Token}
    (h : Extracts whole first second) (settings : Settings) (source : Source) (s : Session)
    (traced : Bool) (precision maxDepth : Option Int) (line line₁ line₂ : Text)
    (hwhole : Token.ofLine line.pointForComma = whole)
    (hfirst : Token.ofLine line₁.pointForComma = first)
    (hsecond : Token.ofLine line₂.pointForComma = second)
    (hlength : ∀ text ∈ [line, line₁, line₂], text.length ≤ settings.maxInputLength)
    (hdeep : ¬ Outcome.CutOff
      (s.outcome settings source line traced (.ofPrecision precision) maxDepth)) :
    let outcome := fun (s : Session) line =>
      s.outcome settings source line traced (.ofPrecision precision) maxDepth
    (∀ stop, outcome s line₁ = .error stop → outcome s line = .error stop) ∧
    ∀ x memory, outcome s line₁ = .ok (x, memory) →
      let next := (s.perform settings source
        (.evaluate line₁ traced (.ofPrecision precision) maxDepth)).2
      outcome s line = Outcome.recordedAfter (outcome next line₂) memory.reductions ∧
        Outcome.steps (outcome s line) = Option.map₂ (· ++ ·) (Outcome.steps (outcome s line₁))
          (Outcome.steps (outcome next line₂)) := by
  obtain ⟨hwholeNe, hfirstNe, hsecondNe⟩ := h.ne_nil
  obtain ⟨hwholeBalanced, hfirstBalanced, hsecondBalanced⟩ := h.balanced
  simp only [List.forall_mem_cons] at hlength
  obtain ⟨hwholeLength, hfirstLength, hsecondLength, -⟩ := hlength
  have hwholeEq :=
    outcome_eq_tokens source s traced precision maxDepth hwhole hwholeNe hwholeBalanced
    hwholeLength
  have hfirstEq :=
    outcome_eq_tokens source s traced precision maxDepth hfirst hfirstNe hfirstBalanced
    hfirstLength
  rw [hwholeEq] at hdeep
  obtain ⟨herror, hok⟩ := h.evaluateTokens hdeep
  dsimp only
  rw [hwholeEq]
  constructor
  · intro stop hstop
    exact herror stop (hfirstEq.symm.trans hstop)
  · intro x memory hfirstOk
    have hanswer : memory.answer = x := by
      rw [outcome_eq] at hfirstOk
      exact answer_of_evaluateLine_ok hfirstOk
    have hnext : (s.perform settings source
        (.evaluate line₁ traced (.ofPrecision precision) maxDepth)).2 = s.adopt memory :=
      congrArg (fun outcome => s.adopt (Outcome.memory outcome)) hfirstOk
    have hshows := s.shows_outcome settings source line₁ traced (.ofPrecision precision) maxDepth
    have hsteps := s.steps_outcome settings source line₁ traced (.ofPrecision precision) maxDepth
    rw [hfirstOk] at hshows hsteps
    change memory.Shows traced at hshows
    have hrecorded : evaluateTokens (s.rules settings source precision maxDepth) (s.memory traced)
      whole = Outcome.recordedAfter
        ((s.adopt memory).outcome settings source line₂ traced (.ofPrecision precision) maxDepth)
        memory.reductions := by
      rw [hok x memory (hfirstEq.symm.trans hfirstOk) hanswer, outcome_eq,
        ← evaluateLine_recordedAfter, memory_adopt hshows]
      exact (evaluateLine_eq_tokens hsecond hsecondNe hsecondBalanced hsecondLength memory).symm
    have hsecondSteps := (s.adopt memory).steps_outcome settings source line₂ traced
      (.ofPrecision precision) maxDepth
    rw [hnext]
    refine ⟨hrecorded, ?_⟩
    rw [hrecorded, Outcome.steps_recordedAfter, hfirstOk, hsteps, hsecondSteps]
    cases traced <;> rfl

theorem outcome_group_beforehand_alone :
    let outcome := fun (s : Session) (line : Text) =>
      s.outcome .usual .lowest line true (.ofPrecision none) none
    let next := ((fresh .usual).perform .usual .lowest
      (.evaluate "* 2 3".toList true (.ofPrecision none) none)).2
    (Extracts (Token.ofLine "+ (* 2 3)".toList) (Token.ofLine "* 2 3".toList)
          (Token.ofLine "+ ans".toList) ∧
        ¬ Outcome.CutOff (outcome (fresh .usual) "+ (* 2 3)".toList) ∧
        Outcome.result (outcome (fresh .usual) "* 2 3".toList) = .ok (.ofNat 6)) ∧
      Outcome.steps (outcome (fresh .usual) "+ (* 2 3)".toList) =
        Option.map₂ (· ++ ·) (Outcome.steps (outcome (fresh .usual) "* 2 3".toList))
          (Outcome.steps (outcome next "+ ans".toList)) ∧
      Outcome.steps (outcome (fresh .usual) "+ (* 2 3)".toList) =
        some ["* 2 3".toList, "+ 6 6".toList] := by
  intro outcome next
  have hextracts : Extracts (Token.ofLine "+ (* 2 3)".toList) (Token.ofLine "* 2 3".toList)
      (Token.ofLine "+ ans".toList) :=
    @Extracts.group [] [.operand ['2'], .operand ['3']] [] .add .multiply (by simp) (by decide)
      (by decide)
  have hwhole : Outcome.result (outcome (fresh .usual) "+ (* 2 3)".toList) = .ok (.ofNat 12) := by
    decide +kernel
  have hdeep : ¬ Outcome.CutOff (outcome (fresh .usual) "+ (* 2 3)".toList) := by
    rintro ⟨limit, h⟩
    rw [hwhole] at h
    cases h
  have hresult : Outcome.result (outcome (fresh .usual) "* 2 3".toList) = .ok (.ofNat 6) := by
    decide +kernel
  obtain ⟨after, hok⟩ := Outcome.result_eq_ok hresult
  have hbeforehand :=
    outcome_group_beforehand hextracts .usual .lowest (fresh .usual) true none none
    "+ (* 2 3)".toList "* 2 3".toList "+ ans".toList rfl rfl rfl (by decide) hdeep
  exact ⟨⟨hextracts, hdeep, hresult⟩, (hbeforehand.2 _ _ hok).2, by decide +kernel⟩

end Session

end PolishCalc
