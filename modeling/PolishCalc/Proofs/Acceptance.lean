import PolishCalc.Proofs.Safety

namespace PolishCalc

def Denotes (text : Text) : Prop :=
  text ∈ constantNames ∨ (Double.readOperand? text).isSome = true

instance (text : Text) : Decidable (Denotes text) :=
  inferInstanceAs (Decidable (_ ∨ _))

theorem isSome_constant? {answer : Double} {name : Text} :
    (constant? answer name).isSome = true ↔ name ∈ constantNames := by
  rw [constant?, constantNames, List.mem_cons]
  split
  · rename_i hname
    simp [hname]
  · rename_i hname
    simp [hname, List.lookup_isSome_iff]

theorem isSome_operandValue? {answer : Double} {text : Text} :
    (operandValue? answer text).isSome = true ↔ Denotes text := by
  rw [operandValue?, Option.isSome_or, Bool.or_eq_true, isSome_constant?, Denotes]

namespace Operands

variable {rules : Rules}

theorem operands_ne_nil_of_collect {operands : Operands} {level : Nat} {p : Pending}
    {memory : Memory} {collected : Pending × Memory} (hp : operands ≠ .empty ∨ p.operands ≠ [])
    (h : operands.collect rules level p memory = .ok collected) : collected.1.operands ≠ [] := by
  have hpush (q : Pending) (x : Double) : (q.push x).operands ≠ [] := List.cons_ne_nil _ _
  induction operands generalizing level p memory with
  | empty =>
    obtain rfl := Except.ok.inj h
    exact hp.resolve_left fun hne => hne rfl
  | word text rest ih =>
    rw [collect] at h
    split at h
    · exact ih (.inr (hpush p _)) h
    · cases h
  | group op inner rest ihInner ihRest =>
    rw [collect] at h
    split at h
    · cases h
    · obtain ⟨_, -, h⟩ := bind_eq_ok h
      obtain ⟨_, -, h⟩ := bind_eq_ok h
      exact ihRest (.inr (hpush p _)) h
  | chain op inner ih =>
    rw [collect] at h
    split at h
    · cases h
    · obtain ⟨_, -, h⟩ := bind_eq_ok h
      obtain ⟨_, -, rfl⟩ := map_eq_ok h
      exact hpush p _

theorem denotes_of_collect {operands : Operands} {level : Nat} {p : Pending} {memory : Memory}
    {collected : Pending × Memory} (h : operands.collect rules level p memory = .ok collected) :
    ∀ text, .operand text ∈ operands.tokens → Denotes text := by
  induction operands generalizing level p memory collected with
  | empty => simp [tokens]
  | word word rest ih =>
    rw [collect] at h
    split at h
    · rename_i x hx
      simp only [tokens, List.mem_cons, Token.operand.injEq]
      rintro text (rfl | htext)
      · exact isSome_operandValue?.1 (Option.isSome_of_eq_some hx)
      · exact ih h text htext
    · cases h
  | group op inner rest ihInner ihRest =>
    rw [collect] at h
    split at h
    · cases h
    · obtain ⟨_, hcollect, h⟩ := bind_eq_ok h
      obtain ⟨_, -, h⟩ := bind_eq_ok h
      simp only [tokens, List.mem_cons, List.mem_append, reduceCtorEq, false_or]
      rintro text (htext | htext)
      · exact ihInner hcollect text htext
      · exact ihRest h text htext
  | chain op inner ih =>
    rw [collect] at h
    split at h
    · cases h
    · obtain ⟨_, hcollect, -⟩ := bind_eq_ok h
      simp only [tokens, List.mem_cons, reduceCtorEq, false_or]
      exact ih hcollect

end Operands

def Stop.InReduction (rules : Rules) (stop : Stop) : Prop :=
  ∃ (p : Pending) (memory : Memory), p.operands ≠ [] ∧ p.reduce rules memory = .error stop

theorem bind_eq_error {ε α β : Type} {x : Except ε α} {f : α → Except ε β} {e : ε}
    (h : x.bind f = .error e) : x = .error e ∨ ∃ a, x = .ok a ∧ f a = .error e := by
  cases x with
  | error e' => exact .inl (congrArg Except.error (Except.error.inj h))
  | ok a => exact .inr ⟨a, rfl, h⟩

theorem map_eq_error {ε α β : Type} {x : Except ε α} {f : α → β} {e : ε}
    (h : x.map f = .error e) : x = .error e := by
  cases x with
  | error e' => exact congrArg Except.error (Except.error.inj h)
  | ok a => cases h

namespace Operands

variable {rules : Rules}

theorem collect_error {operands : Operands} {level : Nat} {p : Pending} {memory : Memory}
    {stop : Stop} (hwell : operands.WellFormed)
    (hdepth : (level + operands.depth : Nat) ≤ rules.maxDepth)
    (hdenotes : ∀ text, .operand text ∈ operands.tokens → Denotes text)
    (h : operands.collect rules level p memory = .error stop) : stop.InReduction rules := by
  induction operands generalizing level p memory with
  | empty => cases h
  | word text rest ih =>
    simp only [tokens, List.mem_cons, Token.operand.injEq] at hdenotes
    rw [collect] at h
    split at h
    · exact ih hwell.2 hdepth (fun text htext => hdenotes text (.inr htext)) h
    · rename_i hnone
      have hsome : (operandValue? memory.answer text).isSome = true :=
        isSome_operandValue?.2 (hdenotes text (.inl rfl))
      simp [hnone] at hsome
  | group op inner rest ihInner ihRest =>
    simp only [tokens, List.mem_cons, List.mem_append, reduceCtorEq, false_or] at hdenotes
    simp only [depth] at hdepth
    rw [collect, if_neg (by omega)] at h
    rcases bind_eq_error h with hinner | ⟨collected, hcollect, h⟩
    · exact ihInner hwell.2.1 (by omega) (fun text htext => hdenotes text (.inl htext)) hinner
    rcases bind_eq_error h with hreduce | ⟨reduced, -, hrest⟩
    · exact ⟨_, _, operands_ne_nil_of_collect (.inl hwell.1) hcollect, hreduce⟩
    · exact ihRest hwell.2.2 (by omega) (fun text htext => hdenotes text (.inr htext)) hrest
  | chain op inner ih =>
    simp only [tokens, List.mem_cons, reduceCtorEq, false_or] at hdenotes
    simp only [depth] at hdepth
    rw [collect, if_neg (by omega)] at h
    rcases bind_eq_error h with hinner | ⟨collected, hcollect, h⟩
    · exact ih hwell.2 (by omega) hdenotes hinner
    · exact ⟨_, _, operands_ne_nil_of_collect (.inl hwell.1) hcollect, map_eq_error h⟩

end Operands

structure Tree.Accepted (maxDepth : Int) (t : Tree) : Prop where
  wellFormed : t.WellFormed
  depth : t.depth ≤ maxDepth
  denotes : ∀ text, .operand text ∈ t.tokens → Denotes text

namespace Tree

variable {rules : Rules} {memory : Memory} {t : Tree}

theorem accepted_of_evaluate {reduced : Double × Memory} (hwell : t.WellFormed)
    (hdepth : t.depth ≤ rules.maxDepth) (h : t.evaluate rules memory = .ok reduced) :
    t.Accepted rules.maxDepth := by
  refine ⟨hwell, hdepth, ?_⟩
  rw [evaluate] at h
  split at h
  · cases h
  · obtain ⟨_, hcollect, -⟩ := bind_eq_ok h
    simp only [tokens, List.mem_cons, reduceCtorEq, false_or]
    exact Operands.denotes_of_collect hcollect

theorem Accepted.evaluate_error (ht : t.Accepted rules.maxDepth) {stop : Stop}
    (h : t.evaluate rules memory = .error stop) : stop.InReduction rules := by
  have hdepth := ht.depth
  have hdenotes := ht.denotes
  simp only [tokens, List.mem_cons, reduceCtorEq, false_or] at hdenotes
  rw [Tree.depth] at hdepth
  rw [evaluate, if_neg (by omega)] at h
  rcases bind_eq_error h with hcollect | ⟨collected, hcollect, hreduce⟩
  · exact Operands.collect_error ht.wellFormed.2 (by omega) hdenotes hcollect
  · exact ⟨_, _, Operands.operands_ne_nil_of_collect (.inl ht.wellFormed.1) hcollect, hreduce⟩

end Tree

theorem exists_accepted_of_evaluateLine {rules : Rules} {memory : Memory} {line : Text}
    {reduced : Double × Memory} (h : evaluateLine rules memory line = .ok reduced) :
    ∃ t : Tree, t.Accepted rules.maxDepth ∧ Text.Spaced t.words line.pointForComma ∧
      line.length ≤ rules.maxLength := by
  obtain ⟨t, hwell, hdepth, hs, hlength⟩ := exists_tree_of_evaluateLine h
  refine ⟨t, ?_, hs, hlength⟩
  rw [hwell.grammatical.evaluateLine_eq hs hlength] at h
  exact Tree.accepted_of_evaluate hwell hdepth h

theorem inReduction_of_evaluateLine {rules rules' : Rules} {memory memory' : Memory} {line : Text}
    {reduced : Double × Memory} {stop : Stop} (hok : evaluateLine rules memory line = .ok reduced)
    (herror : evaluateLine rules' memory' line = .error stop)
    (hlength : rules.maxLength = rules'.maxLength) (hdepth : rules.maxDepth = rules'.maxDepth) :
    stop.InReduction rules' := by
  obtain ⟨t, ht, hs, hshort⟩ := exists_accepted_of_evaluateLine hok
  rw [hdepth] at ht
  rw [ht.wellFormed.grammatical.evaluateLine_eq hs (hlength ▸ hshort)] at herror
  exact ht.evaluate_error herror

namespace CalcError

def formCodes : List Text :=
  ["TOO_LONG".toList, "EMPTY_INPUT".toList, "UNBALANCED".toList, "INVALID_SYMBOL".toList,
    "NO_OPERANDS".toList, "NUMBER_ERROR".toList, "TOO_DEEP".toList]

def OfForm (error : CalcError) : Prop :=
  error.code ∈ formCodes

def OfValue (error : CalcError) : Prop :=
  error.code = "NOT_A_NUMBER".toList ∨ error.code = "INFINITE_RESULT".toList ∨
    ∃ low high, error = .rangeOutOfBounds low high

theorem OfValue.not_ofForm {error : CalcError} (h : error.OfValue) : ¬ error.OfForm := by
  rw [OfForm]
  rcases h with h | h | ⟨low, high, rfl⟩
  · rw [h]
    decide
  · rw [h]
    decide
  · rw [show (rangeOutOfBounds low high).code = "NOTATION_ERROR".toList from rfl]
    decide

end CalcError

theorem Stop.InReduction.ofValue {rules : Rules} {stop : Stop} (h : stop.InReduction rules)
    {error : CalcError} (herror : stop.failure = .reported error) : error.OfValue := by
  obtain ⟨p, memory, hne, hreduce⟩ := h
  have hreduces := p.reduces rules memory
  rw [hreduce] at hreduces
  cases hreduces with
  | empty hnil => exact absurd hnil hne
  | failed _ happly =>
    cases herror
    exact .inr (.inr (Operator.apply_failure happly))
  | notANumber _ happly =>
    cases herror
    exact .inl rfl
  | infinite _ happly =>
    cases herror
    exact .inr (.inl rfl)
  | unrounded _ happly hfinite hround => cases herror

def CalcError.OfReduction (error : CalcError) : Prop :=
  error = .noOperands ∨ error.OfValue

theorem Pending.ofReduction {rules : Rules} {memory : Memory} {p : Pending} {stop : Stop}
    (h : p.reduce rules memory = .error stop) {error : CalcError}
    (herror : stop.failure = .reported error) : error.OfReduction := by
  by_cases hempty : p.operands = []
  · have hreduce : p.reduce rules memory = .error ⟨.reported .noOperands, memory⟩ := by
      rw [Pending.reduce, if_pos (by simpa using hempty)]
    rw [hreduce] at h
    cases h
    exact .inl (Failure.reported.inj herror).symm
  · exact .inr (Stop.InReduction.ofValue ⟨p, memory, hempty, h⟩ herror)

theorem CalcError.OfReduction.ne {error : CalcError} (h : error.OfReduction) :
    (∀ limit, error ≠ .tooDeep limit) ∧ ∀ text, error ≠ .invalidNumber text := by
  constructor
  · rintro limit rfl
    rcases h with h | h
    · cases h
    · exact h.not_ofForm (show "TOO_DEEP".toList ∈ CalcError.formCodes by decide)
  · rintro text rfl
    rcases h with h | h
    · cases h
    · exact h.not_ofForm (show "NUMBER_ERROR".toList ∈ CalcError.formCodes by decide)

theorem Failure.ne_tooDeep {failure : Failure}
    (hreported : ∀ limit, failure ≠ .reported (.tooDeep limit))
    (hfault : failure ≠ .fault (.longInteger none)) (limit : Int) : failure ≠ .tooDeep limit := by
  by_cases hlimit : IsWritable limit
  · rw [Failure.tooDeep_of_writable hlimit]
    exact hreported _
  · rw [Failure.tooDeep_of_not_writable hlimit]
    exact hfault

theorem Failure.exists_of_tooDeep {limit : Int} {error : CalcError}
    (h : Failure.tooDeep limit = .reported error) : ∃ limit, error = .tooDeep limit := by
  by_cases hlimit : IsWritable limit
  · rw [Failure.tooDeep_of_writable hlimit] at h
    exact ⟨_, (Failure.reported.inj h).symm⟩
  · rw [Failure.tooDeep_of_not_writable hlimit] at h
    cases h

theorem Pending.reduce_ne_tooDeep {rules : Rules} {memory : Memory} {p : Pending} {stop : Stop}
    (h : p.reduce rules memory = .error stop) (limit : Int) :
    stop.failure ≠ .tooDeep limit := by
  refine Failure.ne_tooDeep (fun limit hdeep => (Pending.ofReduction h hdeep).ne.1 limit rfl)
    (fun hfault => ?_) limit
  have hreduces := p.reduces rules memory
  rw [h] at hreduces
  cases hreduces with
  | empty | notANumber | infinite => cases hfault
  | failed _ happly =>
    obtain rfl := hfault
    exact Operator.apply_failure happly rfl
  | @unrounded x _ _ _ _ _ hround =>
    have hcomputes := x.computes_roundAt rules.digits
    rw [hround] at hcomputes
    exact hcomputes (congrArg Except.error (Failure.fault.inj hfault))

theorem Stop.InReduction.ne_tooDeep {rules : Rules} {stop : Stop} (h : stop.InReduction rules)
    (limit : Int) : stop.failure ≠ .tooDeep limit := by
  obtain ⟨p, memory, -, hreduce⟩ := h
  exact Pending.reduce_ne_tooDeep hreduce limit

namespace Session

/-- A line that evaluates in one session evaluates in every other one, or is stopped by a value: by
a result that is no finite number, or by bounds that the random source does not serve. A line that
is refused in one session for its form evaluates in none. -/
theorem form_of_line (settings : Settings) (line : Text) (traced : Bool) (maxDepth : Option Int)
    (s₁ s₂ : Session) (source₁ source₂ : Source) (precision₁ precision₂ : Option Int)
    (hanswer : s₂.answer.value.isFinite = true) (hsource : source₂.Reliable) :
    let first := s₁.outcome settings source₁ line traced (.ofPrecision precision₁) maxDepth
    let second := s₂.outcome settings source₂ line traced (.ofPrecision precision₂) maxDepth
    (∀ x after, first = .ok (x, after) → (∃ y after', second = .ok (y, after')) ∨
      ∃ error memory, second = .error ⟨.reported error, memory⟩ ∧ error.OfValue) ∧
    ∀ error memory, first = .error ⟨.reported error, memory⟩ → error.OfForm →
      ∀ (s : Session) (source : Source) (precision : Option Int) (x : Double) (after : Memory),
        s.outcome settings source line traced (.ofPrecision precision) maxDepth ≠
          .ok (x, after) := by
  dsimp only
  simp only [outcome_eq]
  constructor
  · intro x after hfirst
    cases hsecond : evaluateLine (s₂.rules settings source₂ precision₂ maxDepth)
      (s₂.memory traced) line with
    | ok reduced => exact .inl ⟨reduced.1, reduced.2, rfl⟩
    | error stop =>
      have hstop := inReduction_of_evaluateLine hfirst hsecond rfl rfl
      have hrules : Preserves (s₂.rules settings source₂ precision₂ maxDepth)
          (fun memory => memory.answer.isFinite = true) (fun x => x.isFinite = true)
          (Stop.Sound (maxDepth.getD settings.maxExpressionDepth)) :=
        preserves_finite hsource
      have hmemory : (s₂.memory traced).answer.isFinite = true := hanswer
      have hends := hrules.evaluateLine hmemory line
      rw [hsecond] at hends
      obtain ⟨error, herror⟩ := hends.2.resolve_right (hstop.ne_tooDeep _)
      refine .inr ⟨error, stop.memory, ?_, hstop.ofValue herror⟩
      rw [← herror]
  · intro error memory hfirst hform s source precision x after hok
    have hstop := inReduction_of_evaluateLine hok hfirst rfl rfl
    exact (hstop.ofValue rfl).not_ofForm hform

theorem form_of_line_product :
    let large : Double := .ofDecimal false 1 308
    let s : Session := { fresh .usual with answer := ⟨.zero, large⟩ }
    let line := "* ans 1e308".toList
    let second := s.outcome .usual .highest line false (.ofPrecision (some 0)) none
    (s.answer.value.isFinite = true ∧ Source.highest.Reliable) ∧
      ((∃ y after, second = .ok (y, after)) ∨
        ∃ error memory, second = .error ⟨.reported error, memory⟩ ∧ error.OfValue) ∧
      (Outcome.result second).isOk = false := by
  intro large s line second
  have hanswer : s.answer.value.isFinite = true := by decide +kernel
  have hsource : Source.highest.Reliable := nofun
  have hfirst : Outcome.result
      ((fresh .usual).outcome .usual .lowest line false (.ofPrecision none) none) = .ok .zero := by
    decide +kernel
  obtain ⟨hform, -⟩ :=
    form_of_line .usual line false none (fresh .usual) s .lowest .highest none (some 0)
    hanswer hsource
  obtain ⟨after, houtcome⟩ := Outcome.result_eq_ok hfirst
  exact ⟨⟨hanswer, hsource⟩, hform .zero after houtcome, by decide +kernel⟩

end Session

end PolishCalc
