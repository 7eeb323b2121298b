import Mathlib.Data.List.Forall2
import PolishCalc.Proofs.Application
import PolishCalc.Proofs.Invariant
import PolishCalc.Proofs.Meaning
import PolishCalc.Session.Action

namespace PolishCalc

theorem isFinite_of_readOperand? {text : Text} {x : Double}
    (h : Double.readOperand? text = some x) : x.isFinite = true := by
  rw [Double.readOperand?] at h
  split at h
  · split at h
    · rename_i hfinite
      obtain rfl := Option.some.inj h
      exact hfinite
    · cases h
  · cases h

theorem isFinite_of_mem_fixedConstants :
    ∀ entry ∈ fixedConstants, entry.2.isFinite = true := by
  decide +kernel

theorem eq_or_isFinite_of_constant? {answer : Double} {name : Text} {x : Double}
    (h : constant? answer name = some x) : x = answer ∨ x.isFinite = true := by
  rw [constant?] at h
  split at h
  · exact .inl (Option.some.inj h).symm
  · obtain ⟨front, back, hsplit, -⟩ := List.lookup_eq_some_iff.1 h
    exact .inr (isFinite_of_mem_fixedConstants (name, x) (by simp [hsplit]))

theorem eq_or_isFinite_of_operandValue? {answer : Double} {text : Text} {x : Double}
    (h : operandValue? answer text = some x) : x = answer ∨ x.isFinite = true := by
  rcases Option.or_eq_some_iff.1 h with hconstant | ⟨-, hnumber⟩
  · exact eq_or_isFinite_of_constant? hconstant
  · exact .inr (isFinite_of_readOperand? hnumber)

namespace Pending

theorem forall_mem_complete {V : Double → Prop} {p : Pending} {answer : Double}
    (hanswer : V answer) (hp : ∀ x ∈ p.operands, V x) : ∀ x ∈ p.complete answer, V x := by
  unfold complete
  split
  · rename_i x hx
    rw [hx] at hp
    simpa [hanswer] using hp
  · simpa using hp

theorem complete_ne_nil {p : Pending} (answer : Double) (h : p.operands ≠ []) :
    p.complete answer ≠ [] := by
  unfold complete
  split
  · exact List.cons_ne_nil _ _
  · simpa using h

theorem reports_of_reduce {rules : Rules} (hsource : rules.source.Reliable) {memory : Memory}
    {p : Pending} (hanswer : memory.answer.isInfinite = false)
    (hp : ∀ x ∈ p.operands, x.isInfinite = false) {stop : Stop}
    (h : p.reduce rules memory = .error stop) : ∃ error, stop.failure = .reported error := by
  have hreduces := p.reduces rules memory
  rw [h] at hreduces
  cases hreduces with
  | empty hnil => exact ⟨_, rfl⟩
  | failed hne happly =>
    have hreports := p.operator.apply_reports hsource (complete_ne_nil memory.answer hne)
      (forall_mem_complete hanswer hp) memory.requests
    rw [happly] at hreports
    cases hreports with
    | error e => exact ⟨e, rfl⟩
  | notANumber hne happly => exact ⟨_, rfl⟩
  | infinite hne happly => exact ⟨_, rfl⟩
  | unrounded hne happly hfinite hround =>
    obtain ⟨y, hy, -⟩ := Double.exists_roundAt rules.digits hfinite
    rw [hround] at hy
    cases hy

theorem isFinite_of_reduce {rules : Rules} {memory after : Memory} {p : Pending} {x : Double}
    (h : p.reduce rules memory = .ok (x, after)) :
    x.isFinite = true ∧ after.answer.isFinite = true := by
  obtain ⟨-, y, requests, -, hfinite, hround, rfl⟩ := reduce_ok h
  obtain ⟨z, hz, hrounded⟩ := Double.exists_roundAt rules.digits hfinite
  rw [hround] at hz
  obtain rfl := Except.ok.inj hz
  exact ⟨hrounded, hrounded⟩

end Pending

def Failure.IsReported (failure : Failure) (maxDepth : Int) : Prop :=
  (∃ error, failure = .reported error) ∨ failure = .tooDeep maxDepth

def Stop.Sound (maxDepth : Int) (stop : Stop) : Prop :=
  stop.memory.answer.isFinite = true ∧ stop.failure.IsReported maxDepth

theorem Failure.IsReported.of_writable {failure : Failure} {maxDepth : Int}
    (h : failure.IsReported maxDepth) (hlimit : IsWritable maxDepth) :
    ∃ error, failure = .reported error :=
  h.elim id fun hdeep => ⟨_, hdeep.trans (Failure.tooDeep_of_writable hlimit)⟩

theorem preserves_finite {rules : Rules} (hsource : rules.source.Reliable) :
    Preserves rules (fun memory => memory.answer.isFinite = true) (fun x => x.isFinite = true)
      (Stop.Sound rules.maxDepth) where
  operand hmemory h := (eq_or_isFinite_of_operandValue? h).elim (fun hx => hx ▸ hmemory) id
  fail error hmemory := ⟨hmemory, .inl ⟨error, rfl⟩⟩
  tooDeep hmemory := ⟨hmemory, .inr rfl⟩
  reduce := by
    intro memory p hmemory hp
    cases hreduce : p.reduce rules memory with
    | ok reduced => exact Pending.isFinite_of_reduce hreduce
    | error stop =>
      refine ⟨?_, .inl (Pending.reports_of_reduce hsource (isInfinite_of_isFinite hmemory)
        (fun x hx => isInfinite_of_isFinite (hp x hx)) hreduce)⟩
      rw [Pending.reduce_error hreduce]
      exact hmemory

theorem preserves_notInfinite {rules : Rules} (hsource : rules.source.Reliable) :
    Preserves rules (fun memory => memory.answer.isInfinite = false)
      (fun x => x.isInfinite = false) (fun stop => stop.failure.IsReported rules.maxDepth) where
  operand hmemory h :=
    (eq_or_isFinite_of_operandValue? h).elim (fun hx => hx ▸ hmemory) isInfinite_of_isFinite
  fail error hmemory := .inl ⟨error, rfl⟩
  tooDeep hmemory := .inr rfl
  reduce := by
    intro memory p hmemory hp
    cases hreduce : p.reduce rules memory with
    | ok reduced =>
      obtain ⟨hx, hafter⟩ := Pending.isFinite_of_reduce hreduce
      exact ⟨isInfinite_of_isFinite hx, isInfinite_of_isFinite hafter⟩
    | error stop => exact .inl (Pending.reports_of_reduce hsource hmemory hp hreduce)

structure Session.Configured (settings : Settings) (s : Session) : Prop where
  ansDefault : s.answer.standard = settings.ansDefault
  minimum : s.precision.minimum = settings.minPrecision
  maximum : s.precision.maximum = settings.maxPrecision
  precision : s.precision.standard =
    Precision.clamp settings.minPrecision settings.maxPrecision settings.defaultPrecision
  sentinel : s.history.sentinel = resetExpression settings

structure Session.Sound (settings : Settings) (s : Session) : Prop where
  configured : s.Configured settings
  standard : s.answer.standard.isFinite = true
  answer : s.answer.value.isFinite = true
  low : settings.minPrecision ≤ s.precision.value
  high : s.precision.value ≤ settings.maxPrecision

def Reply.IsFinite : Reply → Prop
  | .number x => x.isFinite = true
  | .traced x _ => x.isFinite = true
  | _ => False

/-- An action that takes a precision takes an integer, or none for an evaluation, and the answer is
not set from outside. -/
def Action.Plain : Action → Prop
  | .evaluate _ _ precision _ => ∃ p, precision = .ofPrecision p
  | .setPrecision digits => ∃ n, digits = .integer n
  | .setAnswer _ _ => False
  | _ => True

def Action.IsEvaluation : Action → Prop
  | .evaluate _ _ _ _ => True
  | .resetAnswer => True
  | _ => False

def Action.HasWritableLimit : Action → Prop
  | .evaluate _ _ _ (some limit) => IsWritable limit
  | _ => True

structure Safe (settings : Settings) (action : Action)
    (done : Except Failure Reply × Session) : Prop where
  sound : done.2.Sound settings
  reply : ∀ reply, done.1 = .ok reply → action.IsEvaluation → reply.IsFinite
  failure : ∀ failure, done.1 = .error failure → action.HasWritableLimit →
    ∃ error, failure = .reported error

namespace Precision

theorem clamp_bounds {minimum maximum : Int} (h : minimum ≤ maximum) (n : Int) :
    minimum ≤ clamp minimum maximum n ∧ clamp minimum maximum n ≤ maximum := by
  rw [clamp]
  omega

def Alike (p q : Precision) : Prop :=
  p.minimum = q.minimum ∧ p.maximum = q.maximum ∧ p.standard = q.standard

theorem alike_increase (p : Precision) : p.increase.Alike p := by
  unfold increase
  split <;> exact ⟨rfl, rfl, rfl⟩

theorem alike_decrease (p : Precision) : p.decrease.Alike p := by
  unfold decrease
  split <;> exact ⟨rfl, rfl, rfl⟩

end Precision

namespace Session

variable {settings : Settings} {source : Source} {s : Session}

theorem configured_fresh (settings : Settings) : (fresh settings).Configured settings :=
  ⟨rfl, rfl, rfl, rfl, rfl⟩

namespace Configured

theorem adopt (h : s.Configured settings) (memory : Memory) :
    (s.adopt memory).Configured settings :=
  ⟨h.ansDefault, h.minimum, h.maximum, h.precision, h.sentinel⟩

theorem withAnswer (h : s.Configured settings) {a : Answer} (ha : a.standard = s.answer.standard) :
    ({ s with answer := a } : Session).Configured settings :=
  ⟨ha.trans h.ansDefault, h.minimum, h.maximum, h.precision, h.sentinel⟩

theorem withPrecision (h : s.Configured settings) {p : Precision} (hp : p.Alike s.precision) :
    ({ s with precision := p } : Session).Configured settings :=
  ⟨h.ansDefault, hp.1.trans h.minimum, hp.2.1.trans h.maximum, hp.2.2.trans h.precision,
    h.sentinel⟩

theorem withHistory (h : s.Configured settings) {log : History}
    (hlog : log.sentinel = s.history.sentinel) :
    ({ s with history := log } : Session).Configured settings :=
  ⟨h.ansDefault, h.minimum, h.maximum, h.precision, hlog.trans h.sentinel⟩

theorem reset (h : s.Configured settings) (source : Source) :
    (s.reset settings source).2.1.Configured settings := by
  unfold Session.reset
  dsimp only
  have hcleared : ({ s with history := s.history.clear } : Session).Configured settings :=
    h.withHistory rfl
  have hadopt := hcleared.adopt
  split
  · exact hadopt _
  · exact (hadopt _).withPrecision ⟨rfl, rfl, rfl⟩

theorem perform (h : s.Configured settings) (source : Source) (action : Action) :
    (s.perform settings source action).2.Configured settings := by
  cases action with
  | evaluate line traced precision maxDepth => exact h.adopt _
  | constant name => exact h
  | setAnswer value digits =>
    simp only [Session.perform]
    split
    · exact h
    · rename_i answer hset
      obtain ⟨x, -, rfl⟩ := map_eq_ok hset
      exact h.withAnswer rfl
  | clearAnswer => exact h.withAnswer rfl
  | showAnswer => exact h
  | setPrecision digits =>
    simp only [Session.perform]
    split
    · exact h
    · rename_i p hset
      obtain ⟨n, -, rfl⟩ := map_eq_ok hset
      exact h.withPrecision ⟨rfl, rfl, rfl⟩
  | increasePrecision => exact h.withPrecision s.precision.alike_increase
  | decreasePrecision => exact h.withPrecision s.precision.alike_decrease
  | resetPrecision => exact h.withPrecision ⟨rfl, rfl, rfl⟩
  | resetAnswer => exact h.adopt _
  | resetSession => exact h.reset source
  | validate line => exact h
  | addEntry text => exact h.withHistory (s.history.sentinel_add text)
  | previousEntry draft => exact h.withHistory (s.history.sentinel_previous draft)
  | nextEntry draft => exact h.withHistory (s.history.sentinel_next draft)
  | resetCursor => exact h.withHistory rfl
  | clearHistory => exact h.withHistory rfl
  | dumpHistory => exact h

end Configured

theorem sound_fresh (h : settings.ansDefault.isFinite = true) :
    (fresh settings).Sound settings :=
  have hclamp := Precision.clamp_bounds settings.minPrecision_le settings.defaultPrecision
  ⟨configured_fresh settings, h, h, hclamp.1, hclamp.2⟩

def EndsSound (maxDepth : Int) (outcome : Outcome) : Prop :=
  Ends (fun memory => memory.answer.isFinite = true) (fun x => x.isFinite = true)
    (Stop.Sound maxDepth) outcome

theorem outcome_sound (hsource : source.Reliable) (hs : s.Sound settings) (line : Text)
    (traced : Bool) (precision maxDepth : Option Int) :
    EndsSound (maxDepth.getD settings.maxExpressionDepth)
      (s.outcome settings source line traced (.ofPrecision precision) maxDepth) := by
  have hrules : Preserves (s.rules settings source precision maxDepth)
      (fun memory => memory.answer.isFinite = true) (fun x => x.isFinite = true)
      (Stop.Sound (maxDepth.getD settings.maxExpressionDepth)) :=
    preserves_finite hsource
  rw [outcome_eq]
  exact hrules.evaluateLine hs.answer line

namespace Sound

theorem adopt (h : s.Sound settings) {maxDepth : Int} {outcome : Outcome}
    (houtcome : EndsSound maxDepth outcome) :
    (s.adopt (Outcome.memory outcome)).Sound settings := by
  refine ⟨h.configured.adopt _, h.standard, ?_, h.low, h.high⟩
  cases outcome with
  | ok reduced => exact houtcome.2
  | error stop => exact houtcome.1

theorem withPrecision (h : s.Sound settings) {p : Precision} (hp : p.Alike s.precision)
    (hlow : settings.minPrecision ≤ p.value) (hhigh : p.value ≤ settings.maxPrecision) :
    ({ s with precision := p } : Session).Sound settings :=
  ⟨h.configured.withPrecision hp, h.standard, h.answer, hlow, hhigh⟩

theorem withHistory (h : s.Sound settings) {log : History}
    (hlog : log.sentinel = s.history.sentinel) :
    ({ s with history := log } : Session).Sound settings :=
  ⟨h.configured.withHistory hlog, h.standard, h.answer, h.low, h.high⟩

theorem clearAnswer (h : s.Sound settings) :
    ({ s with answer := s.answer.reset } : Session).Sound settings :=
  ⟨h.configured.withAnswer rfl, h.standard, h.standard, h.low, h.high⟩

theorem resetPrecision (h : s.Sound settings) :
    ({ s with precision := s.precision.reset } : Session).Sound settings := by
  have hclamp := Precision.clamp_bounds settings.minPrecision_le settings.defaultPrecision
  rw [← h.configured.precision] at hclamp
  exact h.withPrecision ⟨rfl, rfl, rfl⟩ hclamp.1 hclamp.2

theorem setInteger (h : s.Sound settings) (n : Int) :
    ({ s with precision := s.precision.setInteger n } : Session).Sound settings := by
  have hclamp := Precision.clamp_bounds settings.minPrecision_le n
  rw [← h.configured.minimum, ← h.configured.maximum] at hclamp
  refine h.withPrecision ⟨rfl, rfl, rfl⟩ ?_ ?_
  · exact h.configured.minimum ▸ hclamp.1
  · exact h.configured.maximum ▸ hclamp.2

theorem increase (h : s.Sound settings) :
    ({ s with precision := s.precision.increase } : Session).Sound settings := by
  have hmaximum := h.configured.maximum
  have hlow := h.low
  have hhigh := h.high
  refine h.withPrecision s.precision.alike_increase ?_ ?_
  all_goals
    unfold Precision.increase
    split
    · dsimp only
      omega
    · omega

theorem decrease (h : s.Sound settings) :
    ({ s with precision := s.precision.decrease } : Session).Sound settings := by
  have hminimum := h.configured.minimum
  have hlow := h.low
  have hhigh := h.high
  refine h.withPrecision s.precision.alike_decrease ?_ ?_
  all_goals
    unfold Precision.decrease
    split
    · dsimp only
      omega
    · omega

end Sound

theorem safe_of_ok {action : Action} {reply : Reply} (haction : ¬ action.IsEvaluation)
    (hs : s.Sound settings) : Safe settings action (.ok reply, s) :=
  ⟨hs, fun _ _ hevaluation => absurd hevaluation haction, fun _ herror => by cases herror⟩

theorem safe_withOutcome {action : Action} {maxDepth : Int} {outcome : Outcome}
    {reply : Double → Reply} (hs : s.Sound settings) (houtcome : EndsSound maxDepth outcome)
    (hlimit : action.HasWritableLimit → IsWritable maxDepth)
    (hreply : ∀ x, x.isFinite = true → (reply x).IsFinite) :
    Safe settings action (s.withOutcome outcome reply) := by
  refine ⟨hs.adopt houtcome, ?_, ?_⟩
  · rintro _ hok -
    cases outcome with
    | ok reduced =>
      obtain rfl := Except.ok.inj hok
      exact hreply _ houtcome.1
    | error stop => cases hok
  · intro failure herror haction
    cases outcome with
    | ok reduced => cases herror
    | error stop =>
      obtain rfl := Except.error.inj herror
      exact houtcome.2.of_writable (hlimit haction)

def cleared (s : Session) : Session :=
  { s with history := s.history.clear }

theorem perform_resetSession_ok {x : Double} {memory : Memory}
    (h : s.cleared.resetAnswer settings source = .ok (x, memory)) :
    s.perform settings source .resetSession =
      (.ok .nothing, { s.cleared.adopt memory with precision := s.precision.reset }) := by
  rw [cleared] at h ⊢
  simp only [perform, reset, h]
  rfl

theorem perform_resetSession_error {stop : Stop}
    (h : s.cleared.resetAnswer settings source = .error stop) :
    s.perform settings source .resetSession =
      (.error stop.failure, s.cleared.adopt stop.memory) := by
  rw [cleared] at h ⊢
  simp only [perform, reset, h]
  rfl

theorem safe_reset (hsource : source.Reliable) (hs : s.Sound settings) :
    Safe settings .resetSession (s.perform settings source .resetSession) := by
  have hcleared : s.cleared.Sound settings := hs.withHistory rfl
  have houtcome := outcome_sound hsource hcleared (resetExpression settings) false none none
  have hadopt := hcleared.adopt houtcome
  cases hreset : s.cleared.resetAnswer settings source with
  | error stop =>
    have hstop : s.cleared.outcome settings source (resetExpression settings) false
      (.ofPrecision none) none = .error stop := hreset
    rw [hstop] at houtcome hadopt
    rw [perform_resetSession_error hreset]
    refine ⟨hadopt, (fun _ hok => by cases hok), fun failure herror _ => ?_⟩
    obtain rfl := Except.error.inj herror
    exact houtcome.2.of_writable settings.limits_writable.2
  | ok reduced =>
    have hvalue : s.cleared.outcome settings source (resetExpression settings) false
      (.ofPrecision none) none = .ok reduced := hreset
    rw [hvalue] at hadopt
    rw [perform_resetSession_ok hreset]
    exact safe_of_ok id hadopt.resetPrecision

theorem perform_safe (hsource : source.Reliable) (hs : s.Sound settings) {action : Action}
    (haction : action.Plain) : Safe settings action (s.perform settings source action) := by
  cases action with
  | evaluate line traced precision maxDepth =>
    obtain ⟨p, rfl⟩ := haction
    refine safe_withOutcome hs (outcome_sound hsource hs line traced p maxDepth) ?_ fun x hx => ?_
    · intro hlimit
      cases maxDepth with
      | none => exact settings.limits_writable.2
      | some limit => exact hlimit
    · cases Outcome.steps (s.outcome settings source line traced (.ofPrecision p) maxDepth) <;>
        exact hx
  | constant name => exact safe_of_ok id hs
  | setAnswer value digits => exact haction.elim
  | clearAnswer => exact safe_of_ok id hs.clearAnswer
  | showAnswer => exact safe_of_ok id hs
  | setPrecision digits =>
    obtain ⟨n, rfl⟩ := haction
    exact safe_of_ok id (hs.setInteger n)
  | increasePrecision => exact safe_of_ok id hs.increase
  | decreasePrecision => exact safe_of_ok id hs.decrease
  | resetPrecision => exact safe_of_ok id hs.resetPrecision
  | resetAnswer =>
    exact safe_withOutcome hs (outcome_sound hsource hs _ false none none)
      (fun _ => settings.limits_writable.2) fun x hx => hx
  | resetSession => exact safe_reset hsource hs
  | validate line => exact safe_of_ok id hs
  | addEntry text => exact safe_of_ok id (hs.withHistory (s.history.sentinel_add text))
  | previousEntry draft =>
    exact safe_of_ok id (hs.withHistory (s.history.sentinel_previous draft))
  | nextEntry draft => exact safe_of_ok id (hs.withHistory (s.history.sentinel_next draft))
  | resetCursor => exact safe_of_ok id (hs.withHistory rfl)
  | clearHistory => exact safe_of_ok id (hs.withHistory rfl)
  | dumpHistory => exact safe_of_ok id hs

end Session

end PolishCalc
