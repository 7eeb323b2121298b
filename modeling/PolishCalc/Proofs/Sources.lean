import PolishCalc.Proofs.Lockstep

namespace PolishCalc

def Memory.Same (Q : List Request → Prop) (memory memory' : Memory) : Prop :=
  memory' = memory ∧ Q memory.requests

section

variable {Q : List Request → Prop} {Apart : Memory → Prop} {first second : Outcome}

theorem Alike.of_eq (h : second = first) (hrequests : Q (Outcome.memory first).requests) :
    Alike (Memory.Same Q) Apart first second := by
  subst h
  cases second with
  | ok reduced => exact .value ⟨rfl, hrequests⟩
  | error stop => exact .failure ⟨rfl, hrequests⟩

theorem Alike.eq (h : Alike (Memory.Same Q) Apart first second)
    (hapart : ¬ Apart (Outcome.memory first)) :
    second = first ∧ Q (Outcome.memory first).requests := by
  cases h with
  | value hR =>
    obtain ⟨rfl, hrequests⟩ := hR
    exact ⟨rfl, hrequests⟩
  | failure hR =>
    obtain ⟨rfl, hrequests⟩ := hR
    exact ⟨rfl, hrequests⟩
  | apart h => exact absurd h hapart

end

def Rules.withSource (rules : Rules) (source : Source) : Rules :=
  { rules with source := source }

namespace Pending

variable {rules : Rules} {memory : Memory} {p : Pending}

theorem requests_reduce (hne : p.operands ≠ []) :
    (Outcome.memory (p.reduce rules memory)).requests =
      (p.operator.apply rules.source ((p.complete memory.answer).map Operand.double)
        memory.requests).2 := by
  have hreduces := p.reduces rules memory
  generalize p.reduce rules memory = outcome at hreduces
  cases hreduces with
  | empty hempty => exact absurd hempty hne
  | failed _ h | notANumber _ h | infinite _ h | unrounded _ h | completed _ h => exact h ▸ rfl

theorem reduce_empty (hempty : p.operands = []) :
    p.reduce rules memory = .error ⟨.reported .noOperands, memory⟩ := by
  rw [reduce, hempty]
  rfl

theorem reduce_withSource {source : Source}
    (h : p.operator.apply source ((p.complete memory.answer).map Operand.double) memory.requests =
      p.operator.apply rules.source ((p.complete memory.answer).map Operand.double)
        memory.requests) :
    p.reduce (rules.withSource source) memory = p.reduce rules memory := by
  simp only [reduce, Rules.withSource, h]

end Pending

theorem preserves_grown (rules : Rules) (start : List Request) :
    Preserves rules (fun memory => Grown start memory.requests) (fun _ => True)
      (fun stop => Grown start stop.memory.requests) where
  operand _ _ := trivial
  fail _ hmemory := hmemory
  tooDeep hmemory := hmemory
  reduce := by
    intro memory p hmemory _
    have hgrown : Grown start (Outcome.memory (p.reduce rules memory)).requests := by
      by_cases hempty : p.operands = []
      · rw [Pending.reduce_empty hempty]
        exact hmemory
      · rw [Pending.requests_reduce hempty]
        exact hmemory.trans ((p.operator.asks_apply _).grown _ _)
    generalize p.reduce rules memory = outcome at hgrown
    cases outcome with
    | ok reduced => exact ⟨trivial, hgrown⟩
    | error stop => exact hgrown

theorem lockstep_quiet (rules : Rules) (source : Source) (start : List Request) :
    Lockstep (fun op => op ≠ .random) (Memory.Same fun requests => requests = start)
      (fun _ => False) rules (rules.withSource source) where
  maxLength := rfl
  maxDepth := rfl
  answer := by
    rintro _ memory ⟨rfl, -⟩
    rfl
  apart _ hfalse := hfalse
  reduce := by
    rintro _ memory p ⟨rfl, hstart⟩ hop
    obtain ⟨result, happly⟩ := Operator.apply_quiet hop
      ((p.complete memory.answer).map Operand.double)
    refine Alike.of_eq (Pending.reduce_withSource ?_) ?_
    · rw [happly, happly]
    · by_cases hempty : p.operands = []
      · rw [Pending.reduce_empty hempty]
        exact hstart
      · rw [Pending.requests_reduce hempty, happly]
        exact hstart

theorem lockstep_agree (rules : Rules) (source : Source) (start : List Request) :
    Lockstep (fun _ => True) (Memory.Same fun requests => start <:+ requests)
      (fun memory => ¬ rules.source.Agree source start memory.requests) rules
      (rules.withSource source) where
  maxLength := rfl
  maxDepth := rfl
  answer := by
    rintro _ memory ⟨rfl, -⟩
    rfl
  apart hextends hbefore hafter := hbefore (hafter.of_suffix hextends.requests)
  reduce := by
    rintro _ memory p ⟨rfl, hstart⟩ -
    by_cases hempty : p.operands = []
    · rw [Pending.reduce_empty hempty, Pending.reduce_empty hempty]
      exact .failure ⟨rfl, hstart⟩
    have hasks := p.operator.asks_apply ((p.complete memory.answer).map Operand.double)
    by_cases hagree : rules.source.Agree source start
        (Outcome.memory (p.reduce rules memory)).requests
    · rw [Pending.requests_reduce hempty] at hagree
      refine Alike.of_eq (Pending.reduce_withSource (hasks.agree hstart hagree)) ?_
      rw [Pending.requests_reduce hempty]
      exact hstart.trans (hasks.grown _ _).suffix
    · exact .apart hagree

section

variable (rules : Rules) (memory : Memory) (line : Text)

theorem grown_evaluateLine :
    Grown memory.requests (Outcome.memory (evaluateLine rules memory line)).requests := by
  have hends := (preserves_grown rules memory.requests).evaluateLine (Grown.refl _) line
  cases h : evaluateLine rules memory line with
  | ok reduced =>
    rw [h] at hends
    exact hends.2
  | error stop =>
    rw [h] at hends
    exact hends

theorem evaluateLine_quiet (source : Source)
    (hline : Token.operator .random ∉ Token.ofLine line.pointForComma) :
    evaluateLine (rules.withSource source) memory line = evaluateLine rules memory line ∧
      (Outcome.memory (evaluateLine rules memory line)).requests = memory.requests := by
  have hoperators : ∀ op, .operator op ∈ Token.ofLine line.pointForComma → op ≠ .random := by
    rintro _ hop rfl
    exact hline hop
  have halike := (lockstep_quiet rules source memory.requests).evaluateLine hoperators
    (show Memory.Same _ memory memory from ⟨rfl, rfl⟩)
  exact halike.eq id

theorem evaluateLine_agree (source : Source)
    (hagree : rules.source.Agree source memory.requests
      (Outcome.memory (evaluateLine rules memory line)).requests) :
    evaluateLine (rules.withSource source) memory line = evaluateLine rules memory line := by
  have halike : Alike _ _ (evaluateLine rules memory line)
      (evaluateLine (rules.withSource source) memory line) :=
    (lockstep_agree rules source memory.requests).evaluateLine (fun _ _ => trivial)
      ⟨rfl, List.suffix_rfl⟩
  exact (halike.eq fun h => h hagree).1

end

namespace Session

theorem outcome_withSource (settings : Settings) (s : Session) (line : Text) (traced : Bool)
    (precision : Operand) (maxDepth : Option Int) :
    (∃ fault, ∀ source, s.outcome settings source line traced precision maxDepth =
      .error ⟨.fault fault, s.memory traced⟩) ∨
    ∃ rules : Rules, ∀ source, s.outcome settings source line traced precision maxDepth =
      evaluateLine (rules.withSource source) (s.memory traced) line := by
  simp only [outcome]
  cases s.placesFor precision with
  | error fault => exact .inl ⟨fault, fun _ => rfl⟩
  | ok digits => exact .inr ⟨⟨digits, settings.maxInputLength, _, .lowest⟩, fun _ => rfl⟩

/-- Without the random operator in a line, its evaluation makes no request and comes to the same
with all sources. With it, all that is requested is an integer of a range of at least two, and two
sources make no difference if they give the same answers to the requests made. -/
theorem outcome_of_source (settings : Settings) (source source' : Source) (s : Session)
    (line : Text) (traced : Bool) (precision : Operand) (maxDepth : Option Int) :
    let outcome := fun source => s.outcome settings source line traced precision maxDepth
    let requests := (Outcome.memory (outcome source)).requests
    (Token.operator .random ∉ Token.ofLine line.pointForComma →
      outcome source' = outcome source ∧ requests = s.requests) ∧
    (source.Agree source' s.requests requests → outcome source' = outcome source) ∧
    ∃ made, requests = made ++ s.requests ∧ ∀ request ∈ made, request.low < request.high := by
  dsimp only
  rcases outcome_withSource settings s line traced precision maxDepth with
    ⟨fault, hfault⟩ | ⟨rules, hrules⟩
  · rw [hfault, hfault]
    exact ⟨fun _ => ⟨rfl, rfl⟩, fun _ => rfl, Grown.refl s.requests⟩
  · rw [hrules, hrules]
    exact ⟨evaluateLine_quiet (rules.withSource source) (s.memory traced) line source',
      evaluateLine_agree (rules.withSource source) (s.memory traced) line source',
      grown_evaluateLine (rules.withSource source) (s.memory traced) line⟩

theorem outcome_of_source_dice :
    let outcome := fun (line : String) source =>
      (fresh .usual).outcome .usual source line.toList false .absent none
    let dice := "+ (r 1 6) (r 2 9)"
    let requests := (Outcome.memory (outcome dice .highest)).requests
    (Token.operator .random ∉ Token.ofLine (Text.pointForComma "+ (* 2 3) ans".toList) ∧
      outcome "+ (* 2 3) ans" (.refusing .outOfRange) = outcome "+ (* 2 3) ans" .highest) ∧
    requests = [⟨2, 9⟩, ⟨1, 6⟩] ∧
    Source.highest.Agree (.scripted [6, 9]) [] requests ∧
    outcome dice (.scripted [6, 9]) = outcome dice .highest := by
  intro outcome dice requests
  obtain ⟨hquiet, -, -⟩ := outcome_of_source .usual .highest (.refusing .outOfRange) (fresh .usual)
    "+ (* 2 3) ans".toList false .absent none
  obtain ⟨-, hagree, -⟩ := outcome_of_source .usual .highest (.scripted [6, 9]) (fresh .usual)
    dice.toList false .absent none
  have hline : Token.operator .random ∉ Token.ofLine (Text.pointForComma "+ (* 2 3) ans".toList) :=
    by decide
  have hrequests : requests = [⟨2, 9⟩, ⟨1, 6⟩] := by decide +kernel
  have hscript : Source.highest.Agree (.scripted [6, 9]) [] requests := by
    intro request before _ hmade
    rw [hrequests] at hmade
    rcases List.suffix_cons_iff.1 hmade with heq | hmade
    · cases heq
      rfl
    rcases List.suffix_cons_iff.1 hmade with heq | hmade
    · cases heq
      rfl
    · exact absurd (List.suffix_nil.1 hmade) (List.cons_ne_nil _ _)
  exact ⟨⟨hline, (hquiet hline).1⟩, hrequests, hscript, hagree hscript⟩

end Session

end PolishCalc
