import PolishCalc.Proofs.Acceptance
import PolishCalc.Proofs.Draws

namespace PolishCalc

structure Memory.Extends (after before : Memory) : Prop where
  requests : before.requests <:+ after.requests
  reductions : before.reductions <:+ after.reductions

theorem Memory.Extends.refl {memory : Memory} : memory.Extends memory :=
  ⟨List.suffix_rfl, List.suffix_rfl⟩

theorem preserves_extends (rules : Rules) (before : Memory) :
    Preserves rules (fun memory => memory.Extends before) (fun _ => True)
      (fun stop => stop.memory.Extends before) where
  operand _ _ := trivial
  fail _ hmemory := hmemory
  tooDeep hmemory := hmemory
  reduce := by
    intro memory p hmemory _
    have happly : memory.requests <:+ (p.operator.apply rules.source
        ((p.complete memory.answer).map Operand.double) memory.requests).2 :=
      ((p.operator.asks_apply _).grown rules.source memory.requests).suffix
    have hreduces := p.reduces rules memory
    generalize p.reduce rules memory = outcome at hreduces
    cases hreduces with
    | empty => exact hmemory
    | failed _ h | notANumber _ h | infinite _ h | unrounded _ h =>
      rw [h] at happly
      exact ⟨hmemory.requests.trans happly, hmemory.reductions⟩
    | completed _ h =>
      rw [h] at happly
      exact ⟨trivial, hmemory.requests.trans happly,
        hmemory.reductions.trans (List.suffix_cons _ _)⟩

def Rules.withLimit (rules : Rules) (limit : Int) : Rules :=
  { rules with maxDepth := limit }

def Outcome.CutOff (outcome : Outcome) : Prop :=
  ∃ limit, Outcome.result outcome = .error (.tooDeep limit)

inductive Deepened (limit : Int) : Outcome → Outcome → Prop
  | same (outcome : Outcome) : Deepened limit outcome outcome
  | cut {memory : Memory} {outcome : Outcome} : (Outcome.memory outcome).Extends memory →
      Deepened limit (.error ⟨.tooDeep limit, memory⟩) outcome

theorem Level.reduce_withLimit (rules : Rules) (limit : Int) (memory : Memory) (p : Pending)
    (rest : Level) :
    Level.reduce (rules.withLimit limit) memory p rest = Level.reduce rules memory p rest := by
  induction rest generalizing p memory with
  | nil => rfl
  | cons next rest ih =>
    have hreduce : p.reduce (rules.withLimit limit) memory = p.reduce rules memory := rfl
    simp only [Level.reduce, hreduce, ih]

namespace Progress

variable {low high : Int} (rules : Rules)

theorem extends_of_readAll_finish (p : Progress) (tokens : List Token) :
    (Outcome.memory ((p.readAll rules tokens).bind (finish rules))).Extends p.memory := by
  have hp : p.Keeps (fun memory => memory.Extends p.memory) (fun _ => True) :=
    ⟨.refl, fun _ _ _ _ => trivial, fun _ _ _ _ _ _ => trivial⟩
  have hends := (preserves_extends rules p.memory).readAll_finish hp tokens
  generalize (p.readAll rules tokens).bind (finish rules) = outcome at hends
  cases outcome with
  | error stop => exact hends
  | ok reduced => exact hends.2

theorem reduceAll_withLimit (limit : Int) (memory : Memory) (level : Level) (outer : List Level) :
    reduceAll (rules.withLimit limit) memory level outer = reduceAll rules memory level outer := by
  induction outer generalizing level memory with
  | nil => cases level <;> simp only [reduceAll, Level.reduce_withLimit]
  | cons around outer ih => cases level <;> simp only [reduceAll, Level.reduce_withLimit, ih]

theorem enter_withLimit (h : low ≤ high) (p : Progress) (token : Option Token) :
    p.enter (rules.withLimit low) token = .error ⟨.tooDeep low, p.memory⟩ ∨
      p.enter (rules.withLimit low) token = p.enter (rules.withLimit high) token := by
  by_cases hlow : low < p.depth + 1
  · exact .inl (if_pos hlow)
  · have hhigh : ¬ high < p.depth + 1 := by omega
    exact .inr ((if_neg hlow).trans (if_neg hhigh).symm)

theorem close_withLimit (h : low ≤ high) (p : Progress) :
    p.close (rules.withLimit low) = .error ⟨.tooDeep low, p.memory⟩ ∨
      p.close (rules.withLimit low) = p.close (rules.withLimit high) := by
  obtain ⟨level, outer, memory⟩ := p
  cases level with
  | nil =>
    cases outer with
    | nil => exact enter_withLimit rules h ⟨[], [], memory⟩ (some .closing)
    | cons around outer => exact .inr rfl
  | cons pending rest =>
    cases outer with
    | nil => exact .inr rfl
    | cons around outer => exact .inr (by simp only [close, Level.reduce_withLimit])

theorem read_withLimit (h : low ≤ high) (p : Progress) (token : Token) :
    p.read (rules.withLimit low) token = .error ⟨.tooDeep low, p.memory⟩ ∨
      p.read (rules.withLimit low) token = p.read (rules.withLimit high) token := by
  cases token with
  | closing => exact close_withLimit rules h p
  | operator op => exact enter_withLimit rules h p (some (.operator op))
  | opening =>
    simp only [read]
    split
    · exact enter_withLimit rules h p (some .opening)
    · exact .inr rfl
  | operand text =>
    simp only [read]
    split
    · exact enter_withLimit rules h p (some (.operand text))
    · exact .inr rfl

theorem finish_withLimit (h : low ≤ high) (p : Progress) :
    Deepened low (p.finish (rules.withLimit low)) (p.finish (rules.withLimit high)) := by
  by_cases hlevel : p.level.isEmpty = true
  · rcases enter_withLimit rules h p none with hcut | hsame
    · have hlow : p.finish (rules.withLimit low) = .error ⟨.tooDeep low, p.memory⟩ := by
        rw [finish, if_pos hlevel, hcut]
      rw [hlow]
      exact .cut (extends_of_readAll_finish (rules.withLimit high) p [])
    · have hfinish : p.finish (rules.withLimit low) = p.finish (rules.withLimit high) := by
        simp only [finish, hsame, reduceAll_withLimit]
      exact hfinish ▸ .same _
  · have hfinish : p.finish (rules.withLimit low) = p.finish (rules.withLimit high) := by
      simp only [finish, if_neg hlevel, reduceAll_withLimit]
    exact hfinish ▸ .same _

theorem readAll_finish_withLimit (h : low ≤ high) (p : Progress) (tokens : List Token) :
    Deepened low ((p.readAll (rules.withLimit low) tokens).bind (finish (rules.withLimit low)))
      ((p.readAll (rules.withLimit high) tokens).bind (finish (rules.withLimit high))) := by
  induction tokens generalizing p with
  | nil => exact finish_withLimit rules h p
  | cons token tokens ih =>
    rcases read_withLimit rules h p token with hcut | hsame
    · rw [readAll_cons_error hcut]
      exact .cut (extends_of_readAll_finish (rules.withLimit high) p (token :: tokens))
    · cases hread : p.read (rules.withLimit high) token with
      | error stop =>
        rw [readAll_cons_error (hsame.trans hread), readAll_cons_error hread]
        exact .same _
      | ok q =>
        rw [readAll_cons_ok (hsame.trans hread), readAll_cons_ok hread]
        exact ih q

end Progress

namespace Tree

variable {rules : Rules} {memory : Memory} {t : Tree}

end Tree

namespace Session

end Session

end PolishCalc
