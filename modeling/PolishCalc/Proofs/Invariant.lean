import PolishCalc.Expression.Evaluation

namespace PolishCalc

def Ends (M : Memory → Prop) (V : Double → Prop) (E : Stop → Prop) :
    Except Stop (Double × Memory) → Prop
  | .ok (x, memory) => V x ∧ M memory
  | .error stop => E stop

/-- The steps of an evaluation keep `M` of the memory and `V` of the values, and stop with `E`. -/
structure Preserves (rules : Rules) (M : Memory → Prop) (V : Double → Prop) (E : Stop → Prop) :
    Prop where
  operand : ∀ {memory : Memory} {text : Text} {x : Double}, M memory →
    operandValue? memory.answer text = some x → V x
  reduce : ∀ {memory : Memory} {p : Pending}, M memory → (∀ x ∈ p.operands, V x) →
    Ends M V E (p.reduce rules memory)
  fail : ∀ {memory : Memory} (error : CalcError), M memory → E ⟨.reported error, memory⟩
  tooDeep : ∀ {memory : Memory}, M memory → E ⟨.tooDeep rules.maxDepth, memory⟩

namespace Level

def All (V : Double → Prop) (level : Level) : Prop :=
  ∀ p ∈ level, ∀ x ∈ p.operands, V x

theorem All.nil {V : Double → Prop} : All V [] := by
  simp [All]

theorem all_cons {V : Double → Prop} {p : Pending} {rest : Level} :
    All V (p :: rest) ↔ (∀ x ∈ p.operands, V x) ∧ All V rest := by
  simp [All]

theorem All.push {V : Double → Prop} {level : Level} (h : All V level) {x : Double} (hx : V x) :
    All V (level.push x) := by
  cases level with
  | nil => exact h
  | cons p rest =>
    obtain ⟨hp, hrest⟩ := all_cons.1 h
    refine all_cons.2 ⟨?_, hrest⟩
    simpa [Pending.push] using ⟨hx, hp⟩

end Level

namespace Progress

structure Keeps (M : Memory → Prop) (V : Double → Prop) (p : Progress) : Prop where
  memory : M p.memory
  level : p.level.All V
  outer : ∀ level ∈ p.outer, level.All V

def Reads (M : Memory → Prop) (V : Double → Prop) (E : Stop → Prop) : Except Stop Progress → Prop
  | .ok p => p.Keeps M V
  | .error stop => E stop

end Progress

namespace Preserves

variable {rules : Rules} {M : Memory → Prop} {V : Double → Prop} {E : Stop → Prop}

theorem reduceLevel (h : Preserves rules M V E) {memory : Memory} {p : Pending} {rest : Level}
    (hmemory : M memory) (hlevel : Level.All V (p :: rest)) :
    Ends M V E (Level.reduce rules memory p rest) := by
  induction rest generalizing p memory with
  | nil => exact h.reduce hmemory (Level.all_cons.1 hlevel).1
  | cons next rest ih =>
    obtain ⟨hp, hrest⟩ := Level.all_cons.1 hlevel
    have hreduce := h.reduce hmemory hp
    rw [Level.reduce]
    cases hr : p.reduce rules memory with
    | error stop =>
      rw [hr] at hreduce
      exact hreduce
    | ok reduced =>
      rw [hr] at hreduce
      obtain ⟨hx, hafter⟩ := hreduce
      exact ih hafter (hrest.push hx)

theorem reduceAll (h : Preserves rules M V E) {memory : Memory} {level : Level}
    {outer : List Level} (hmemory : M memory) (hlevel : level.All V)
    (houter : ∀ level ∈ outer, level.All V) :
    Ends M V E (Progress.reduceAll rules memory level outer) := by
  induction outer generalizing level memory with
  | nil =>
    cases level with
    | nil => exact h.fail _ hmemory
    | cons p rest => exact h.reduceLevel hmemory hlevel
  | cons around outer ih =>
    cases level with
    | nil => exact h.fail _ hmemory
    | cons p rest =>
      have hreduce := h.reduceLevel hmemory hlevel
      rw [Progress.reduceAll]
      cases hr : Level.reduce rules memory p rest with
      | error stop =>
        rw [hr] at hreduce
        exact hreduce
      | ok reduced =>
        rw [hr] at hreduce
        obtain ⟨hx, hafter⟩ := hreduce
        obtain ⟨haround, hothers⟩ := List.forall_mem_cons.1 houter
        exact ih hafter (haround.push hx) hothers

theorem enter (h : Preserves rules M V E) {p : Progress} (hp : p.Keeps M V)
    (token : Option Token) : Progress.Reads M V E (p.enter rules token) := by
  unfold Progress.enter
  split
  · exact h.tooDeep hp.memory
  · split
    · exact ⟨hp.memory, Level.all_cons.2 ⟨by simp, hp.level⟩, hp.outer⟩
    · exact h.fail _ hp.memory

theorem close (h : Preserves rules M V E) {p : Progress} (hp : p.Keeps M V) :
    Progress.Reads M V E (p.close rules) := by
  rw [Progress.close]
  split
  · exact h.enter hp _
  · exact h.fail _ hp.memory
  · exact h.fail _ hp.memory
  · rename_i pending rest around outer hlevel houter
    have hreduce := h.reduceLevel hp.memory (hlevel ▸ hp.level)
    obtain ⟨haround, hothers⟩ := List.forall_mem_cons.1 (houter ▸ hp.outer)
    split
    · rename_i hr
      rw [hr] at hreduce
      exact hreduce
    · rename_i x memory hr
      rw [hr] at hreduce
      exact ⟨hreduce.2, haround.push hreduce.1, hothers⟩

theorem take (h : Preserves rules M V E) {p : Progress} (hp : p.Keeps M V) (text : Text) :
    Progress.Reads M V E (p.take text) := by
  rw [Progress.take]
  split
  · rename_i x hx
    exact ⟨hp.memory, hp.level.push (h.operand hp.memory hx), hp.outer⟩
  · exact h.fail _ hp.memory

theorem read (h : Preserves rules M V E) {p : Progress} (hp : p.Keeps M V) (token : Token) :
    Progress.Reads M V E (p.read rules token) := by
  cases token with
  | closing => exact h.close hp
  | operator op => exact h.enter hp (some (.operator op))
  | opening =>
    rw [Progress.read]
    split
    · exact h.enter hp _
    · exact ⟨hp.memory, Level.All.nil, List.forall_mem_cons.2 ⟨hp.level, hp.outer⟩⟩
  | operand text =>
    rw [Progress.read]
    split
    · exact h.enter hp _
    · exact h.take hp text

theorem readAll (h : Preserves rules M V E) {p : Progress} (hp : p.Keeps M V)
    (tokens : List Token) : Progress.Reads M V E (p.readAll rules tokens) := by
  induction tokens generalizing p with
  | nil => exact hp
  | cons token tokens ih =>
    have hread := h.read hp token
    rw [Progress.readAll, List.foldlM_cons]
    cases hr : p.read rules token with
    | error stop =>
      rw [hr] at hread
      exact hread
    | ok q =>
      rw [hr] at hread
      exact ih hread

theorem finish (h : Preserves rules M V E) {p : Progress} (hp : p.Keeps M V) :
    Ends M V E (p.finish rules) := by
  rw [Progress.finish]
  split
  · have henter := h.enter hp none
    split
    · rename_i hr
      rw [hr] at henter
      exact henter
    · rename_i q hr
      rw [hr] at henter
      exact h.reduceAll henter.memory henter.level henter.outer
  · exact h.reduceAll hp.memory hp.level hp.outer

theorem readAll_finish (h : Preserves rules M V E) {p : Progress} (hp : p.Keeps M V)
    (tokens : List Token) : Ends M V E ((p.readAll rules tokens).bind (Progress.finish rules)) := by
  have hread := h.readAll hp tokens
  cases hr : p.readAll rules tokens with
  | error stop =>
    rw [hr] at hread
    exact hread
  | ok q =>
    rw [hr] at hread
    exact h.finish hread

theorem evaluateTokens (h : Preserves rules M V E) {memory : Memory} (hmemory : M memory)
    (tokens : List Token) : Ends M V E (evaluateTokens rules memory tokens) := by
  have hstart : (Progress.start memory).Keeps M V := ⟨hmemory, Level.All.nil, nofun⟩
  exact h.readAll_finish hstart tokens

theorem evaluateLine (h : Preserves rules M V E) {memory : Memory} (hmemory : M memory)
    (line : Text) : Ends M V E (evaluateLine rules memory line) := by
  rw [PolishCalc.evaluateLine]
  split
  · exact h.fail _ hmemory
  · exact h.evaluateTokens hmemory _

end Preserves

end PolishCalc
