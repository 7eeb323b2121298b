import PolishCalc.Proofs.Depth

namespace PolishCalc

inductive Alike (R : Memory → Memory → Prop) (Apart : Memory → Prop) : Outcome → Outcome → Prop
  | value {x memory memory'} : R memory memory' →
      Alike R Apart (.ok (x, memory)) (.ok (x, memory'))
  | failure {failure memory memory'} : R memory memory' →
      Alike R Apart (.error ⟨failure, memory⟩) (.error ⟨failure, memory'⟩)
  | apart {first second} : Apart (Outcome.memory first) → Alike R Apart first second

/-- Two evaluations have the same limits, and their reductions by operators that satisfy `O` go
together. Once they have come apart they stay so. -/
structure Lockstep (O : Operator → Prop) (R : Memory → Memory → Prop) (Apart : Memory → Prop)
    (rules rules' : Rules) : Prop where
  maxLength : rules'.maxLength = rules.maxLength
  maxDepth : rules'.maxDepth = rules.maxDepth
  answer : ∀ {memory memory' : Memory}, R memory memory' → memory'.answer = memory.answer
  reduce : ∀ {memory memory' : Memory} {p : Pending}, R memory memory' → O p.operator →
    Alike R Apart (p.reduce rules memory) (p.reduce rules' memory')
  apart : ∀ {after before : Memory}, after.Extends before → Apart before → Apart after

theorem Level.reduce_cons (rules : Rules) (memory : Memory) (p next : Pending) (rest : Level) :
    Level.reduce rules memory p (next :: rest) = (p.reduce rules memory).bind fun reduced =>
      Level.reduce rules reduced.2 (next.push reduced.1) rest := by
  rw [Level.reduce]
  cases p.reduce rules memory <;> rfl

namespace Progress

theorem reduceAll_cons (rules : Rules) (memory : Memory) (p : Pending) (rest around : Level)
    (outer : List Level) :
    reduceAll rules memory (p :: rest) (around :: outer) =
      (Level.reduce rules memory p rest).bind fun reduced =>
        reduceAll rules reduced.2 (Level.push around reduced.1) outer := by
  rw [reduceAll]
  cases Level.reduce rules memory p rest <;> rfl

theorem enter_quiet (limit : Int) (level : Level) (outer : List Level) (token : Option Token) :
    (∃ failure, ∀ (rules : Rules) (memory : Memory), rules.maxDepth = limit →
      enter rules ⟨level, outer, memory⟩ token = .error ⟨failure, memory⟩) ∨
    ∃ op, token = some (.operator op) ∧ ∀ (rules : Rules) (memory : Memory),
      rules.maxDepth = limit →
      enter rules ⟨level, outer, memory⟩ token = .ok ⟨⟨op, []⟩ :: level, outer, memory⟩ := by
  by_cases hdeep : limit < (level.length + outer.flatten.length : Nat) + 1
  · refine .inl ⟨.tooDeep limit, fun rules memory hlimit => ?_⟩
    subst hlimit
    exact if_pos hdeep
  · have hshallow (rules : Rules) (hlimit : rules.maxDepth = limit) :
        ¬ rules.maxDepth < (level.length + outer.flatten.length : Nat) + 1 :=
      hlimit ▸ hdeep
    rcases token with _ | (_ | _ | op | text)
    · exact .inl ⟨_, fun rules _ hlimit => if_neg (hshallow rules hlimit)⟩
    · exact .inl ⟨_, fun rules _ hlimit => if_neg (hshallow rules hlimit)⟩
    · exact .inl ⟨_, fun rules _ hlimit => if_neg (hshallow rules hlimit)⟩
    · exact .inr ⟨op, rfl, fun rules _ hlimit => if_neg (hshallow rules hlimit)⟩
    · exact .inl ⟨_, fun rules _ hlimit => if_neg (hshallow rules hlimit)⟩

def operators (level : Level) (outer : List Level) : List Operator :=
  level.map Pending.operator ++ outer.flatten.map Pending.operator

theorem operators_push (level : Level) (outer : List Level) (x : Double) :
    operators (level.push x) outer = operators level outer := by
  cases level <;> rfl

theorem operators_open (level : Level) (outer : List Level) :
    operators [] (level :: outer) = operators level outer := by
  simp [operators]

theorem read_quiet (limit : Int) (answer : Double) (level : Level) (outer : List Level)
    (token : Token) :
    (token = .closing ∧ level ≠ [] ∧ outer ≠ []) ∨
    (∃ failure, ∀ (rules : Rules) (memory : Memory), rules.maxDepth = limit →
      memory.answer = answer →
      read rules ⟨level, outer, memory⟩ token = .error ⟨failure, memory⟩) ∨
    ∃ level' outer',
      (∀ op ∈ operators level' outer', op ∈ operators level outer ∨ token = .operator op) ∧
      ∀ (rules : Rules) (memory : Memory), rules.maxDepth = limit → memory.answer = answer →
        read rules ⟨level, outer, memory⟩ token = .ok ⟨level', outer', memory⟩ := by
  cases token with
  | operator op =>
    rcases enter_quiet limit level outer (some (.operator op)) with ⟨failure, h⟩ | ⟨op', heq, h⟩
    · exact .inr (.inl ⟨failure, fun rules memory hlimit _ => h rules memory hlimit⟩)
    · cases heq
      refine .inr (.inr ⟨⟨op, []⟩ :: level, outer, ?_, fun rules memory hlimit _ =>
        h rules memory hlimit⟩)
      intro op' hop'
      rcases List.mem_cons.1 hop' with rfl | hop'
      · exact .inr rfl
      · exact .inl hop'
  | closing =>
    cases level with
    | nil =>
      cases outer with
      | nil =>
        rcases enter_quiet limit [] [] (some .closing) with ⟨failure, h⟩ | ⟨op, heq, -⟩
        · exact .inr (.inl ⟨failure, fun rules memory hlimit _ => h rules memory hlimit⟩)
        · cases heq
      | cons around outer => exact .inr (.inl ⟨_, fun _ _ _ _ => rfl⟩)
    | cons p rest =>
      cases outer with
      | nil => exact .inr (.inl ⟨_, fun _ _ _ _ => rfl⟩)
      | cons around outer => exact .inl ⟨rfl, List.cons_ne_nil _ _, List.cons_ne_nil _ _⟩
  | opening =>
    cases level with
    | nil =>
      rcases enter_quiet limit [] outer (some .opening) with ⟨failure, h⟩ | ⟨op, heq, -⟩
      · exact .inr (.inl ⟨failure, fun rules memory hlimit _ => h rules memory hlimit⟩)
      · cases heq
    | cons p rest =>
      refine .inr (.inr ⟨[], (p :: rest) :: outer, fun op hop => .inl ?_, fun _ _ _ _ => rfl⟩)
      exact operators_open (p :: rest) outer ▸ hop
  | operand text =>
    cases level with
    | nil =>
      rcases enter_quiet limit [] outer (some (.operand text)) with ⟨failure, h⟩ | ⟨op, heq, -⟩
      · exact .inr (.inl ⟨failure, fun rules memory hlimit _ => h rules memory hlimit⟩)
      · cases heq
    | cons p rest =>
      cases hvalue : operandValue? answer text with
      | none =>
        refine .inr (.inl ⟨.reported (.invalidNumber text), fun rules memory _ hanswer => ?_⟩)
        exact read_operand_none (hanswer ▸ hvalue) p rest outer
      | some x =>
        refine .inr (.inr ⟨p.push x :: rest, outer, fun op hop => .inl hop,
          fun rules memory _ hanswer => ?_⟩)
        exact read_operand (hanswer ▸ hvalue) p rest outer

end Progress

namespace Lockstep

variable {O : Operator → Prop} {R : Memory → Memory → Prop} {Apart : Memory → Prop}
  {rules rules' : Rules}

theorem bind (h : Lockstep O R Apart rules rules') {first second : Outcome}
    {next next' : Double × Memory → Outcome} (hfirst : Alike R Apart first second)
    (hnext : ∀ x memory memory', R memory memory' →
      Alike R Apart (next (x, memory)) (next' (x, memory')))
    (hextends : ∀ x memory, (Outcome.memory (next (x, memory))).Extends memory) :
    Alike R Apart (first.bind next) (second.bind next') := by
  cases hfirst with
  | value hR => exact hnext _ _ _ hR
  | failure hR => exact .failure hR
  | apart hapart =>
    cases first with
    | error stop => exact .apart hapart
    | ok reduced => exact .apart (h.apart (hextends _ _) hapart)

theorem extends_of_ends {memory : Memory} {outcome : Outcome}
    (h : Ends (fun after => after.Extends memory) (fun _ => True)
      (fun stop => stop.memory.Extends memory) outcome) :
    (Outcome.memory outcome).Extends memory := by
  cases outcome with
  | error stop => exact h
  | ok reduced => exact h.2

theorem all_true (level : Level) : level.All fun _ => True :=
  fun _ _ _ _ => trivial

theorem reduceLevel (h : Lockstep O R Apart rules rules') {memory memory' : Memory} {p : Pending}
    {rest : Level} (hR : R memory memory')
    (hO : ∀ op ∈ (p :: rest).map Pending.operator, O op) :
    Alike R Apart (Level.reduce rules memory p rest) (Level.reduce rules' memory' p rest) := by
  induction rest generalizing p memory memory' with
  | nil => exact h.reduce hR (hO p.operator List.mem_cons_self)
  | cons next rest ih =>
    obtain ⟨hp, hrest⟩ := List.forall_mem_cons.1 hO
    rw [Level.reduce_cons, Level.reduce_cons]
    refine h.bind (h.reduce hR hp) (fun x after after' hafter => ih hafter hrest) fun x after => ?_
    exact extends_of_ends ((preserves_extends rules after).reduceLevel .refl (all_true _))

theorem reduceAll (h : Lockstep O R Apart rules rules') {memory memory' : Memory} {level : Level}
    {outer : List Level} (hR : R memory memory')
    (hO : ∀ op ∈ Progress.operators level outer, O op) :
    Alike R Apart (Progress.reduceAll rules memory level outer)
      (Progress.reduceAll rules' memory' level outer) := by
  induction outer generalizing level memory memory' with
  | nil =>
    cases level with
    | nil => exact .failure hR
    | cons p rest => exact h.reduceLevel hR fun op hop => hO op (List.mem_append_left _ hop)
  | cons around outer ih =>
    cases level with
    | nil => exact .failure hR
    | cons p rest =>
      rw [Progress.reduceAll_cons, Progress.reduceAll_cons]
      refine h.bind (h.reduceLevel hR fun op hop => hO op (List.mem_append_left _ hop))
        (fun x after after' hafter => ih hafter fun op hop => ?_) fun x after => ?_
      · rw [Progress.operators_push, ← Progress.operators_open] at hop
        exact hO op (List.mem_append_right _ hop)
      · exact extends_of_ends ((preserves_extends rules after).reduceAll .refl (all_true _)
          fun level _ => all_true level)

theorem finish (h : Lockstep O R Apart rules rules') {memory memory' : Memory} {level : Level}
    {outer : List Level} (hR : R memory memory')
    (hO : ∀ op ∈ Progress.operators level outer, O op) :
    Alike R Apart (Progress.finish rules ⟨level, outer, memory⟩)
      (Progress.finish rules' ⟨level, outer, memory'⟩) := by
  cases level with
  | nil =>
    rcases Progress.enter_quiet rules.maxDepth [] outer none with ⟨failure, hfail⟩ | ⟨_, heq, -⟩
    · have hfinish (rules₀ : Rules) (memory₀ : Memory) (hlimit : rules₀.maxDepth = rules.maxDepth) :
          Progress.finish rules₀ ⟨[], outer, memory₀⟩ = .error ⟨failure, memory₀⟩ := by
        rw [Progress.finish, if_pos (show List.isEmpty ([] : Level) = true from rfl),
          hfail rules₀ memory₀ hlimit]
      rw [hfinish rules memory rfl, hfinish rules' memory' h.maxDepth]
      exact .failure hR
    · cases heq
  | cons p rest => exact h.reduceAll hR hO

theorem readAll_finish (h : Lockstep O R Apart rules rules') {tokens : List Token}
    (htokens : ∀ op, .operator op ∈ tokens → O op) {memory memory' : Memory} {level : Level}
    {outer : List Level} (hR : R memory memory')
    (hO : ∀ op ∈ Progress.operators level outer, O op) :
    Alike R Apart
      ((Progress.readAll rules ⟨level, outer, memory⟩ tokens).bind (Progress.finish rules))
      ((Progress.readAll rules' ⟨level, outer, memory'⟩ tokens).bind (Progress.finish rules')) := by
  induction tokens generalizing memory memory' level outer with
  | nil => exact h.finish hR hO
  | cons token tokens ih =>
    have hrest : ∀ op, .operator op ∈ tokens → O op := fun op hop =>
      htokens op (List.mem_cons_of_mem _ hop)
    rcases Progress.read_quiet rules.maxDepth memory.answer level outer token with
      ⟨rfl, hlevel, houter⟩ | ⟨failure, hread⟩ | ⟨level', outer', hoperators, hread⟩
    · obtain ⟨p, rest, rfl⟩ := List.exists_cons_of_ne_nil hlevel
      obtain ⟨around, outer, rfl⟩ := List.exists_cons_of_ne_nil houter
      rw [Progress.readAll_closing, Progress.readAll_closing, bind_bind, bind_bind]
      refine h.bind (h.reduceLevel hR fun op hop => hO op (List.mem_append_left _ hop))
        (fun x after after' hafter => ih hrest hafter fun op hop => ?_) fun x after => ?_
      · rw [Progress.operators_push, ← Progress.operators_open] at hop
        exact hO op (List.mem_append_right _ hop)
      · exact Progress.extends_of_readAll_finish rules _ tokens
    · rw [Progress.readAll_cons_error (hread rules memory rfl rfl),
        Progress.readAll_cons_error (hread rules' memory' h.maxDepth (h.answer hR))]
      exact .failure hR
    · rw [Progress.readAll_cons_ok (hread rules memory rfl rfl),
        Progress.readAll_cons_ok (hread rules' memory' h.maxDepth (h.answer hR))]
      refine ih hrest hR fun op hop => ?_
      rcases hoperators op hop with hop | rfl
      · exact hO op hop
      · exact htokens op List.mem_cons_self

theorem evaluateLine (h : Lockstep O R Apart rules rules') {line : Text}
    (hline : ∀ op, .operator op ∈ Token.ofLine line.pointForComma → O op)
    {memory memory' : Memory} (hR : R memory memory') :
    Alike R Apart (PolishCalc.evaluateLine rules memory line)
      (PolishCalc.evaluateLine rules' memory' line) := by
  rw [PolishCalc.evaluateLine, PolishCalc.evaluateLine, h.maxLength]
  cases hread : readLine rules.maxLength line with
  | error error => exact .failure hR
  | ok tokens =>
    obtain ⟨-, -, -, rfl⟩ := readLine_eq_ok_iff.1 hread
    exact h.readAll_finish hline hR (by simp [Progress.operators])

end Lockstep

end PolishCalc
