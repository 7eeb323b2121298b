import PolishCalc.Expression.Evaluation

namespace PolishCalc

inductive Operands where
  | empty
  | word (text : Text) (rest : Operands)
  | group (op : Operator) (inner rest : Operands)
  /-- An expression without parentheses, after which no operand can follow. -/
  | chain (op : Operator) (inner : Operands)
  deriving DecidableEq

structure Tree where
  operator : Operator
  operands : Operands
  deriving DecidableEq

namespace Operands

def tokens : Operands → List Token
  | .empty => []
  | .word text rest => .operand text :: rest.tokens
  | .group op inner rest => .opening :: .operator op :: (inner.tokens ++ .closing :: rest.tokens)
  | .chain op inner => .operator op :: inner.tokens

def depth : Operands → Nat
  | .empty => 0
  | .word _ rest => rest.depth
  | .group _ inner rest => max (inner.depth + 1) rest.depth
  | .chain _ inner => inner.depth + 1

def collect (rules : Rules) (level : Nat) (p : Pending) (memory : Memory) :
    Operands → Except Stop (Pending × Memory)
  | .empty => .ok (p, memory)
  | .word text rest =>
    match operandValue? memory.answer text with
    | some x => rest.collect rules level (p.push x) memory
    | none => .error ⟨.reported (.invalidNumber text), memory⟩
  | .group op inner rest =>
    if rules.maxDepth < level + 1 then .error ⟨.tooDeep rules.maxDepth, memory⟩
    else
      (inner.collect rules (level + 1) ⟨op, []⟩ memory).bind fun collected =>
        (collected.1.reduce rules collected.2).bind fun reduced =>
          rest.collect rules level (p.push reduced.1) reduced.2
  | .chain op inner =>
    if rules.maxDepth < level + 1 then .error ⟨.tooDeep rules.maxDepth, memory⟩
    else
      (inner.collect rules (level + 1) ⟨op, []⟩ memory).bind fun collected =>
        (collected.1.reduce rules collected.2).map fun reduced => (p.push reduced.1, reduced.2)

end Operands

namespace Tree

def tokens (t : Tree) : List Token :=
  .operator t.operator :: t.operands.tokens

def depth (t : Tree) : Nat :=
  t.operands.depth + 1

def evaluate (rules : Rules) (memory : Memory) (t : Tree) : Except Stop (Double × Memory) :=
  if rules.maxDepth < 1 then .error ⟨.tooDeep rules.maxDepth, memory⟩
  else
    (t.operands.collect rules 1 ⟨t.operator, []⟩ memory).bind fun collected =>
      collected.1.reduce rules collected.2

end Tree

theorem bind_bind {ε α β γ : Type} (x : Except ε α) (f : α → Except ε β) (g : β → Except ε γ) :
    (x.bind f).bind g = x.bind fun a => (f a).bind g := by
  cases x <;> rfl

namespace Progress

theorem readAll_cons_ok {rules : Rules} {p q : Progress} {token : Token}
    (h : p.read rules token = .ok q) (tokens : List Token) :
    p.readAll rules (token :: tokens) = q.readAll rules tokens := by
  simp only [readAll, List.foldlM_cons, h]
  rfl

theorem readAll_cons_error {rules : Rules} {p : Progress} {token : Token} {stop : Stop}
    (h : p.read rules token = .error stop) (tokens : List Token) :
    p.readAll rules (token :: tokens) = .error stop := by
  simp only [readAll, List.foldlM_cons, h]
  rfl

theorem readAll_append {rules : Rules} (p : Progress) (front back : List Token) :
    p.readAll rules (front ++ back) =
      (p.readAll rules front).bind fun q => q.readAll rules back := by
  induction front generalizing p with
  | nil => rfl
  | cons token front ih =>
    cases h : p.read rules token with
    | error stop => rw [List.cons_append, readAll_cons_error h, readAll_cons_error h]; rfl
    | ok q => rw [List.cons_append, readAll_cons_ok h, readAll_cons_ok h, ih]

theorem read_operator (rules : Rules) (op : Operator) (level : Level) (outer : List Level)
    (memory : Memory) :
    Progress.read rules ⟨level, outer, memory⟩ (.operator op) =
      if rules.maxDepth < (level.length + outer.flatten.length : Nat) + 1 then
        .error ⟨.tooDeep rules.maxDepth, memory⟩
      else .ok ⟨⟨op, []⟩ :: level, outer, memory⟩ :=
  rfl

theorem readAll_closing (rules : Rules) (p : Pending) (rest around : Level) (outer : List Level)
    (memory : Memory) (tokens : List Token) :
    Progress.readAll rules ⟨p :: rest, around :: outer, memory⟩ (.closing :: tokens) =
      (Level.reduce rules memory p rest).bind fun reduced =>
        Progress.readAll rules ⟨Level.push around reduced.1, outer, reduced.2⟩ tokens := by
  cases h : Level.reduce rules memory p rest with
  | error stop => exact readAll_cons_error (by simp [read, close, h]) tokens
  | ok reduced => exact readAll_cons_ok (by simp [read, close, h]) tokens

theorem read_operand {rules : Rules} {text : Text} {memory : Memory} {x : Double}
    (h : operandValue? memory.answer text = some x) (p : Pending) (rest : Level)
    (outer : List Level) :
    Progress.read rules ⟨p :: rest, outer, memory⟩ (.operand text) =
      .ok ⟨p.push x :: rest, outer, memory⟩ := by
  simp [read, take, h, Level.push]

theorem read_operand_none {rules : Rules} {text : Text} {memory : Memory}
    (h : operandValue? memory.answer text = none) (p : Pending) (rest : Level)
    (outer : List Level) :
    Progress.read rules ⟨p :: rest, outer, memory⟩ (.operand text) =
      .error ⟨.reported (.invalidNumber text), memory⟩ := by
  simp [read, take, fail, h]

theorem readAll_tokens {α : Type} (rules : Rules) (operands : Operands) (p : Pending)
    (rest : Level) (outer : List Level) (memory : Memory) (finish : Progress → Except Stop α)
    (next : Double × Memory → Except Stop α)
    (hfinish : ∀ q level memory, finish ⟨q :: level, outer, memory⟩ =
      (Level.reduce rules memory q level).bind next) :
    (readAll rules ⟨p :: rest, outer, memory⟩ operands.tokens).bind finish =
      (operands.collect rules (rest.length + 1 + outer.flatten.length) p memory).bind
        fun collected => (Level.reduce rules collected.2 collected.1 rest).bind next := by
  induction operands generalizing α p rest outer memory with
  | empty => exact hfinish p rest memory
  | word text tail ih =>
    simp only [Operands.tokens, Operands.collect]
    cases h : operandValue? memory.answer text with
    | none => rw [readAll_cons_error (read_operand_none h p rest outer)]; rfl
    | some x =>
      rw [readAll_cons_ok (read_operand h p rest outer)]
      exact ih (p.push x) rest outer memory finish next hfinish
  | group op inner tail ihInner ihTail =>
    have hlevel : ([] : Level).length + ((p :: rest) :: outer).flatten.length =
        rest.length + 1 + outer.flatten.length := by
      simp only [List.flatten_cons, List.length_append, List.length_cons, List.length_nil]
      omega
    have hopen : Progress.read rules ⟨p :: rest, outer, memory⟩ .opening =
        .ok ⟨[], (p :: rest) :: outer, memory⟩ := rfl
    have hoperator := read_operator rules op [] ((p :: rest) :: outer) memory
    simp only [Operands.tokens, Operands.collect]
    rw [readAll_cons_ok hopen]
    rw [hlevel] at hoperator
    split at hoperator
    · rename_i hdeep
      rw [if_pos hdeep, readAll_cons_error hoperator]
      rfl
    · rename_i hdeep
      rw [if_neg hdeep, readAll_cons_ok hoperator, readAll_append]
      have hinner := ihInner ⟨op, []⟩ [] ((p :: rest) :: outer) memory
        (fun q => (q.readAll rules (.closing :: tail.tokens)).bind finish)
        (fun reduced =>
          (readAll rules ⟨p.push reduced.1 :: rest, outer, reduced.2⟩ tail.tokens).bind finish)
        (fun q level memory => by
          rw [readAll_closing]
          cases Level.reduce rules memory q level <;> rfl)
      rw [Nat.add_right_comm, hlevel] at hinner
      rw [bind_bind, hinner, bind_bind]
      congr 1
      funext collected
      rw [bind_bind]
      congr 1
      funext reduced
      exact ihTail (p.push reduced.1) rest outer reduced.2 finish next hfinish
  | chain op inner ih =>
    have hlevel : (p :: rest).length + outer.flatten.length =
        rest.length + 1 + outer.flatten.length := rfl
    have hoperator := read_operator rules op (p :: rest) outer memory
    simp only [Operands.tokens, Operands.collect]
    rw [hlevel] at hoperator
    split at hoperator
    · rename_i hdeep
      rw [if_pos hdeep, readAll_cons_error hoperator]
      rfl
    · rename_i hdeep
      rw [if_neg hdeep, readAll_cons_ok hoperator]
      rw [ih ⟨op, []⟩ (p :: rest) outer memory finish next hfinish, Nat.add_right_comm, hlevel,
        bind_bind]
      congr 1
      funext collected
      simp only [Level.reduce]
      cases collected.1.reduce rules collected.2 <;> rfl

end Progress

theorem evaluateTokens_tokens (rules : Rules) (memory : Memory) (t : Tree) :
    evaluateTokens rules memory t.tokens = t.evaluate rules memory := by
  have hoperator := Progress.read_operator rules t.operator [] [] memory
  simp only [evaluateTokens, Tree.tokens, Tree.evaluate, Progress.start]
  split at hoperator
  · rename_i hdeep
    rw [Progress.readAll_cons_error hoperator]
    rw [if_pos (by simpa using hdeep)]
    rfl
  · rename_i hdeep
    rw [Progress.readAll_cons_ok hoperator, if_neg (by simpa using hdeep)]
    rw [Progress.readAll_tokens rules t.operands ⟨t.operator, []⟩ [] [] memory _ .ok]
    · congr 1
      funext collected
      simp only [Level.reduce]
      cases collected.1.reduce rules collected.2 <;> rfl
    · intro q level memory
      change Level.reduce rules memory q level = _
      cases Level.reduce rules memory q level <;> rfl

end PolishCalc
