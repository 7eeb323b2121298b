import PolishCalc.Expression.Constant
import PolishCalc.Expression.Token

/-!
Evaluation. An expression is an operator and its operands; an operand is a number, a constant, an
expression in parentheses, or an expression without them, which takes the rest of its level.

The tokens are read once, from left to right. `Progress` holds the operators that still collect
operands, level by level, and `Progress.read` takes in one token. Each completed reduction rounds
its result and makes it the answer, so that what was reduced before a failure stays.
-/

namespace PolishCalc

structure Reduction where
  operator : Operator
  operands : List Double
  result : Double
  deriving DecidableEq

def reductionText (op : Operator) (operands : List Double) : Text :=
  op.stepText (operands.map Operand.double)

def Reduction.text (r : Reduction) : Text :=
  reductionText r.operator r.operands

/-- What an evaluation leaves behind: the answer, and the requests and reductions made so far, the
latest first. -/
structure Memory where
  answer : Double
  requests : List Request
  reductions : List Reduction
  steps : Option (List Text)
  deriving DecidableEq

def Memory.record (memory : Memory) (requests : List Request) (r : Reduction) : Memory where
  answer := r.result
  requests := requests
  reductions := r :: memory.reductions
  steps := memory.steps.map (r.text :: ·)

namespace Memory

variable (memory : Memory) (requests : List Request) (r : Reduction)

@[simp]
theorem answer_record : (memory.record requests r).answer = r.result := rfl

@[simp]
theorem requests_record : (memory.record requests r).requests = requests := rfl

@[simp]
theorem reductions_record : (memory.record requests r).reductions = r :: memory.reductions := rfl

@[simp]
theorem steps_record : (memory.record requests r).steps = memory.steps.map (r.text :: ·) := rfl

end Memory

structure Rules where
  digits : Nat
  maxLength : Int
  maxDepth : Int
  source : Source

structure Stop where
  failure : Failure
  memory : Memory
  deriving DecidableEq

structure Pending where
  operator : Operator
  operands : List Double
  deriving DecidableEq

namespace Pending

def push (p : Pending) (x : Double) : Pending :=
  { p with operands := x :: p.operands }

def complete (p : Pending) (answer : Double) : List Double :=
  match p.operands with
  | [x] => [answer, x]
  | operands => operands.reverse

def reduce (rules : Rules) (memory : Memory) (p : Pending) : Except Stop (Double × Memory) :=
  if p.operands.isEmpty then .error ⟨.reported .noOperands, memory⟩
  else
    let operands := p.complete memory.answer
    let (result, requests) :=
      p.operator.apply rules.source (operands.map Operand.double) memory.requests
    let memory := { memory with requests := requests }
    match result with
    | .error failure => .error ⟨failure, memory⟩
    | .ok .nan => .error ⟨.reported (.notANumber (reductionText p.operator operands)), memory⟩
    | .ok (.infinity _) =>
      .error ⟨.reported (.infiniteResult (reductionText p.operator operands)), memory⟩
    | .ok result =>
      match result.roundAt rules.digits with
      | .error fault => .error ⟨.fault fault, memory⟩
      | .ok rounded =>
        .ok (rounded, memory.record requests ⟨p.operator, operands, rounded⟩)

end Pending

/-- The operators of one level, the innermost first. Each but the last is the last operand of the
next one. -/
abbrev Level := List Pending

namespace Level

def push (level : Level) (x : Double) : Level :=
  match level with
  | [] => []
  | p :: rest => p.push x :: rest

def reduce (rules : Rules) (memory : Memory) (p : Pending) : Level → Except Stop (Double × Memory)
  | [] => p.reduce rules memory
  | next :: rest =>
    match p.reduce rules memory with
    | .error stop => .error stop
    | .ok (x, memory) => reduce rules memory (next.push x) rest

end Level

/-- An evaluation between two tokens. The current level is empty where an operator has to follow:
at the start and after an opening parenthesis. -/
structure Progress where
  level : Level
  outer : List Level
  memory : Memory
  deriving DecidableEq

def operandValue? (answer : Double) (text : Text) : Option Double :=
  (constant? answer text).or (Double.readOperand? text)

namespace Progress

def start (memory : Memory) : Progress :=
  ⟨[], [], memory⟩

def depth (p : Progress) : Nat :=
  p.level.length + p.outer.flatten.length

def fail (p : Progress) (error : CalcError) : Except Stop Progress :=
  .error ⟨.reported error, p.memory⟩

def enter (rules : Rules) (p : Progress) (token : Option Token) : Except Stop Progress :=
  if rules.maxDepth < p.depth + 1 then .error ⟨.tooDeep rules.maxDepth, p.memory⟩
  else
    match token with
    | some (.operator op) => .ok { p with level := ⟨op, []⟩ :: p.level }
    | token => p.fail (.invalidSymbol (token.map Token.text))

def take (p : Progress) (text : Text) : Except Stop Progress :=
  match operandValue? p.memory.answer text with
  | some x => .ok { p with level := p.level.push x }
  | none => p.fail (.invalidNumber text)

def close (rules : Rules) (p : Progress) : Except Stop Progress :=
  match p.level, p.outer with
  | [], [] => p.enter rules (some .closing)
  | [], _ :: _ => p.fail .emptyParentheses
  | _ :: _, [] => p.fail .unmatchedClosing
  | pending :: rest, around :: outer =>
    match Level.reduce rules p.memory pending rest with
    | .error stop => .error stop
    | .ok (x, memory) => .ok ⟨Level.push around x, outer, memory⟩

def read (rules : Rules) (p : Progress) (token : Token) : Except Stop Progress :=
  match token with
  | .closing => p.close rules
  | .operator op => p.enter rules (some (.operator op))
  | .opening =>
    if p.level.isEmpty then p.enter rules (some .opening)
    else .ok ⟨[], p.level :: p.outer, p.memory⟩
  | .operand text =>
    if p.level.isEmpty then p.enter rules (some (.operand text)) else p.take text

def reduceAll (rules : Rules) (memory : Memory) (level : Level) :
    List Level → Except Stop (Double × Memory)
  | [] =>
    match level with
    | [] => .error ⟨.reported (.invalidSymbol none), memory⟩
    | pending :: rest => Level.reduce rules memory pending rest
  | around :: outer =>
    match level with
    | [] => .error ⟨.reported (.invalidSymbol none), memory⟩
    | pending :: rest =>
      match Level.reduce rules memory pending rest with
      | .error stop => .error stop
      | .ok (x, memory) => reduceAll rules memory (Level.push around x) outer

def finish (rules : Rules) (p : Progress) : Except Stop (Double × Memory) :=
  if p.level.isEmpty then
    match p.enter rules none with
    | .error stop => .error stop
    | .ok p => reduceAll rules p.memory p.level p.outer
  else reduceAll rules p.memory p.level p.outer

def readAll (rules : Rules) (p : Progress) (tokens : List Token) : Except Stop Progress :=
  tokens.foldlM (read rules) p

end Progress

def evaluateTokens (rules : Rules) (memory : Memory) (tokens : List Token) :
    Except Stop (Double × Memory) :=
  (Progress.readAll rules (Progress.start memory) tokens).bind (Progress.finish rules)

def readLine (maxLength : Int) (line : Text) : Except CalcError (List Token) :=
  match line.normalize maxLength with
  | .error error => .error error
  | .ok text =>
    match text.imbalance? with
    | some (.closing _) => .error .unmatchedClosing
    | some (.opening _) => .error .unmatchedOpening
    | none => .ok (Token.ofLine text)

def evaluateLine (rules : Rules) (memory : Memory) (line : Text) :
    Except Stop (Double × Memory) :=
  match readLine rules.maxLength line with
  | .error error => .error ⟨.reported error, memory⟩
  | .ok tokens => evaluateTokens rules memory tokens

end PolishCalc
