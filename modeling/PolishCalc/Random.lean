import PolishCalc.Error

namespace PolishCalc

structure Request where
  low : Int
  high : Int
  deriving DecidableEq

inductive Refusal where
  | outOfRange
  | broken (message : String)
  deriving DecidableEq

/-- Answers a request, given the earlier ones, the latest first. -/
abbrev Source := List Request → Request → Except Refusal Int

namespace Source

def lowest : Source := fun _ request => .ok request.low

def highest : Source := fun _ request => .ok request.high

def scripted (values : List Int) : Source := fun earlier _ =>
  match values[earlier.length % values.length]? with
  | some n => .ok n
  | none => .error .outOfRange

def refusing (refusal : Refusal) : Source := fun _ _ => .error refusal

def within64 (source : Source) : Source := fun earlier request =>
  let limit : Int := Nat.pow 2 63
  if -limit ≤ request.low ∧ request.high < limit then source earlier request
  else .error .outOfRange

end Source

namespace Operand

def isNaN : Operand → Except Fault Bool
  | double x => .ok x.isNaN
  | integer n => (integerToDouble n).map Double.isNaN
  | absent => .error (.absent .asReal)

end Operand

def randomBounds? (a b : Operand) : Except Fault (Option Request) := do
  if ← a.isNaN then return none
  if ← b.isNaN then return none
  let m ← a.truncate .asReal
  let n ← b.truncate .asReal
  return some ⟨min m n, max m n⟩

def drawn (request : Request) : Except Refusal Int → Except Failure Double
  | .error .outOfRange => .error (.reported (.rangeOutOfBounds request.low request.high))
  | .error (.broken message) => .error (.fault (.source message))
  | .ok n => (Operand.integerToDouble n).mapError fun _ =>
    .reported (.rangeOutOfBounds request.low request.high)

def randomInRange (source : Source) (earlier : List Request) (a b : Operand) :
    Except Failure Double × List Request :=
  let bounds := if b = .absent then randomBounds? (.integer 1) a else randomBounds? a b
  match bounds with
  | .error fault => (.error (.fault fault), earlier)
  | .ok none => (.ok .nan, earlier)
  | .ok (some request) =>
    if request.low = request.high then
      ((Operand.integerToDouble request.low).mapError Failure.fault, earlier)
    else (drawn request (source earlier request), request :: earlier)

end PolishCalc
