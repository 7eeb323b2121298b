import PolishCalc.Expression.Alphabet
import PolishCalc.Log
import PolishCalc.Session.Answer
import PolishCalc.Session.Precision
import PolishCalc.Settings

namespace PolishCalc

def resetExpression (settings : Settings) : Text :=
  "+ (- 1 1) ".toList ++ settings.ansDefault.display

structure Session where
  answer : Answer
  precision : Precision
  history : History
  /-- The latest first. -/
  requests : List Request
  deriving DecidableEq

abbrev Outcome := Except Stop (Double × Memory)

namespace Outcome

def memory : Outcome → Memory
  | .ok (_, memory) => memory
  | .error stop => stop.memory

def result : Outcome → Except Failure Double
  | .ok (x, _) => .ok x
  | .error stop => .error stop.failure

def steps (outcome : Outcome) : Option (List Text) :=
  (Outcome.memory outcome).steps.map List.reverse

end Outcome

def traceText (x : Double) (steps : List Text) : Text :=
  "TraceResult(result=".toList ++ x.text ++ ", steps=".toList ++ Text.quotedList steps ++ [')']

namespace Session

def fresh (settings : Settings) : Session where
  answer := Answer.ofDouble settings.ansDefault
  precision :=
    Precision.ofBounds settings.defaultPrecision settings.minPrecision settings.maxPrecision
  history := History.new (resetExpression settings)
  requests := []

def memory (s : Session) (traced : Bool) : Memory :=
  ⟨s.answer.value, s.requests, [], if traced then some [] else none⟩

def adopt (s : Session) (memory : Memory) : Session :=
  { s with answer := { s.answer with value := memory.answer }, requests := memory.requests }

def placesFor (s : Session) (precision : Operand) : Except Fault Nat :=
  places s.precision.value precision

def outcome (settings : Settings) (source : Source) (s : Session) (line : Text) (traced : Bool)
    (precision : Operand) (maxDepth : Option Int) : Outcome :=
  match s.placesFor precision with
  | .error fault => .error ⟨.fault fault, s.memory traced⟩
  | .ok digits =>
    evaluateLine ⟨digits, settings.maxInputLength,
      maxDepth.getD settings.maxExpressionDepth, source⟩ (s.memory traced) line

def evaluate (settings : Settings) (source : Source) (s : Session) (line : Text) : Outcome :=
  s.outcome settings source line false .absent none

def resetAnswer (settings : Settings) (source : Source) (s : Session) : Outcome :=
  s.evaluate settings source (resetExpression settings)

/-- Resets history, answer and precision, in this order. If the answer cannot be reset, the
precision stays. -/
def reset (settings : Settings) (source : Source) (s : Session) :
    Except Failure Unit × Session × List Log.Record :=
  let s := { s with history := s.history.clear }
  let outcome := s.resetAnswer settings source
  let records := Log.historyCleared :: Log.evaluation outcome
  let s := s.adopt (Outcome.memory outcome)
  match Outcome.result outcome with
  | .error failure => (.error failure, s, records)
  | .ok _ =>
    (.ok (), { s with precision := s.precision.reset }, records ++ [Log.sessionReset])

end Session

end PolishCalc
