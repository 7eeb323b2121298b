import PolishCalc.Session.Basic

namespace PolishCalc

inductive Action where
  | evaluate (line : Text) (traced : Bool) (precision : Operand) (maxDepth : Option Int)
  | constant (name : Text)
  | setAnswer (value : Operand) (digits : Operand)
  | clearAnswer
  | showAnswer
  | setPrecision (digits : Operand)
  | increasePrecision
  | decreasePrecision
  | resetPrecision
  | resetAnswer
  | resetSession
  | validate (line : Text)
  | addEntry (text : Text)
  | previousEntry (draft : Option Text)
  | nextEntry (draft : Option Text)
  | resetCursor
  | clearHistory
  | dumpHistory

inductive Reply where
  | nothing
  | number (x : Double)
  | traced (x : Double) (steps : List Text)
  | constant (value : Option Double)
  | integer (n : Int)
  | text (text : Text)
  | verdict (problem : Option Text)
  deriving DecidableEq

def Reply.result (x : Double) : Option (List Text) → Reply
  | none => .number x
  | some steps => .traced x steps

namespace Session

def quiet (s : Session) (reply : Reply) : Except Failure Reply × Session :=
  (.ok reply, s)

def withHistory (s : Session) (moved : Text × History) : Except Failure Reply × Session :=
  (.ok (.text moved.1), { s with history := moved.2 })

def withOutcome (s : Session) (outcome : Outcome) (reply : Double → Reply) :
    Except Failure Reply × Session :=
  ((Outcome.result outcome).map reply, s.adopt (Outcome.memory outcome))

def withPrecision (s : Session) (p : Precision) : Except Failure Reply × Session :=
  (.ok (.integer p.value), { s with precision := p })

def perform (settings : Settings) (source : Source) (s : Session) :
    Action → Except Failure Reply × Session
  | .evaluate line traced precision maxDepth =>
    let outcome := s.outcome settings source line traced precision maxDepth
    s.withOutcome outcome fun x => .result x (Outcome.steps outcome)
  | .constant name => s.quiet (.constant (constant? s.answer.value name))
  | .setAnswer value digits =>
    match s.answer.set settings.defaultPrecision value digits with
    | .error fault => (.error (.fault fault), s)
    | .ok answer => ({ s with answer := answer } : Session).quiet (.number answer.value)
  | .clearAnswer => ({ s with answer := s.answer.reset } : Session).quiet .nothing
  | .showAnswer => s.quiet (.text s.answer.text)
  | .setPrecision digits =>
    match s.precision.set digits with
    | .error fault => (.error (.fault fault), s)
    | .ok p => s.withPrecision p
  | .increasePrecision => s.withPrecision s.precision.increase
  | .decreasePrecision => s.withPrecision s.precision.decrease
  | .resetPrecision => ({ s with precision := s.precision.reset } : Session).quiet .nothing
  | .resetAnswer => s.withOutcome (s.resetAnswer settings source) .number
  | .resetSession =>
    let (result, s, _) := s.reset settings source
    (result.map fun _ => .nothing, s)
  | .validate line => s.quiet (.verdict (line.validate settings.maxInputLength))
  | .addEntry text => ({ s with history := s.history.add text } : Session).quiet .nothing
  | .previousEntry draft => s.withHistory (s.history.previous draft)
  | .nextEntry draft => s.withHistory (s.history.next draft)
  | .resetCursor => ({ s with history := s.history.resetCursor } : Session).quiet .nothing
  | .clearHistory => ({ s with history := s.history.clear } : Session).quiet .nothing
  | .dumpHistory => s.quiet (.text s.history.dump)

def performAll (settings : Settings) (source : Source) (s : Session) :
    List Action → List (Except Failure Reply × Session)
  | [] => []
  | action :: rest =>
    let done := s.perform settings source action
    done :: performAll settings source done.2 rest

end Session

end PolishCalc
