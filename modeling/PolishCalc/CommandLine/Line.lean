import PolishCalc.CommandLine.Arguments
import PolishCalc.CommandLine.Usage
import PolishCalc.Session.Basic
import PolishCalc.Text.Json

namespace PolishCalc.CommandLine

def line (text : Text) : Text :=
  text ++ ['\n']

def resultText (format : Format) (steps : Option (List Text)) (x : Double) : Text :=
  match format with
  | .human => (steps.getD []).flatMap (fun step => line ("  ".toList ++ step)) ++ line x.display
  | .json =>
    let shown := match steps with
      | none => []
      | some steps =>
        ", \"steps\": [".toList ++ List.intercalate ", ".toList (steps.map Text.json) ++ [']']
    line ("\x7b\"ok\": true, \"result\": ".toList ++ x.text ++ shown ++ "\x7d".toList)

def errorText (format : Format) (error : CalcError) : Text :=
  match format with
  | .human => line ("Error: ".toList ++ error.message)
  | .json =>
    line ("\x7b\"ok\": false, \"error\": ".toList ++ Text.json error.message ++
      ", \"code\": ".toList ++ Text.json error.code ++ "\x7d".toList)

structure Evaluated where
  printed : Text
  records : List Log.Record
  session : Session
  failure : Option Failure

def evaluateLine (settings : Settings) (source : Source) (format : Format) (verbose : Bool)
    (s : Session) (raw : Text) : Evaluated :=
  let expression := raw.closeParentheses
  let outcome := s.outcome settings source expression verbose .absent none
  let after := s.adopt (Outcome.memory outcome)
  let records := Log.evaluation outcome
  match Outcome.result outcome with
  | .ok x =>
    { printed := resultText format (Outcome.steps outcome) x
      records := records ++ Log.added s.history expression
      session := { after with history := s.history.add expression }
      failure := none }
  | .error (.reported error) =>
    { printed := errorText format error
      records := records ++ [Log.lineFailed expression error]
      session := after
      failure := some (.reported error) }
  | .error (.fault fault) =>
    { printed := [], records := records, session := after, failure := some (.fault fault) }

end PolishCalc.CommandLine
