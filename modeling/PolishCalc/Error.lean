import PolishCalc.Fault
import PolishCalc.Number.Display

namespace PolishCalc

inductive CalcError where
  | tooLong (limit : Int)
  | emptyInput
  | unmatchedClosing
  | unmatchedOpening
  | tooDeep (limit : WritableInt)
  | invalidSymbol (found : Option Text)
  | emptyParentheses
  | noOperands
  | invalidNumber (operand : Text)
  | notANumber (step : Text)
  | infiniteResult (step : Text)
  | rangeOutOfBounds (low high : Int)
  deriving DecidableEq

inductive ErrorKind where
  | general
  | malformed
  | number (operand : Text)
  | depth (limit : WritableInt)
  deriving DecidableEq

structure Report where
  kind : ErrorKind
  message : Text
  code : Text
  deriving DecidableEq

namespace Report

def general (message : Text) (code : Option Text) : Report :=
  ⟨.general, message, code.getD "CALCULATOR_ERROR".toList⟩

def malformed (message code : Option Text) : Report :=
  ⟨.malformed, message.getD "The given input is not valid notation!".toList,
    code.getD "NOTATION_ERROR".toList⟩

def number (operand : Text) (code : Option Text) : Report :=
  ⟨.number operand, "Invalid number (".toList ++ operand ++ ")!".toList,
    code.getD "NUMBER_ERROR".toList⟩

def depth (limit : WritableInt) : Report :=
  ⟨.depth limit, "Expression too deep (>".toList ++ integerText limit ++ " levels)!".toList,
    "TOO_DEEP".toList⟩

def isMalformed (report : Report) : Bool :=
  match report.kind with
  | .malformed | .depth _ => true
  | .general | .number _ => false

end Report

namespace CalcError

def malformed (message : Text) (code : String) : Report :=
  Report.malformed (some message) (some code.toList)

def report : CalcError → Report
  | tooLong limit =>
    malformed ("Input too long (>".toList ++ integerText limit ++ " characters)!".toList) "TOO_LONG"
  | emptyInput => malformed "Empty input!".toList "EMPTY_INPUT"
  | unmatchedClosing => malformed "Unmatched closing parenthesis!".toList "UNBALANCED"
  | unmatchedOpening => malformed "Unmatched opening parenthesis!".toList "UNBALANCED"
  | tooDeep limit => Report.depth limit
  | invalidSymbol found =>
    malformed ("Invalid symbol (".toList ++ found.getD "None".toList ++ ")!".toList)
      "INVALID_SYMBOL"
  | emptyParentheses => malformed "Empty parentheses!".toList "EMPTY_INPUT"
  | noOperands => malformed "No valid operands found!".toList "NO_OPERANDS"
  | invalidNumber operand => Report.number operand none
  | notANumber step =>
    malformed ("Result of (".toList ++ step ++ ") is not a number!".toList) "NOT_A_NUMBER"
  | infiniteResult step =>
    malformed ("Result of (".toList ++ step ++ ") is infinite!".toList) "INFINITE_RESULT"
  | rangeOutOfBounds low high =>
    malformed ("Random range out of bounds (".toList ++ integerText low ++ ", ".toList ++
      integerText high ++ ")!".toList) "NOTATION_ERROR"

def message (error : CalcError) : Text := error.report.message

def code (error : CalcError) : Text := error.report.code

end CalcError

inductive Failure where
  | reported (error : CalcError)
  | fault (fault : Fault)
  deriving DecidableEq

namespace Failure

-- Irreducible, as unification would compute the bound, a number of thousands of digits.
@[irreducible]
def tooDeep (limit : Int) : Failure :=
  if h : IsWritable limit then .reported (.tooDeep ⟨limit, h⟩) else .fault (.longInteger none)

theorem tooDeep_of_writable {limit : Int} (h : IsWritable limit) :
    tooDeep limit = .reported (.tooDeep ⟨limit, h⟩) := by
  unfold tooDeep
  exact dif_pos h

theorem tooDeep_of_not_writable {limit : Int} (h : ¬ IsWritable limit) :
    tooDeep limit = .fault (.longInteger none) := by
  unfold tooDeep
  exact dif_neg h

end Failure

end PolishCalc
