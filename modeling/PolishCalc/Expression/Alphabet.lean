import PolishCalc.Expression.Constant
import PolishCalc.Expression.Token

namespace PolishCalc

def operatorSymbols : List Char :=
  Operator.all.map Operator.symbol

def usedSymbols : List Char :=
  operatorSymbols ++ constantNames.flatten ++ "0123456789".toList ++ ['.', ',', ' ', '(', ')']

def inOrder (cs : List Char) : List Char :=
  cs.eraseDups.mergeSort fun a b => a.toNat ≤ b.toNat

namespace Text

def filterUsed (text : Text) : Text :=
  text.filter usedSymbols.contains

def validate (maxLength : Int) (text : Text) : Option Text :=
  match text.normalize maxLength with
  | .error error => some error.message
  | .ok normal =>
    match inOrder (normal.lexemes.flatten.filter fun c => !usedSymbols.contains c) with
    | [] => none
    | unknown => some ("Unsupported characters: ".toList ++ unknown)

end Text

end PolishCalc
