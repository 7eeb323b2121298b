import PolishCalc.Number.Decimal

namespace PolishCalc

def fixedConstants : List (Text × Double) :=
  [("pi".toList, Double.ofDecimal false 3141592653589793 (-15)),
    ("e".toList, Double.ofDecimal false 2718281828459045 (-15))]

def answerName : Text := "ans".toList

def constantNames : List Text :=
  answerName :: fixedConstants.map Prod.fst

def constant? (answer : Double) (name : Text) : Option Double :=
  if name = answerName then some answer else fixedConstants.lookup name

end PolishCalc
