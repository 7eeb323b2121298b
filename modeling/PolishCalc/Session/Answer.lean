import PolishCalc.Number.Rounding

namespace PolishCalc

structure Answer where
  standard : Double
  value : Double
  deriving DecidableEq

namespace Answer

def ofDouble (standard : Double) : Answer :=
  ⟨standard, standard⟩

def new (standard : Operand) : Except Fault Answer :=
  (standard.toDouble .asDouble).map ofDouble

def set (standardPlaces : Int) (a : Answer) (value digits : Operand) : Except Fault Answer :=
  (roundTo standardPlaces value digits).map fun x => { a with value := x }

def reset (a : Answer) : Answer :=
  { a with value := a.standard }

def text (a : Answer) : Text :=
  "AnswerState(value=".toList ++ a.value.text ++ [')']

end Answer

end PolishCalc
