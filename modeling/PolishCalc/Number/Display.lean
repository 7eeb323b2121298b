import PolishCalc.Number.Operand

namespace PolishCalc

def integerText (n : Int) : Text :=
  (if n < 0 then ['-'] else []) ++ Nat.toDigits 10 n.natAbs

def longWholeFrom : Nat := Nat.pow 10 16

def Double.display (x : Double) : Text :=
  if x.isWhole && !x.magnitudeAtLeast longWholeFrom then
    integerText (Literal.signed x.isNegative x.wholePart)
  else x.text

def Operand.display : Operand → Text
  | double x => x.display
  | integer n => integerText n
  | absent => "None".toList

end PolishCalc
