import PolishCalc.Number.Operand

namespace PolishCalc

structure Precision where
  minimum : Int
  maximum : Int
  standard : Int
  value : Int
  deriving DecidableEq

namespace Precision

def clamp (minimum maximum n : Int) : Int :=
  min (max n minimum) maximum

def ofBounds (standard minimum maximum : Int) : Precision :=
  ⟨minimum, maximum, clamp minimum maximum standard, clamp minimum maximum standard⟩

def new (standard minimum maximum : Int) : Except Fault Precision :=
  if maximum < minimum then
    if h : IsWritable minimum ∧ IsWritable maximum then
      .error (.crossedBounds ⟨minimum, h.1⟩ ⟨maximum, h.2⟩)
    else .error (.longInteger none)
  else .ok (ofBounds standard minimum maximum)

def setInteger (p : Precision) (n : Int) : Precision :=
  { p with value := clamp p.minimum p.maximum n }

def set (p : Precision) (digits : Operand) : Except Fault Precision :=
  (digits.truncate .asInteger).map p.setInteger

def increase (p : Precision) : Precision :=
  if p.value < p.maximum then { p with value := p.value + 1 } else p

def decrease (p : Precision) : Precision :=
  if p.minimum < p.value then { p with value := p.value - 1 } else p

def reset (p : Precision) : Precision :=
  { p with value := p.standard }

end Precision

end PolishCalc
