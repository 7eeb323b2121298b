import PolishCalc.Number.Rounding
import PolishCalc.Random

namespace PolishCalc

inductive Operator where
  | add
  | subtract
  | multiply
  | divide
  | power
  | intDivide
  | modulo
  | random
  deriving DecidableEq

namespace Operator

def all : List Operator :=
  [add, subtract, multiply, divide, power, intDivide, modulo, random]

def symbol : Operator → Char
  | add => '+'
  | subtract => '-'
  | multiply => '*'
  | divide => '/'
  | power => '^'
  | intDivide => '\\'
  | modulo => '%'
  | random => 'r'

def ofSymbol? (c : Char) : Option Operator :=
  all.find? fun op => op.symbol == c

def ofText? : Text → Option Operator
  | [c] => ofSymbol? c
  | _ => none

theorem ofSymbol?_symbol (op : Operator) : ofSymbol? op.symbol = some op := by
  cases op <;> rfl

theorem mem_all (op : Operator) : op ∈ all := by
  cases op <;> decide

def truncatedQuotient (x y : Double) (h : y.isZero = false) : Except Fault Double :=
  let quotient := x.div y h
  if quotient.isFinite then quotient.truncate.bind Operand.integerToDouble else .ok quotient

def remainder (x y : Double) : Except Fault Double :=
  if (x.rem y).isNaN && !x.isNaN && !y.isNaN then .error .domain else .ok (x.rem y)

def absentUse : Operator → AbsentUse
  | modulo => .asReal
  | power => .asTerm "** or pow()"
  | intDivide => .asTerm "/"
  | op => .asTerm (String.ofList [op.symbol])

def compute (op : Operator) (x : Double) (operand : Operand) : Except Fault Double :=
  let y := operand.toDouble op.absentUse
  match op with
  | add => y.map x.add
  | subtract => y.map x.sub
  | multiply => y.map x.mul
  | divide => y.map fun y => if h : y.isZero = false then x.div y h else .zero
  | intDivide => y.bind fun y => if h : y.isZero = false then truncatedQuotient x y h else .ok .zero
  | modulo => y.bind fun y => if y.isZero then .ok .zero else remainder x y
  | power =>
    match y with
    | .error .tooLarge => .ok (.infinity false)
    | y => y.map x.pow
  | random => .ok x

def step (source : Source) (op : Operator) (x : Double) (operand : Operand)
    (earlier : List Request) : Except Failure Double × List Request :=
  match op with
  | random => randomInRange source earlier (.double x) operand
  | op => ((op.compute x operand).mapError Failure.fault, earlier)

def foldRest (source : Source) (op : Operator) (x : Double) :
    List Operand → List Request → Except Failure Double × List Request
  | [], earlier => (.ok x, earlier)
  | operand :: rest, earlier =>
    match step source op x operand earlier with
    | (.ok y, earlier) => foldRest source op y rest earlier
    | (.error failure, earlier) => (.error failure, earlier)

def apply (source : Source) (op : Operator) (operands : List Operand) (earlier : List Request) :
    Except Failure Double × List Request :=
  match operands with
  | [] => (.error (.fault .noOperand), earlier)
  | first :: rest =>
    if op = random ∧ rest = [] then randomInRange source earlier first .absent
    else
      match first.toDouble .asDouble with
      | .error fault => (.error (.fault fault), earlier)
      | .ok x => foldRest source op x rest earlier

def stepText (op : Operator) (operands : List Operand) : Text :=
  List.intercalate [' '] ([op.symbol] :: operands.map Operand.display)

end Operator

end PolishCalc
