import PolishCalc.Text.Basic

namespace PolishCalc

inductive Imbalance where
  | closing (index : Nat)
  | opening (index : Nat)
  deriving DecidableEq

namespace Imbalance

def index : Imbalance → Nat
  | closing i => i
  | opening i => i

/-- Scans a text from `index` on; `unclosed` are the indices of the parentheses that are open, the
latest first. -/
def scan (index : Nat) (unclosed : List Nat) : Text → Option Imbalance
  | [] => unclosed.getLast?.map opening
  | c :: cs =>
    if c == '(' then scan (index + 1) (index :: unclosed) cs
    else if c == ')' then
      match unclosed with
      | [] => some (closing index)
      | _ :: rest => scan (index + 1) rest cs
    else scan (index + 1) unclosed cs

end Imbalance

namespace Text

def imbalance? (text : Text) : Option Imbalance :=
  Imbalance.scan 0 [] text

def isBalanced (text : Text) : Bool :=
  text.imbalance?.isNone

def closeParentheses (text : Text) : Text :=
  let missing := text.count '(' - text.count ')'
  if missing = 0 then text else text.trimEnd ++ List.replicate missing ')'

end Text

end PolishCalc
