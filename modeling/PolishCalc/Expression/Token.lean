import PolishCalc.Expression.Parentheses
import PolishCalc.Operator

namespace PolishCalc

inductive Token where
  | opening
  | closing
  | operator (op : Operator)
  | operand (text : Text)
  deriving DecidableEq

namespace Text

def isParenthesis (c : Char) : Bool :=
  c == '(' || c == ')'

def pointForComma (text : Text) : Text :=
  text.map fun c => if c == ',' then '.' else c

def normalize (maxLength : Int) (text : Text) : Except CalcError Text :=
  if maxLength < text.length then .error (.tooLong maxLength)
  else
    let normal := trim (collapse (pointForComma text))
    if normal.isEmpty then .error .emptyInput else .ok normal

def lexemesFrom (word : Text) : Text → List Text
  | [] => if word.isEmpty then [] else [word.reverse]
  | c :: cs =>
    if isBlank c || isParenthesis c then
      (if word.isEmpty then [] else [word.reverse]) ++
        (if isParenthesis c then [[c]] else []) ++ lexemesFrom [] cs
    else lexemesFrom (c :: word) cs

def lexemes (text : Text) : List Text :=
  lexemesFrom [] text

end Text

namespace Token

def ofText (text : Text) : Token :=
  if text = ['('] then opening
  else if text = [')'] then closing
  else
    match Operator.ofText? text with
    | some op => operator op
    | none => operand text

def text : Token → Text
  | opening => ['(']
  | closing => [')']
  | operator op => [op.symbol]
  | operand text => text

theorem text_ofText (text : Text) : (ofText text).text = text := by
  unfold ofText
  split
  · simp_all [Token.text]
  split
  · simp_all [Token.text]
  split
  · rename_i op h
    match text, h with
    | [c], h =>
      have hsymbol := List.find?_some h
      simp only [beq_iff_eq] at hsymbol
      simp [Token.text, hsymbol]
  · rfl

def ofLine (text : Text) : List Token :=
  text.lexemes.map ofText

end Token

end PolishCalc
