namespace PolishCalc

abbrev Text := List Char

def isBlank (c : Char) : Bool :=
  let n := c.toNat
  (9 ≤ n && n ≤ 13) || (28 ≤ n && n ≤ 32) || n == 0x85 || n == 0xA0 || n == 0x1680 ||
    (0x2000 ≤ n && n ≤ 0x200A) || n == 0x2028 || n == 0x2029 || n == 0x202F || n == 0x205F ||
    n == 0x3000

namespace Text

def dropEnd (p : Char → Bool) (text : Text) : Text :=
  (text.reverse.dropWhile p).reverse

def dropEnds (p : Char → Bool) (text : Text) : Text :=
  dropEnd p (text.dropWhile p)

def trim (text : Text) : Text :=
  dropEnds isBlank text

def trimEnd (text : Text) : Text :=
  dropEnd isBlank text

def collapse : Text → Text
  | [] => []
  | c :: cs => if isBlank c then ' ' :: (collapse cs).dropWhile (· == ' ') else c :: collapse cs

def wordsFrom (word : Text) : Text → List Text
  | [] => if word.isEmpty then [] else [word.reverse]
  | c :: cs =>
    if isBlank c then (if word.isEmpty then [] else [word.reverse]) ++ wordsFrom [] cs
    else wordsFrom (c :: word) cs

def words (text : Text) : List Text :=
  wordsFrom [] text

/-- Lower case for the letters A to Z, the only ones that occur in the calculator's own words. -/
def lower (text : Text) : Text :=
  text.map Char.toLower

def padLeft (width : Nat) (c : Char) (text : Text) : Text :=
  List.replicate (width - text.length) c ++ text

end Text

theorem Text.collapse_blank {c : Char} (h : isBlank c = true) (cs : Text) :
    Text.collapse (c :: cs) = ' ' :: (Text.collapse cs).dropWhile (· == ' ') := by
  simp [Text.collapse, h]

theorem Text.collapse_solid {c : Char} (h : isBlank c = false) (cs : Text) :
    Text.collapse (c :: cs) = c :: Text.collapse cs := by
  simp [Text.collapse, h]

end PolishCalc
