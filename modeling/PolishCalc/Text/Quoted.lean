import PolishCalc.Text.Printable

namespace PolishCalc.Text

def hex (width : Nat) (n : Nat) : Text :=
  padLeft width '0' (Nat.toDigits 16 n)

def quoteFor (text : Text) : Char :=
  if text.contains '\'' && !text.contains '"' then '"' else '\''

def quoteChar (quote c : Char) : Text :=
  if c == quote || c == '\\' then ['\\', c]
  else if c == '\n' then ['\\', 'n']
  else if c == '\r' then ['\\', 'r']
  else if c == '\t' then ['\\', 't']
  else if isPrintable c then [c]
  else if c.toNat < 0x100 then ['\\', 'x'] ++ hex 2 c.toNat
  else if c.toNat < 0x10000 then ['\\', 'u'] ++ hex 4 c.toNat
  else ['\\', 'U'] ++ hex 8 c.toNat

def quoted (text : Text) : Text :=
  quoteFor text :: text.flatMap (quoteChar (quoteFor text)) ++ [quoteFor text]

def quotedList (texts : List Text) : Text :=
  '[' :: List.intercalate [',', ' '] (texts.map quoted) ++ [']']

end PolishCalc.Text
