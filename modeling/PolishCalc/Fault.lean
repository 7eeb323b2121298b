import PolishCalc.Text.Quoted

namespace PolishCalc

def integerDigitLimit : Nat := 4300

def IsWritable (n : Int) : Prop :=
  n.natAbs < Nat.pow 10 integerDigitLimit

instance (n : Int) : Decidable (IsWritable n) :=
  inferInstanceAs (Decidable (_ < _))

abbrev WritableInt := {n : Int // IsWritable n}

inductive AbsentUse where
  | asDouble
  | asInteger
  | asReal
  | asMagnitude
  | asTerm (sign : String)
  deriving DecidableEq

inductive ValueUse where
  | asExpression
  | asLogLevel
  | asPrecision
  deriving DecidableEq

inductive Fault where
  | domain
  | nanToInteger
  | infinityToInteger
  | tooLarge
  | noOperand
  | absent (use : AbsentUse)
  | notInteger (text : Text)
  /-- An integer with too many digits to be read or, if they are not counted, to be written. -/
  | longInteger (digits : Option Nat)
  | notNumber (text : Text)
  | crossedBounds (minimum maximum : WritableInt)
  | negativeSeed
  | layoutAsLevel
  | layoutsAsLevel
  | valueless (use : ValueUse)
  | source (message : String)
  deriving DecidableEq

namespace Fault

def shownLength : Nat := 200

def percentLayout : String := "%(levelname)s:%(name)s:%(message)s"

def braceLayout : String := "\x7blevelname\x7d:\x7bname\x7d:\x7bmessage\x7d"

def dollarLayout : String := "$\x7blevelname\x7d:$\x7bname\x7d:$\x7bmessage\x7d"

def message : Fault → String
  | domain => "math domain error"
  | nanToInteger => "cannot convert float NaN to integer"
  | infinityToInteger => "cannot convert float infinity to integer"
  | tooLarge => "int too large to convert to float"
  | noOperand => "apply_operator needs at least one operand"
  | absent .asDouble => "float() argument must be a string or a real number, not 'NoneType'"
  | absent .asInteger =>
    "int() argument must be a string, a bytes-like object or a real number, not 'NoneType'"
  | absent .asReal => "must be real number, not NoneType"
  | absent .asMagnitude => "bad operand type for abs(): 'NoneType'"
  | absent (.asTerm sign) =>
    "unsupported operand type(s) for " ++ sign ++ ": 'float' and 'NoneType'"
  | notInteger text =>
    "invalid literal for int() with base 10: " ++
      String.ofList ((Text.quoted text).take shownLength)
  | longInteger digits =>
    let counted := match digits with
      | some digits => ": value has " ++ toString digits ++ " digits"
      | none => ""
    "Exceeds the limit (" ++ toString integerDigitLimit ++
      " digits) for integer string conversion" ++ counted ++
      "; use sys.set_int_max_str_digits() to increase the limit"
  | notNumber text => "could not convert string to float: " ++ String.ofList (Text.quoted text)
  | crossedBounds minimum maximum =>
    "minimum " ++ toString minimum.val ++ " exceeds maximum " ++ toString maximum.val
  | negativeSeed => "expected non-negative integer"
  | layoutAsLevel => "Unknown level: '" ++ percentLayout ++ "'"
  | layoutsAsLevel =>
    "Level not an integer or a valid string: \x7b'%': (<class 'logging.PercentStyle'>, '" ++
      percentLayout ++ "'), '\x7b': (<class 'logging.StrFormatStyle'>, '" ++ braceLayout ++
      "'), '$': (<class 'logging.StringTemplateStyle'>, '" ++ dollarLayout ++ "')\x7d"
  | valueless .asExpression => "'list' object has no attribute 'strip'"
  | valueless .asLogLevel => "'list' object has no attribute 'upper'"
  | valueless .asPrecision =>
    "int() argument must be a string, a bytes-like object or a real number, not 'list'"
  | source message => message

end Fault

end PolishCalc
