import RowFilter.Binary64.Rounding

/-! Numerals as written: digits, an optional fraction and an optional exponent.
`Numeral.unsigned?` reads the longest numeral at the start of a text, `text` writes
one back, and `int64?` and `toBinary64` are its values. -/

namespace RowFilter

/-- The whole number in the signed 64-bit range, if it lies there. -/
def int64? (z : Int) : Option Int64 :=
  if Int64.minValue.toInt ≤ z ∧ z ≤ Int64.maxValue.toInt then some (Int64.ofInt z) else none

theorem int64?_toInt (n : Int64) : int64? n.toInt = some n := by
  have lower : Int64.minValue.toInt ≤ n.toInt := n.minValue_le_toInt
  have upper : n.toInt ≤ Int64.maxValue.toInt := n.toInt_le
  rw [int64?, if_pos ⟨lower, upper⟩, Int64.ofInt_toInt]

inductive Sign where
  | plus
  | minus
  deriving DecidableEq

/-- The exponent of a numeral: its letter, its sign if one is written, its digits. -/
structure ExponentPart where
  capital : Bool
  sign : Option Sign
  digits : List Char
  deriving DecidableEq

namespace ExponentPart

def chars (e : ExponentPart) : List Char :=
  let letter := if e.capital then 'E' else 'e'
  match e.sign with
  | none => letter :: e.digits
  | some .plus => letter :: '+' :: e.digits
  | some .minus => letter :: '-' :: e.digits

def value (e : ExponentPart) : Int :=
  let magnitude : Int := Nat.ofDigitChars 10 e.digits 0
  if e.sign = some .minus then -magnitude else magnitude

end ExponentPart

/-- A number as written. A fraction without digits is a point that nothing follows. -/
structure Numeral where
  negative : Bool
  whole : List Char
  fraction : Option (List Char)
  exponent : Option ExponentPart
  deriving DecidableEq

namespace Numeral

def chars (n : Numeral) : List Char :=
  (if n.negative then ['-'] else []) ++ n.whole ++
    (n.fraction.map ('.' :: ·)).getD [] ++ (n.exponent.map ExponentPart.chars).getD []

def text (n : Numeral) : String := String.ofList n.chars

/-- Neither a point nor an exponent is written. -/
def isWhole (n : Numeral) : Bool := n.fraction.isNone && n.exponent.isNone

/-- The digits before and behind the point, read as one number. -/
def significand (n : Numeral) : Nat := Nat.ofDigitChars 10 (n.whole ++ n.fraction.getD []) 0

/-- The power of ten of the last digit. -/
def scale (n : Numeral) : Int :=
  (n.exponent.map ExponentPart.value).getD 0 - (n.fraction.getD []).length

/-- The value of a numeral that has neither a fraction nor an exponent. -/
def int64? (n : Numeral) : Option Int64 :=
  RowFilter.int64? (if n.negative then -(n.significand : Int) else n.significand)

def toBinary64 (n : Numeral) : Binary64 :=
  Binary64.ofDecimal n.negative n.significand n.scale

def digitsOf (cs : List Char) : List Char := cs.takeWhile Char.isDigit

def behindDigits (cs : List Char) : List Char := cs.dropWhile Char.isDigit

/-- The exponent behind its letter and sign; without digits there is none. -/
def exponentDigits? (capital : Bool) (sign : Option Sign) (cs : List Char) :
    Option (ExponentPart × List Char) :=
  if digitsOf cs = [] then none else some (⟨capital, sign, digitsOf cs⟩, behindDigits cs)

def exponent? : List Char → Option (ExponentPart × List Char)
  | 'e' :: '-' :: cs => exponentDigits? false (some .minus) cs
  | 'e' :: '+' :: cs => exponentDigits? false (some .plus) cs
  | 'e' :: cs => exponentDigits? false none cs
  | 'E' :: '-' :: cs => exponentDigits? true (some .minus) cs
  | 'E' :: '+' :: cs => exponentDigits? true (some .plus) cs
  | 'E' :: cs => exponentDigits? true none cs
  | _ => none

/-- The numeral with the exponent that comes next, if one does. -/
def withExponent (whole : List Char) (fraction : Option (List Char)) (cs : List Char) :
    Numeral × List Char :=
  match exponent? cs with
  | some (exponent, rest) => (⟨false, whole, fraction, some exponent⟩, rest)
  | none => (⟨false, whole, fraction, none⟩, cs)

/-- The longest numeral without a sign at the start of a text, and what follows it.
At least one digit stands before the point or behind it. -/
def unsigned? (cs : List Char) : Option (Numeral × List Char) :=
  match digitsOf cs, behindDigits cs with
  | [], '.' :: rest =>
    if digitsOf rest = [] then none
    else some (withExponent [] (some (digitsOf rest)) (behindDigits rest))
  | [], _ => none
  | whole, '.' :: rest => some (withExponent whole (some (digitsOf rest)) (behindDigits rest))
  | whole, rest => some (withExponent whole none rest)

end Numeral

namespace Binary64

/-- A whole text without a sign: `nan`, `inf` or `infinity` in letters of any case, or a
numeral. -/
def ofUnsigned? (negative : Bool) (cs : List Char) : Option Binary64 :=
  match String.ofList (cs.map Char.toLower) with
  | "nan" => some .nan
  | "inf" | "infinity" => some (.infinite negative)
  | _ => match Numeral.unsigned? cs with
    | some (n, []) => some { n with negative := negative }.toBinary64
    | _ => none

/-- Reads a whole text, a sign being optional. -/
def ofText? (s : String) : Option Binary64 :=
  match s.toList with
  | '-' :: cs => ofUnsigned? true cs
  | '+' :: cs => ofUnsigned? false cs
  | cs => ofUnsigned? false cs

end Binary64

end RowFilter
