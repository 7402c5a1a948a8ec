import RowFilter.Grammar.Reader
import RowFilter.Numeral
import RowFilter.Tree.Basic

/-! The lexemes of expressions: grammar blanks, symbols, words, numerals and quoted
texts. Each is a function from a text to what it reads and what follows. -/

namespace RowFilter.Grammar

/-- Blanks between lexemes; other Unicode blanks are not among them. -/
def isGap (c : Char) : Bool := c == ' ' || c == '\t' || c == '\r' || c == '\n'

def skipGap (cs : List Char) : List Char := cs.dropWhile isGap

/-- Removes `symbol` from the start of a text. -/
def dropSymbol? : List Char → List Char → Option (List Char)
  | [], cs => some cs
  | s :: symbol, c :: cs => if s = c then dropSymbol? symbol cs else none
  | _ :: _, [] => none

def isWordStart (c : Char) : Bool := c.isAlpha || c == '_'

def isWordChar (c : Char) : Bool := c.isAlphanum || c == '_'

/-- The longest word at the start of a text. -/
def word? : List Char → Option (List Char × List Char)
  | c :: cs =>
    if isWordStart c then some (c :: cs.takeWhile isWordChar, cs.dropWhile isWordChar) else none
  | [] => none

/-- Words that are no names. -/
def reserved : List String := ["and", "or", "not", "in", "is", "True", "False", "None"]

/-- A word that is not reserved. -/
def name? (cs : List Char) : Option (String × List Char) :=
  match word? cs with
  | some (w, rest) => if reserved.contains (String.ofList w) then none
    else some (String.ofList w, rest)
  | none => none

/-- The whole word `w`; a longer word that starts with it is another one. -/
def dropWord? (w : String) (cs : List Char) : Option (List Char) :=
  match word? cs with
  | some (found, rest) => if String.ofList found = w then some rest else none
  | none => none

/-- A numeral with its sign, which blanks may separate from the digits. -/
def numeral? : List Char → Option (Numeral × List Char)
  | '-' :: cs => (Numeral.unsigned? (skipGap cs)).map fun (n, rest) =>
    ({ n with negative := true }, rest)
  | cs => Numeral.unsigned? cs

/-- The character that a backslash and `c` stand for. -/
def unescape (c : Char) : Char :=
  match c with
  | 'n' => '\n'
  | 't' => '\t'
  | 'r' => '\r'
  | '0' => '\x00'
  | c => c

/-- The characters up to the closing quote, and what follows that quote. -/
def quotedBody? (quote : Char) : List Char → Option (List Char × List Char)
  | [] => none
  | ['\\'] => none
  | '\\' :: c :: cs => (quotedBody? quote cs).map fun (body, rest) => (unescape c :: body, rest)
  | c :: cs =>
    if c = quote then some ([], cs)
    else (quotedBody? quote cs).map fun (body, rest) => (c :: body, rest)

/-- A text between double or single quotes. -/
def quotedText? : List Char → Option (String × List Char)
  | '"' :: cs => (quotedBody? '"' cs).map fun (body, rest) => (String.ofList body, rest)
  | '\'' :: cs => (quotedBody? '\'' cs).map fun (body, rest) => (String.ofList body, rest)
  | _ => none

def gap : Reader Unit := .ofOption fun cs => some ((), skipGap cs)

def symbol (s : String) : Reader Unit := .ofOption fun cs =>
  (dropSymbol? s.toList cs).map fun rest => ((), rest)

def word (w : String) : Reader Unit := .ofOption fun cs =>
  (dropWord? w cs).map fun rest => ((), rest)

def name : Reader String := .ofOption name?

/-- The literal that a numeral stands for. Without a point and an exponent it is an
integer; a value that does not fit keeps its text. -/
def literalOf (n : Numeral) : Literal :=
  if n.isWhole then
    match n.int64? with
    | some value => .int value
    | none => .outOfRange n.text
  else if n.toBinary64.isFinite then .float n.toBinary64
  else .outOfRange n.text

end RowFilter.Grammar
