import RowFilter.Binary64.Scaling
import RowFilter.Text.Place

/-! The lexical layer of reading JSON: texts, numbers and words, and skipping a whole
value. Every scanner takes what is left of the document and returns what it found with
the rest, or the first flaw. Where the document ends too early the flaw is `cutShort`,
all else that is no JSON is `malformed`. -/

namespace RowFilter.Json

inductive Flaw where
  | malformed
  | cutShort
  deriving DecidableEq

def isGap (c : Char) : Bool := c == ' ' || c == '\n' || c == '\t' || c == '\r'

def skipGap (cs : List Char) : List Char := cs.dropWhile isGap

/-- The rest of a word whose first letter is known. -/
def wordRest : List Char → List Char → Except Flaw (List Char)
  | [], cs => .ok cs
  | _ :: _, [] => .error .cutShort
  | w :: ws, c :: cs => if w = c then wordRest ws cs else .error .malformed

def hexDigit? (c : Char) : Option Nat :=
  if c.isDigit then some (c.toNat - '0'.toNat)
  else if 'a' ≤ c ∧ c ≤ 'f' then some (c.toNat - 'a'.toNat + 10)
  else if 'A' ≤ c ∧ c ≤ 'F' then some (c.toNat - 'A'.toNat + 10)
  else none

/-- Four hexadecimal digits. The document is cut short if fewer than four bytes of its
UTF-8 form are left, whatever they are. -/
def hexUnit (cs : List Char) : Except Flaw (Nat × List Char) :=
  match (cs.take 4).mapM hexDigit? with
  | some [a, b, c, d] => .ok (((a * 16 + b) * 16 + c) * 16 + d, cs.drop 4)
  | _ => if Text.byteLength cs < 4 then .error .cutShort else .error .malformed

/-- A character by its UTF-16 units, the first of which is read: one unit, or a leading
surrogate and a trailing one. -/
def unitChar (cs : List Char) : Except Flaw (Char × List Char) := do
  let (lead, rest) ← hexUnit cs
  if 0xdc00 ≤ lead ∧ lead ≤ 0xdfff then throw .malformed
  if lead < 0xd800 ∨ 0xdbff < lead then return (Char.ofNat lead, rest)
  match rest with
  | '\\' :: 'u' :: rest => do
    let (trail, rest) ← hexUnit rest
    if trail < 0xdc00 ∨ 0xdfff < trail then throw .malformed
    return (Char.ofNat (0x10000 + (lead - 0xd800) * 0x400 + (trail - 0xdc00)), rest)
  | [] | ['\\'] => throw .cutShort
  | _ => throw .malformed

/-- The letters that stand for one character behind a backslash. -/
def shortEscape? : Char → Option Char
  | '"' => some '"'
  | '\\' => some '\\'
  | '/' => some '/'
  | 'b' => some '\x08'
  | 'f' => some '\x0c'
  | 'n' => some '\n'
  | 'r' => some '\r'
  | 't' => some '\t'
  | _ => none

/-- The character that an escape stands for, behind its backslash. -/
def escapedChar : List Char → Except Flaw (Char × List Char)
  | [] => .error .cutShort
  | 'u' :: cs => unitChar cs
  | c :: cs => match shortEscape? c with
    | some meant => .ok (meant, cs)
    | none => .error .malformed

/-- A skipped escape may be half of a surrogate pair. -/
def skipEscape : List Char → Except Flaw (List Char)
  | [] => .error .cutShort
  | 'u' :: cs => do
    let (_, rest) ← hexUnit cs
    pure rest
  | c :: cs => if (shortEscape? c).isSome then .ok cs else .error .malformed

/-- The characters up to the closing quote; `fuel` exceeds the length of the text. -/
def textBody : Nat → List Char → Except Flaw (List Char × List Char)
  | 0, _ => .error .malformed
  | _ + 1, [] => .error .cutShort
  | _ + 1, '"' :: cs => .ok ([], cs)
  | fuel + 1, '\\' :: cs => do
    let (c, rest) ← escapedChar cs
    let (body, rest) ← textBody fuel rest
    pure (c :: body, rest)
  | fuel + 1, c :: cs =>
    if c.toNat < 0x20 then .error .malformed
    else do
      let (body, rest) ← textBody fuel cs
      pure (c :: body, rest)

/-- A text behind its opening quote. -/
def textRest (cs : List Char) : Except Flaw (String × List Char) := do
  let (body, rest) ← textBody (cs.length + 1) cs
  pure (String.ofList body, rest)

def skipTextBody : Nat → List Char → Except Flaw (List Char)
  | 0, _ => .error .malformed
  | _ + 1, [] => .error .cutShort
  | _ + 1, '"' :: cs => .ok cs
  | fuel + 1, '\\' :: cs => do
    let rest ← skipEscape cs
    skipTextBody fuel rest
  | fuel + 1, c :: cs => if c.toNat < 0x20 then .error .malformed else skipTextBody fuel cs

def skipTextRest (cs : List Char) : Except Flaw (List Char) := skipTextBody (cs.length + 1) cs

/-- A number is an integer while it fits 64 bits and is written like one. -/
inductive Number where
  | int (value : Int)
  | float (value : Binary64)

/-- Appends digits to a significand while it fits 64 bits. Also tells how many
digits were appended and how many were left over. -/
def appendDigits (significand taken : Nat) : List Char → Nat × Nat × Nat
  | [] => (significand, taken, 0)
  | c :: cs =>
    let longer := significand * 10 + (c.toNat - '0'.toNat)
    if longer < UInt64.size then appendDigits longer (taken + 1) cs
    else (significand, taken, cs.length + 1)

/-- The digits before the point: one zero alone, or a digit that is none and more. -/
def wholeDigits (cs : List Char) : Except Flaw (List Char × List Char) :=
  match cs.takeWhile Char.isDigit, cs.dropWhile Char.isDigit with
  | [], [] => .error .cutShort
  | [], _ :: _ => .error .malformed
  | '0' :: _ :: _, _ => .error .malformed
  | digits, rest => .ok (digits, rest)

/-- One or more digits behind a point or an exponent letter. -/
def someDigits (cs : List Char) : Except Flaw (List Char × List Char) :=
  match cs.takeWhile Char.isDigit, cs.dropWhile Char.isDigit with
  | [], [] => .error .cutShort
  | [], _ :: _ => .error .malformed
  | digits, rest => .ok (digits, rest)

/-- The digits of the fraction, if a point comes next. -/
def fractionPart : List Char → Except Flaw (Option (List Char) × List Char)
  | '.' :: cs => do
    let (digits, rest) ← someDigits cs
    pure (some digits, rest)
  | cs => .ok (none, cs)

/-- The value of an exponent behind its letter and sign. -/
def exponentDigits (negative : Bool) (cs : List Char) : Except Flaw (Option Int × List Char) := do
  let (digits, rest) ← someDigits cs
  let magnitude : Int := Nat.ofDigitChars 10 digits 0
  pure (some (if negative then -magnitude else magnitude), rest)

def behindLetter : List Char → Except Flaw (Option Int × List Char)
  | '+' :: cs => exponentDigits false cs
  | '-' :: cs => exponentDigits true cs
  | cs => exponentDigits false cs

/-- The value of the exponent, if its letter comes next. -/
def exponentPart : List Char → Except Flaw (Option Int × List Char)
  | 'e' :: cs => behindLetter cs
  | 'E' :: cs => behindLetter cs
  | cs => .ok (none, cs)

/-- A number behind its sign. Digits that no longer fit the significand only count for
the scale if they stand before the point. -/
def numberRest (negative : Bool) (cs : List Char) : Except Flaw (Number × List Char) := do
  let (whole, cs) ← wholeDigits cs
  let (significand, _, left) := appendDigits 0 0 whole
  let (fraction, cs) ← fractionPart cs
  let (significand, places, _) := appendDigits significand 0 (fraction.getD [])
  let (exponent, cs) ← exponentPart cs
  if fraction.isNone ∧ exponent.isNone ∧ left = 0 ∧
      (negative = false ∨ significand ≠ 0 ∧ Int64.minValue.toInt ≤ -(significand : Int)) then
    pure (.int (if negative then -(significand : Int) else significand), cs)
  else match Binary64.ofScaled? negative significand (exponent.getD 0 + left - places) with
    | some value => pure (.float value, cs)
    | none => throw .malformed

/-- Skips a number behind its sign. A number that breaks off is malformed here, also at
the end of the document. -/
def skipNumberRest (cs : List Char) : Except Flaw (List Char) :=
  let rest := do
    let (_, cs) ← wholeDigits cs
    let (_, cs) ← fractionPart cs
    let (_, cs) ← exponentPart cs
    pure cs
  rest.mapError fun _ => .malformed

/-- A key and the colon behind it, without looking at the key. -/
def skipKey (cs : List Char) : Except Flaw (List Char) :=
  match skipGap cs with
  | '"' :: cs => do
    let rest ← skipTextRest cs
    match skipGap rest with
    | ':' :: rest => pure rest
    | [] => throw .cutShort
    | _ => throw .malformed
  | [] => .error .cutShort
  | _ => .error .malformed

mutual

/-- Skips one value; `fuel` exceeds twice the length of the text. -/
def skipValueUpTo : Nat → List Char → Except Flaw (List Char)
  | 0, _ => .error .malformed
  | fuel + 1, cs => match skipGap cs with
    | [] => .error .cutShort
    | '[' :: cs => match skipGap cs with
      | ']' :: cs => .ok cs
      | [] => .error .cutShort
      | cs => skipItems fuel cs
    | '\x7b' :: cs => match skipGap cs with
      | '\x7d' :: cs => .ok cs
      | [] => .error .cutShort
      | cs => skipFields fuel cs
    | '"' :: cs => skipTextRest cs
    | 'n' :: cs => wordRest ['u', 'l', 'l'] cs
    | 't' :: cs => wordRest ['r', 'u', 'e'] cs
    | 'f' :: cs => wordRest ['a', 'l', 's', 'e'] cs
    | '-' :: cs => skipNumberRest cs
    | c :: cs => if c.isDigit then skipNumberRest (c :: cs) else .error .malformed
termination_by structural fuel => fuel

/-- Skips items up to the end of their list. -/
def skipItems : Nat → List Char → Except Flaw (List Char)
  | 0, _ => .error .malformed
  | fuel + 1, cs => do
    let rest ← skipValueUpTo fuel cs
    match skipGap rest with
    | ',' :: rest => skipItems fuel rest
    | ']' :: rest => pure rest
    | [] => throw .cutShort
    | _ => throw .malformed
termination_by structural fuel => fuel

/-- Skips fields up to the end of their record. -/
def skipFields : Nat → List Char → Except Flaw (List Char)
  | 0, _ => .error .malformed
  | fuel + 1, cs => do
    let rest ← skipKey cs
    let rest ← skipValueUpTo fuel rest
    match skipGap rest with
    | ',' :: rest => skipFields fuel rest
    | '\x7d' :: rest => pure rest
    | [] => throw .cutShort
    | _ => throw .malformed
termination_by structural fuel => fuel

end

def skipValue (cs : List Char) : Except Flaw (List Char) := skipValueUpTo (2 * cs.length + 2) cs

end RowFilter.Json
