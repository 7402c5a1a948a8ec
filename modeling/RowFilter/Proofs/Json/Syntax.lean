import Mathlib.Data.List.Forall2

/-! The syntax of JSON, said of texts and not of their reading: how characters, texts,
numbers and whole values are written, what may stand between them, and which texts are lists
of parts or records of fields. -/

namespace RowFilter.Json

def Gap (cs : List Char) : Prop := ∀ c ∈ cs, c ∈ [' ', '\n', '\t', '\r']

/-! ### Characters and texts -/

/-- A hexadecimal digit, in either case. -/
inductive HexDigit : Nat → Char → Prop
  | lower {n : Nat} : n < 16 → HexDigit n (Nat.digitChar n)
  | upper {n : Nat} : n < 16 → HexDigit n (Nat.digitChar n).toUpper

/-- A unit of UTF-16 as an escape. -/
inductive UnitText : Nat → List Char → Prop
  | mk {a b c d : Nat} {w x y z : Char} :
    HexDigit a w → HexDigit b x → HexDigit c y → HexDigit d z →
    UnitText (((a * 16 + b) * 16 + c) * 16 + d) ['\\', 'u', w, x, y, z]

/-- The letters of the short escapes, and the characters that they stand for. -/
def shortEscapes : List (Char × Char) :=
  [('"', '"'), ('\\', '\\'), ('/', '/'), ('b', '\x08'), ('f', '\x0c'), ('n', '\n'), ('r', '\r'),
    ('t', '\t')]

/-- What stands in a text for itself. -/
def IsRaw (c : Char) : Prop := c ≠ '"' ∧ c ≠ '\\' ∧ 0x20 ≤ c.toNat

/-- The ways to write a character: raw, by a letter, by its unit or by its two surrogates. -/
inductive CharText (c : Char) : List Char → Prop
  | raw : IsRaw c → CharText c [c]
  | short {letter : Char} : (letter, c) ∈ shortEscapes → CharText c ['\\', letter]
  | unit {cs : List Char} : UnitText c.toNat cs → CharText c cs
  | pair {lead trail : List Char} : 0x10000 ≤ c.toNat →
    UnitText (0xd800 + (c.toNat - 0x10000) / 0x400) lead →
    UnitText (0xdc00 + (c.toNat - 0x10000) % 0x400) trail → CharText c (lead ++ trail)

inductive CharsText : List Char → List Char → Prop
  | nil : CharsText [] []
  | cons {c : Char} {cs w more : List Char} :
    CharText c w → CharsText cs more → CharsText (c :: cs) (w ++ more)

/-- The string in quotes. -/
inductive TextOf (s : String) : List Char → Prop
  | mk {body : List Char} : CharsText s.toList body → TextOf s ('"' :: (body ++ ['"']))

theorem charsText_raw {cs : List Char} (hcs : ∀ c ∈ cs, IsRaw c) : CharsText cs cs := by
  induction cs with
  | nil => exact .nil
  | cons c cs ih =>
    obtain ⟨hc, hcs⟩ := List.forall_mem_cons.1 hcs
    exact .cons (.raw hc) (ih hcs)

theorem textOf_raw {s : String} (hs : ∀ c ∈ s.toList, IsRaw c) :
    TextOf s ('"' :: (s.toList ++ ['"'])) := .mk (charsText_raw hs)

/-- What a text is made of where nobody asks what it says: half a surrogate pair will do. -/
inductive Mark : List Char → Prop
  | raw {c : Char} : IsRaw c → Mark [c]
  | short {escape : Char × Char} : escape ∈ shortEscapes → Mark ['\\', escape.1]
  | unit {n : Nat} {cs : List Char} : UnitText n cs → Mark cs

inductive AnyText : List Char → Prop
  | mk {marks : List (List Char)} : (∀ mark ∈ marks, Mark mark) →
    AnyText ('"' :: (marks.flatten ++ ['"']))

/-! ### Numbers -/

def Digits (ds : List Char) : Prop := ds ≠ [] ∧ ∀ c ∈ ds, c.isDigit = true

/-- No zero stands before another digit. -/
inductive WholeText : List Char → Prop
  | zero : WholeText ['0']
  | digits {c : Char} {ds : List Char} : c ≠ '0' → Digits (c :: ds) → WholeText (c :: ds)

inductive FractionText : List Char → Prop
  | none : FractionText []
  | point {ds : List Char} : Digits ds → FractionText ('.' :: ds)

inductive ExponentText : List Char → Prop
  | none : ExponentText []
  | letter {c : Char} {sign ds : List Char} : c ∈ ['e', 'E'] → sign ∈ [[], ['+'], ['-']] →
    Digits ds → ExponentText (c :: (sign ++ ds))

inductive MagnitudeText : List Char → Prop
  | mk {whole fraction exponent : List Char} : WholeText whole → FractionText fraction →
    ExponentText exponent → MagnitudeText (whole ++ (fraction ++ exponent))

/-! ### Values -/

/-- Parts with a comma between any two and blanks around them, up to the sign that closes
them. No part stands before the first. -/
inductive Upto (close : Char) : Bool → List (List Char) → List Char → Prop
  | close (first : Bool) {g : List Char} : Gap g → Upto close first [] (g ++ [close])
  | first {g part more : List Char} {parts : List (List Char)} : Gap g →
    Upto close false parts more → Upto close true (part :: parts) (g ++ (part ++ more))
  | next {g h part more : List Char} {parts : List (List Char)} : Gap g → Gap h →
    Upto close false parts more →
    Upto close false (part :: parts) (g ++ ',' :: (h ++ (part ++ more)))

inductive ListText (parts : List (List Char)) : List Char → Prop
  | mk {body : List Char} : Upto ']' true parts body → ListText parts ('[' :: body)

theorem exists_listText (parts : List (List Char)) : ∃ w, ListText parts w := by
  have hnil : Gap [] := nofun
  have hmore (parts : List (List Char)) : ∃ w, Upto ']' false parts w := by
    induction parts with
    | nil => exact ⟨_, .close false hnil⟩
    | cons part parts ih =>
      obtain ⟨more, hmore⟩ := ih
      exact ⟨_, .next hnil hnil hmore⟩
  cases parts with
  | nil => exact ⟨_, .mk (.close true hnil)⟩
  | cons part parts =>
    obtain ⟨more, hmore⟩ := hmore parts
    exact ⟨_, .mk (.first hnil hmore)⟩

/-- A key, a colon and a value, with blanks around the colon. -/
inductive FieldText (key value : List Char) : List Char → Prop
  | mk {g h : List Char} : Gap g → Gap h → FieldText key value (key ++ (g ++ ':' :: (h ++ value)))

/-- Any value, as it stands under a field that nobody asks for. -/
inductive ValueText : List Char → Prop
  | word {word : String} : word ∈ ["null", "true", "false"] → ValueText word.toList
  | number {cs : List Char} : MagnitudeText cs → ValueText cs
  | negative {cs : List Char} : MagnitudeText cs → ValueText ('-' :: cs)
  | text {cs : List Char} : AnyText cs → ValueText cs
  | list {parts : List (List Char)} {cs : List Char} : (∀ part ∈ parts, ValueText part) →
    ListText parts cs → ValueText cs
  | record {fields : List (List Char × List Char)} {parts : List (List Char)} {body : List Char} :
    (∀ field ∈ fields, AnyText field.1) → (∀ field ∈ fields, ValueText field.2) →
    List.Forall₂ (fun field part => FieldText field.1 field.2 part) fields parts →
    Upto '\x7d' true parts body → ValueText ('\x7b' :: body)

/-- A field of a known key, which may be written in any way. -/
def KeyedText (field : String × List Char) (part : List Char) : Prop :=
  ∃ key, TextOf field.1 key ∧ FieldText key field.2 part

/-- A record with these keys and texts of values, in this order. -/
inductive RecordText (fields : List (String × List Char)) : List Char → Prop
  | mk {parts : List (List Char)} {body : List Char} : List.Forall₂ KeyedText fields parts →
    Upto '\x7d' true parts body → RecordText fields ('\x7b' :: body)

/-- The fields have one of this key, with the value. -/
def Has (fields : List (String × List Char)) (key : String) (value : List Char) : Prop :=
  fields.filter (fun field => field.1 == key) = [(key, value)]

def Lacks (fields : List (String × List Char)) (key : String) : Prop :=
  ∀ field ∈ fields, field.1 ≠ key

end RowFilter.Json
