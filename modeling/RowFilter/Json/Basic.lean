import RowFilter.Binary64.Shortest

/-! JSON documents and their two texts: `compact` without blanks and `indented` by two
blanks a level. Fields keep the order in which they stand; `sortFields` orders them. -/

namespace RowFilter

inductive Json where
  | null
  | int (value : Int)
  | float (value : Binary64)
  | str (text : String)
  | list (items : List Json)
  | record (fields : List (String × Json))

namespace Json

/-- Doubles are written in the fewest digits that read back, positional from `1e-5` up
to below `1e16`. What is not finite is written as `null`. -/
def floatText : Binary64 → String
  | .finite negative rank =>
    let decimal := Binary64.shortest .even rank
    (if negative then "-" else "") ++
      (if -5 ≤ decimal.order ∧ decimal.order < 16 then decimal.positional else decimal.scientific)
  | _ => "null"

/-- Quotes, backslashes and control characters are escaped and nothing else. -/
def escaped (c : Char) : List Char :=
  match c with
  | '"' => ['\\', '"']
  | '\\' => ['\\', '\\']
  | '\x08' => ['\\', 'b']
  | '\t' => ['\\', 't']
  | '\n' => ['\\', 'n']
  | '\x0c' => ['\\', 'f']
  | '\r' => ['\\', 'r']
  | c =>
    if c.toNat < 0x20 then
      ['\\', 'u', '0', '0', Nat.digitChar (c.toNat / 16), Nat.digitChar (c.toNat % 16)]
    else [c]

def quoted (s : String) : String :=
  String.ofList ('"' :: s.toList.flatMap escaped ++ ['"'])

mutual

def compact : Json → String
  | .null => "null"
  | .int value => toString value
  | .float value => floatText value
  | .str text => quoted text
  | .list items => "[" ++ String.intercalate "," (compactItems items) ++ "]"
  | .record fields => "\x7b" ++ String.intercalate "," (compactFields fields) ++ "\x7d"
termination_by structural j => j

def compactItems : List Json → List String
  | [] => []
  | j :: js => j.compact :: compactItems js
termination_by structural js => js

def compactFields : List (String × Json) → List String
  | [] => []
  | (key, j) :: fields => (quoted key ++ ":" ++ j.compact) :: compactFields fields
termination_by structural fields => fields

end

/-- A line break and the blanks before a line at a depth. -/
def lineAt (depth : Nat) : String := String.ofList ('\n' :: List.replicate (2 * depth) ' ')

/-- Entries of a list or record on lines of their own; none leave the brackets closed. -/
def block (opening closing : String) (depth : Nat) (entries : List String) : String :=
  if entries.isEmpty then opening ++ closing
  else opening ++ lineAt (depth + 1) ++
    String.intercalate ("," ++ lineAt (depth + 1)) entries ++ lineAt depth ++ closing

mutual

def indentedAt : Json → Nat → String
  | .null, _ => "null"
  | .int value, _ => toString value
  | .float value, _ => floatText value
  | .str text, _ => quoted text
  | .list items, depth => block "[" "]" depth (indentedItems items (depth + 1))
  | .record fields, depth => block "\x7b" "\x7d" depth (indentedFields fields (depth + 1))
termination_by structural j => j

def indentedItems : List Json → Nat → List String
  | [], _ => []
  | j :: js, depth => j.indentedAt depth :: indentedItems js depth
termination_by structural js => js

def indentedFields : List (String × Json) → Nat → List String
  | [], _ => []
  | (key, j) :: fields, depth =>
    (quoted key ++ ": " ++ j.indentedAt depth) :: indentedFields fields depth
termination_by structural fields => fields

end

def indented (j : Json) : String := j.indentedAt 0

mutual

/-- The same document with the fields of every record in the order of their keys. -/
def sortFields : Json → Json
  | .list items => .list (sortFieldsItems items)
  | .record fields =>
    .record ((sortFieldsValues fields).mergeSort fun a b => decide (a.1 ≤ b.1))
  | j => j
termination_by structural j => j

def sortFieldsItems : List Json → List Json
  | [] => []
  | j :: js => j.sortFields :: sortFieldsItems js
termination_by structural js => js

def sortFieldsValues : List (String × Json) → List (String × Json)
  | [] => []
  | (key, j) :: fields => (key, j.sortFields) :: sortFieldsValues fields
termination_by structural fields => fields

end

end Json

end RowFilter
