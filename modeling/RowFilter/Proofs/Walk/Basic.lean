import RowFilter.Grammar.Lexeme

/-! Reading character by character. A walk moves a cursor over the text and leaves it where
it stands in every outcome, also where it is refused or halted; only choice, option,
repetition and lookahead put it back. Every loop checks that its element took a character,
and stalls if it did not. The cursor remembers the deepest level that was entered. -/

namespace RowFilter.Grammar

/-- The text that is left, the nesting, and the deepest level so far. -/
structure Cursor where
  left : List Char
  nesting : Nesting
  deepest : Nat

namespace Cursor

/-- At the start of a text, at a level. -/
def entering (level : Nat) (past : Option (List Char)) (text : List Char) : Cursor :=
  ⟨text, ⟨level, past⟩, level⟩

/-- The same cursor, with the text given back. -/
def backTo (c start : Cursor) : Cursor := { c with left := start.left }

/-- One level deeper. -/
def enter (c : Cursor) : Cursor :=
  ⟨c.left, ⟨c.nesting.level + 1, c.nesting.past⟩, max c.deepest (c.nesting.level + 1)⟩

/-- One level up. -/
def leave (c : Cursor) : Cursor :=
  { c with nesting := ⟨c.nesting.level - 1, c.nesting.past⟩ }

/-- The limit of nesting is passed here. -/
def mark (c : Cursor) : Cursor :=
  { c with nesting := ⟨c.nesting.level, some (c.nesting.past.getD c.left)⟩ }

end Cursor

/-- Why a walk ends without a value. -/
inductive Stop where
  | refused
  | halted
  /-- An element of a loop took no character. -/
  | stalled
  deriving DecidableEq

/-- How a walk ends, and where. -/
inductive Trip (α : Type) where
  | read (value : α) (cursor : Cursor)
  | stopped (why : Stop) (cursor : Cursor)

namespace Trip

variable {α : Type}

def cursor : Trip α → Cursor
  | .read _ c => c
  | .stopped _ c => c

/-- The reply of a reader that says the same; a stalled trip has none. -/
def reply? : Trip α → Option (Reply α)
  | .read a c => some (.read a c.left c.nesting)
  | .stopped .refused c => some (.refused c.nesting)
  | .stopped .halted c => some (.halted c.nesting)
  | .stopped .stalled _ => none

/-- The same outcome one level up. -/
def leave : Trip α → Trip α
  | .read a c => .read a c.leave
  | .stopped why c => .stopped why c.leave

end Trip

def Walk (α : Type) : Type := Cursor → Trip α

def one? (accepts : Char → Bool) : List Char → Option (Char × List Char)
  | c :: cs => if accepts c then some (c, cs) else none
  | [] => none

def someWhile? (accepts : Char → Bool) (cs : List Char) : Option (List Char × List Char) :=
  if cs.takeWhile accepts = [] then none else some (cs.takeWhile accepts, cs.dropWhile accepts)

namespace Walk

variable {α β : Type}

instance : Monad Walk where
  pure a := fun c => .read a c
  bind p f := fun c => match p c with
    | .read a c => f a c
    | .stopped why c => .stopped why c

def refuse : Walk α := fun c => .stopped .refused c

def halt : Walk α := fun c => .stopped .halted c

/-- Reads at once, or is refused where it stands. -/
def ofOption (read : List Char → Option (α × List Char)) : Walk α := fun c =>
  match read c.left with
  | some (a, rest) => .read a { c with left := rest }
  | none => .stopped .refused c

/-- One character. -/
def one (accepts : Char → Bool) : Walk Char := .ofOption (one? accepts)

/-- The characters up to the first that is not accepted, perhaps none. -/
def span (accepts : Char → Bool) : Walk (List Char) := .ofOption fun cs =>
  some (cs.takeWhile accepts, cs.dropWhile accepts)

/-- The characters up to the first that is not accepted, one at least. -/
def spanSome (accepts : Char → Bool) : Walk (List Char) := .ofOption (someWhile? accepts)

def symbol (s : String) : Walk Unit := .ofOption fun cs =>
  (dropSymbol? s.toList cs).map fun rest => ((), rest)

/-- Where `p` is refused, `other` starts over. -/
def orElse (p other : Walk α) : Walk α := fun c => match p c with
  | .stopped .refused c' => other (c'.backTo c)
  | trip => trip

/-- The first alternative that is not refused. Where the last one is, the cursor stays. -/
def firstOf : List (Walk α) → Walk α
  | [] => refuse
  | [p] => p
  | p :: ps => p.orElse (firstOf ps)

def optional (p : Walk α) : Walk (Option α) := orElse (some <$> p) (pure none)

/-- A value that is not accepted is given back. -/
def verify (p : Walk α) (accepts : α → Bool) : Walk α := fun c => match p c with
  | .read a c' => if accepts a then .read a c' else .stopped .refused (c'.backTo c)
  | trip => trip

/-- Goes on where `p` is refused, and takes nothing. -/
def unlessNext (p : Walk α) : Walk Unit := fun c => match p c with
  | .read _ c' => .stopped .refused (c'.backTo c)
  | .stopped .refused c' => .read () (c'.backTo c)
  | .stopped why c' => .stopped why (c'.backTo c)

/-- Stalls where `p` reads a value and takes no character. -/
def consuming (p : Walk α) : Walk α := fun c => match p c with
  | .read a c' => if c'.left.length < c.left.length then .read a c' else .stopped .stalled c'
  | trip => trip

/-- As many values as can be read, however many they are. -/
def many (p : Walk α) (c : Cursor) : Trip (List α) :=
  match p c with
  | .read a c' =>
    if c'.left.length < c.left.length then
      match many p c' with
      | .read as c'' => .read (a :: as) c''
      | .stopped why c'' => .stopped why c''
    else .stopped .stalled c'
  | .stopped .refused c' => .read [] (c'.backTo c)
  | .stopped why c' => .stopped why c'
termination_by c.left.length

/-- One or more values with separators between them, each of which takes a character. -/
def separated (p : Walk α) (separator : Walk Unit) : Walk (List α) := do
  let first ← p
  let more ← many (do separator.consuming; p)
  pure (first :: more)

/-- One level deeper. At the limit nothing is entered. -/
def nested (p : Walk α) : Walk α := fun c =>
  if c.nesting.level < maxNesting then (p c.enter).leave else .stopped .halted c.mark

end Walk

end RowFilter.Grammar
