/-! Readers with ordered choice. A reader either reads a value and leaves a rest,
is refused, which lets a choice try its next alternative, or is halted, which no
choice recovers from. The nesting level and the place where the limit was first
passed travel along in every outcome; a refused alternative gives its text back but
not its nesting. -/

namespace RowFilter.Grammar

/-- The current level, and the rest of the text where the limit was first passed. -/
structure Nesting where
  level : Nat
  past : Option (List Char)
  deriving DecidableEq

/-- No sub-expression is entered at this level. -/
def maxNesting : Nat := 64

inductive Reply (α : Type) where
  | read (value : α) (rest : List Char) (nesting : Nesting)
  | refused (nesting : Nesting)
  | halted (nesting : Nesting)

def Reader (α : Type) : Type := Nesting → List Char → Reply α

namespace Reply

def nesting {α : Type} : Reply α → Nesting
  | .read _ _ n => n
  | .refused n => n
  | .halted n => n

/-- The same outcome one level up. -/
def leave {α : Type} : Reply α → Reply α
  | .read a rest n => .read a rest ⟨n.level - 1, n.past⟩
  | .refused n => .refused ⟨n.level - 1, n.past⟩
  | .halted n => .halted ⟨n.level - 1, n.past⟩

end Reply

namespace Reader

variable {α β : Type}

instance : Monad Reader where
  pure a := fun n cs => .read a cs n
  bind p f := fun n cs => match p n cs with
    | .read a rest n => f a n rest
    | .refused n => .refused n
    | .halted n => .halted n

def refuse : Reader α := fun n _ => .refused n

def halt : Reader α := fun n _ => .halted n

/-- Reads without regard to the nesting. -/
def ofOption (read : List Char → Option (α × List Char)) : Reader α := fun n cs =>
  match read cs with
  | some (a, rest) => .read a rest n
  | none => .refused n

/-- The first alternative that is not refused. -/
def firstOf : List (Reader α) → Reader α
  | [] => refuse
  | p :: ps => fun n cs => match p n cs with
    | .read a rest n => .read a rest n
    | .refused n => firstOf ps n cs
    | .halted n => .halted n

def optional (p : Reader α) : Reader (Option α) := fun n cs =>
  match p n cs with
  | .read a rest n => .read (some a) rest n
  | .refused n => .read none cs n
  | .halted n => .halted n

/-- Up to `count` values, as many as can be read. -/
def atMost : Nat → Reader α → Reader (List α)
  | 0, _ => pure []
  | count + 1, p => fun n cs => match p n cs with
    | .read a rest n => match atMost count p n rest with
      | .read as rest n => .read (a :: as) rest n
      | .refused n => .refused n
      | .halted n => .halted n
    | .refused n => .read [] cs n
    | .halted n => .halted n

/-- As many values as can be read. Each takes at least one character, so the length
of the text bounds their number. -/
def many (p : Reader α) : Reader (List α) := fun n cs => atMost (cs.length + 1) p n cs

/-- One or more values with separators between them. A separator without a value
behind it stays unread. -/
def separated (p : Reader α) (separator : Reader Unit) : Reader (List α) := do
  let first ← p
  let more ← many (do separator; p)
  pure (first :: more)

end Reader

/-- Whether the limit of nesting is enforced or only observed. -/
inductive Guard where
  | enforced
  | observed
  deriving DecidableEq

/-- Runs a reader one level deeper. Where the limit is passed, the place is kept
unless an earlier one is known, and an enforced limit halts. -/
def nested {α : Type} (guard : Guard) (p : Reader α) : Reader α := fun n cs =>
  if n.level < maxNesting then (p ⟨n.level + 1, n.past⟩ cs).leave
  else
    let past := some (n.past.getD cs)
    match guard with
    | .enforced => .halted ⟨n.level, past⟩
    | .observed => (p ⟨n.level + 1, past⟩ cs).leave

end RowFilter.Grammar
