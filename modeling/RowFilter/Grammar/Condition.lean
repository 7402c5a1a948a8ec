import RowFilter.Grammar.Lexeme

/-! The grammar of conditions, loosest binding first: `or` chains of `and` chains of
`not`s of comparisons of postfix expressions over primaries. What stands one level
deeper, an item in brackets or an argument and the operand of `not`, is a parameter
`inner` of the rules; `inner` at a depth then ties the knot by recursion on the number
of levels left. -/

namespace RowFilter.Grammar

/-- The readers of sub-expressions one level deeper. -/
structure Inner where
  item : Reader Tree
  negand : Reader Tree

/-- An attribute or a call behind an expression. -/
inductive Trailer where
  | attr (name : String)
  | call (args : List (Passing × Tree))

def Trailer.apply (base : Tree) : Trailer → Tree
  | .attr name => .attr base name
  | .call args => .call base args

def comma : Reader Unit := do gap; symbol ","; gap

/-- A comma behind the last item. -/
def lastComma : Reader Unit := do gap; symbol ","

/-- One item without a comma behind it is only grouped; all else is a tuple. -/
def parenthesis (items : List Tree) (comma : Bool) : Tree :=
  match items, comma with
  | [item], false => item
  | items, _ => .tuple items

/-- The operands of a chain; one operand is no chain. -/
def chainOf (connective : Connective) (first : Tree) (more : List Tree) : Tree :=
  if more.isEmpty then first else .chain connective (first :: more)

/-- Comparison signs in the order in which they are tried: the longer ones first. -/
def relation : Reader Relation := .firstOf [
  do symbol "=="; pure .eq,
  do symbol "!="; pure .ne,
  do symbol "<="; pure .le,
  do symbol ">="; pure .ge,
  do symbol "<"; pure .lt,
  do symbol ">"; pure .gt,
  do word "not"; gap; word "in"; pure .notIn,
  do word "in"; pure .isIn,
  do word "is"; gap; word "not"; pure .isNot,
  do word "is"; pure .is]

/-- The sign between the name and the value of an argument; `==` is none. -/
def assign : Reader Unit := .ofOption fun cs =>
  match cs with
  | '=' :: '=' :: _ => none
  | '=' :: rest => some ((), rest)
  | _ => none

def literal : Reader Literal := .firstOf [
  do word "True"; pure (.bool true),
  do word "False"; pure (.bool false),
  do word "None"; pure .none,
  literalOf <$> .ofOption numeral?,
  .str <$> .ofOption quotedText?]

section

variable (inner : Inner)

def parentheses : Reader Tree := do
  symbol "("; gap
  let items ← Reader.optional (.separated inner.item comma)
  let last ← Reader.optional lastComma
  gap; symbol ")"
  pure (parenthesis (items.getD []) last.isSome)

def brackets : Reader Tree := do
  symbol "["; gap
  let items ← Reader.optional (do
    let items ← Reader.separated inner.item comma
    let _ ← Reader.optional lastComma
    pure items)
  gap; symbol "]"
  pure (.list (items.getD []))

def primary : Reader Tree := do
  gap
  .firstOf [
    parentheses inner,
    brackets inner,
    .literal <$> literal,
    .ident <$> name]

def argument : Reader (Passing × Tree) := .firstOf [
  do symbol "**"; gap; let value ← inner.item; pure (.doubleStarred, value),
  do symbol "*"; gap; let value ← inner.item; pure (.starred, value),
  do let key ← name; gap; assign; gap; let value ← inner.item; pure (.keyword key, value),
  do let value ← inner.item; pure (.positional, value)]

def arguments : Reader (List (Passing × Tree)) := do
  let args ← Reader.separated (argument inner) comma
  let _ ← Reader.optional lastComma
  pure args

def trailer : Reader Trailer := do
  gap
  .firstOf [
    do symbol "."; gap; let name ← name; pure (.attr name),
    do
      symbol "("; gap
      let args ← Reader.optional (arguments inner)
      gap; symbol ")"
      pure (.call (args.getD []))]

/-- A primary and the attributes and calls behind it, applied from left to right. -/
def operand : Reader Tree := do
  let base ← primary inner
  let trailers ← Reader.many (trailer inner)
  pure (trailers.foldl Trailer.apply base)

def comparison : Reader Tree := do
  let left ← operand inner
  let steps ← Reader.many (do
    gap
    let relation ← relation
    let right ← operand inner
    pure (relation, right))
  pure (if steps.isEmpty then left else .compare left steps)

def negation : Reader Tree := .firstOf [
  do gap; word "not"; let operand ← inner.negand; pure (.not operand),
  comparison inner]

def conjunction : Reader Tree := do
  let first ← negation inner
  let more ← Reader.many (do gap; word "and"; negation inner)
  pure (chainOf .and first more)

def disjunction : Reader Tree := do
  let first ← conjunction inner
  let more ← Reader.many (do gap; word "or"; conjunction inner)
  pure (chainOf .or first more)

end

/-- The sub-expressions where `depth` levels are left. With no level left nothing is
read. -/
def inner (guard : Guard) : Nat → Inner
  | 0 => ⟨nested guard .halt, nested guard .halt⟩
  | depth + 1 =>
    ⟨nested guard (disjunction (inner guard depth)), nested guard (negation (inner guard depth))⟩

/-- A whole condition. Under an observed limit `depth` has to exceed the number of
levels that the text can open. -/
def condition (guard : Guard) (depth : Nat) : Reader Tree := (inner guard depth).item

end RowFilter.Grammar
