import RowFilter.Grammar.Condition
import RowFilter.Proofs.Walk.Basic

/-! The rules of the grammar as walks, down to the single character. The limit of nesting
alone ends their recursion: `limited` needs to be told no number of levels. -/

namespace RowFilter.Grammar.Walk

def gap : Walk Unit := do let _ ← span isGap; pure ()

/-- The longest word, reserved or not. -/
def letters : Walk (List Char) := do
  let first ← one isWordStart
  let more ← span isWordChar
  pure (first :: more)

/-- The whole word `w`. -/
def word (w : String) : Walk Unit := do
  let _ ← letters.verify fun found => String.ofList found = w
  pure ()

def name : Walk String :=
  String.ofList <$> letters.verify fun w => !reserved.contains (String.ofList w)

def comma : Walk Unit := do gap; symbol ","; gap

/-- A comma behind the last item. -/
def lastComma : Walk Unit := do gap; symbol ","

def relation : Walk Relation := .firstOf [
  do symbol "=="; pure .eq,
  do symbol "!="; pure .ne,
  do symbol "<="; pure .le,
  do symbol ">="; pure .ge,
  do symbol "<"; pure .lt,
  do symbol ">"; pure .gt,
  do word "not"; gap; word "in"; pure .notIn,
  do word "in"; pure .isIn,
  do word "is"; gap; word "not"; pure .isNot,
  do word "is"; pure .is]

def assign : Walk Unit := do symbol "="; unlessNext (symbol "=")

def digits : Walk (List Char) := spanSome Char.isDigit

def exponent : Walk ExponentPart := do
  let letter ← one fun c => c == 'e' || c == 'E'
  let sign ← optional (one fun c => c == '+' || c == '-')
  let digits ← digits
  pure ⟨letter == 'E', sign.map fun c => if c == '-' then .minus else .plus, digits⟩

/-- A numeral without a sign, with digits before its point or behind it. -/
def unsigned : Walk Numeral := .firstOf [
  do
    let whole ← digits
    let fraction ← optional (do symbol "."; optional digits)
    let exponent ← optional exponent
    pure ⟨false, whole, fraction.map (·.getD []), exponent⟩,
  do
    symbol "."
    let fraction ← digits
    let exponent ← optional exponent
    pure ⟨false, [], some fraction, exponent⟩]

def number : Walk Literal := do
  let sign ← optional (do symbol "-"; gap)
  let n ← unsigned
  pure (literalOf { n with negative := sign.isSome })

/-- A character that stands for itself between quotes. -/
def isPlain (quote c : Char) : Bool := c != quote && c != '\\'

/-- Plain characters, or one behind a backslash. -/
def piece (quote : Char) : Walk (List Char) := .firstOf [
  spanSome (isPlain quote),
  do symbol "\\"; let c ← one fun _ => true; pure [unescape c]]

/-- All pieces up to the closing quote, or to the end. -/
def body (quote : Char) : Walk (List Char) := List.flatten <$> many (piece quote)

def quoted (quote : Char) : Walk Literal := do
  let _ ← one (· == quote)
  let body ← body quote
  let _ ← one (· == quote)
  pure (.str (String.ofList body))

def quotedText : Walk Literal := .firstOf [quoted '"', quoted '\'']

def literal : Walk Literal := .firstOf [
  do word "True"; pure (.bool true),
  do word "False"; pure (.bool false),
  do word "None"; pure .none,
  number,
  quotedText]

/-- The walks over sub-expressions one level deeper. -/
structure Deeper where
  item : Walk Tree
  negand : Walk Tree

section

variable (deeper : Deeper)

def parentheses : Walk Tree := do
  symbol "("; gap
  let items ← optional (separated deeper.item comma)
  let last ← optional lastComma
  gap; symbol ")"
  pure (parenthesis (items.getD []) last.isSome)

def brackets : Walk Tree := do
  symbol "["; gap
  let items ← optional (do
    let items ← separated deeper.item comma
    let _ ← optional lastComma
    pure items)
  gap; symbol "]"
  pure (.list (items.getD []))

def primary : Walk Tree := do
  gap
  .firstOf [
    parentheses deeper,
    brackets deeper,
    .literal <$> literal,
    .ident <$> name]

def argument : Walk (Passing × Tree) := .firstOf [
  do symbol "**"; gap; let value ← deeper.item; pure (.doubleStarred, value),
  do symbol "*"; gap; let value ← deeper.item; pure (.starred, value),
  do let key ← name; gap; assign; gap; let value ← deeper.item; pure (.keyword key, value),
  do let value ← deeper.item; pure (.positional, value)]

def arguments : Walk (List (Passing × Tree)) := do
  let args ← separated (argument deeper) comma
  let _ ← optional lastComma
  pure args

def access : Walk Trailer := do symbol "."; gap; let name ← name; pure (.attr name)

def call : Walk Trailer := do
  symbol "("; gap
  let args ← optional (arguments deeper)
  gap; symbol ")"
  pure (.call (args.getD []))

def trailer : Walk Trailer := do gap; .firstOf [access, call deeper]

def operand : Walk Tree := do
  let base ← primary deeper
  let trailers ← many (trailer deeper)
  pure (trailers.foldl Trailer.apply base)

/-- A comparison sign and what stands behind it. -/
def step : Walk (Relation × Tree) := do
  gap
  let relation ← relation
  let right ← operand deeper
  pure (relation, right)

def comparison : Walk Tree := do
  let left ← operand deeper
  let steps ← many (step deeper)
  pure (if steps.isEmpty then left else .compare left steps)

def negation : Walk Tree := .firstOf [
  do gap; word "not"; let operand ← deeper.negand; pure (.not operand),
  comparison deeper]

/-- The next operand of a conjunction, behind `and`. -/
def andNext : Walk Tree := do gap; word "and"; negation deeper

def conjunction : Walk Tree := do
  let first ← negation deeper
  let more ← many (andNext deeper)
  pure (chainOf .and first more)

/-- The next operand of a disjunction, behind `or`. -/
def orNext : Walk Tree := do gap; word "or"; conjunction deeper

def disjunction : Walk Tree := do
  let first ← conjunction deeper
  let more ← many (orNext deeper)
  pure (chainOf .or first more)

end

/-- The walks over sub-expressions where `depth` levels are left. -/
def deeper : Nat → Deeper
  | 0 => ⟨nested halt, nested halt⟩
  | depth + 1 =>
    ⟨nested (disjunction (deeper depth)), nested (negation (deeper depth))⟩

/-- From any level on: as many levels are left as there are below the limit. -/
def upToLimit {α : Type} (p : Nat → Walk α) : Walk α := fun c =>
  p (maxNesting - c.nesting.level) c

/-- The walks over sub-expressions that are told no number of levels. -/
def limited : Deeper :=
  ⟨upToLimit fun depth => (deeper depth).item, upToLimit fun depth => (deeper depth).negand⟩

end RowFilter.Grammar.Walk
