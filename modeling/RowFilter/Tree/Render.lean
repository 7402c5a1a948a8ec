import RowFilter.Binary64.Shortest
import RowFilter.Tree.Basic

/-! One-line text of a tree. Operands of chains, comparisons and `not` that are
themselves chains, comparisons or `not` stand in parentheses, so that reading the
text gives the tree again. -/

namespace RowFilter

/-- A float always shows a point: whole ones their exact value, others the shortest
digits that read back, and never an exponent. -/
def Binary64.plainText : Binary64 → String
  | .nan => "NaN"
  | .infinite negative => if negative then "-inf" else "inf"
  | .finite negative rank =>
    let steps := Binary64.units rank
    let decimal : Decimal :=
      if steps % Binary64.stepsPerOne = 0 then ⟨steps / Binary64.stepsPerOne, 0⟩
      else Binary64.shortest .away rank
    (if negative then "-" else "") ++ decimal.positional

/-- How a character is written between double quotes. -/
def escaped (c : Char) : List Char :=
  match c with
  | '\\' => ['\\', '\\']
  | '"' => ['\\', '"']
  | '\n' => ['\\', 'n']
  | '\t' => ['\\', 't']
  | '\r' => ['\\', 'r']
  | '\x00' => ['\\', '0']
  | c => [c]

def quoted (s : String) : String :=
  String.ofList ('"' :: s.toList.flatMap escaped ++ ['"'])

def Literal.render : Literal → String
  | .int value => toString value.toInt
  | .float value => value.plainText
  | .str text => quoted text
  | .bool true => "True"
  | .bool false => "False"
  | .none => "None"
  | .outOfRange text => text

def Connective.word : Connective → String
  | .and => "and"
  | .or => "or"

def Relation.symbol : Relation → String
  | .eq => "=="
  | .ne => "!="
  | .lt => "<"
  | .le => "<="
  | .gt => ">"
  | .ge => ">="
  | .isIn => "in"
  | .notIn => "not in"
  | .is => "is"
  | .isNot => "is not"

/-- What stands before the value of an argument. -/
def Passing.mark : Passing → String
  | .positional => ""
  | .keyword name => name ++ "="
  | .starred => "*"
  | .doubleStarred => "**"

namespace Tree

/-- Binds looser than the operand of a comparison. -/
def isLoose : Tree → Bool
  | .chain _ _ | .not _ | .compare _ _ => true
  | _ => false

def parenthesized (text : String) : String := "(" ++ text ++ ")"

mutual

def render : Tree → String
  | .chain connective operands =>
    String.intercalate (" " ++ connective.word ++ " ") (operandTexts operands)
  | .not operand =>
    "not " ++ (if operand.isLoose then parenthesized operand.render else operand.render)
  | .compare left steps =>
    (if left.isLoose then parenthesized left.render else left.render) ++ stepsText steps
  | .ident name => name
  | .literal value => value.render
  | .list items => "[" ++ String.intercalate ", " (itemTexts items) ++ "]"
  | .tuple [item] => "(" ++ item.render ++ ",)"
  | .tuple items => "(" ++ String.intercalate ", " (itemTexts items) ++ ")"
  | .attr base name => base.render ++ "." ++ name
  | .call callee args => callee.render ++ "(" ++ String.intercalate ", " (argTexts args) ++ ")"
termination_by structural t => t

def operandTexts : List Tree → List String
  | [] => []
  | t :: ts => (if t.isLoose then parenthesized t.render else t.render) :: operandTexts ts
termination_by structural ts => ts

def itemTexts : List Tree → List String
  | [] => []
  | t :: ts => t.render :: itemTexts ts
termination_by structural ts => ts

def stepsText : List (Relation × Tree) → String
  | [] => ""
  | (relation, right) :: steps =>
    " " ++ relation.symbol ++ " " ++
      (if right.isLoose then parenthesized right.render else right.render) ++ stepsText steps
termination_by structural steps => steps

def argTexts : List (Passing × Tree) → List String
  | [] => []
  | (passing, value) :: args => (passing.mark ++ value.render) :: argTexts args
termination_by structural args => args

end

/-- The text of a tree where an operand is expected. -/
def operandText (t : Tree) : String :=
  if t.isLoose then parenthesized t.render else t.render

theorem operandTexts_eq_map (ts : List Tree) : operandTexts ts = ts.map operandText := by
  induction ts with
  | nil => rfl
  | cons t ts ih => simp [operandTexts, operandText, ih]

theorem itemTexts_eq_map (ts : List Tree) : itemTexts ts = ts.map render := by
  induction ts with
  | nil => rfl
  | cons t ts ih => simp [itemTexts, ih]

theorem argTexts_eq_map (args : List (Passing × Tree)) :
    argTexts args = args.map fun a => a.1.mark ++ a.2.render := by
  induction args with
  | nil => rfl
  | cons a args ih => simp [argTexts, ih]

end Tree

end RowFilter
