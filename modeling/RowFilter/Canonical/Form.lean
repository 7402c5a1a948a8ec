import RowFilter.Canonical.Rejection
import RowFilter.Query.Basic
import RowFilter.Tree.Render

/-! The canonical query of a generic tree. Chains fold to the right, comparisons keep
their sides, methods of a variable and the helpers `valid` and `missing` become
operations, and everything else is rejected. Parts are examined from left to right and
the first rejection stands. -/

namespace RowFilter

/-- What can be asked of a variable with a dot. -/
inductive Method where
  | hasAny
  | hasAll
  | hasCount
  | duplicates
  deriving DecidableEq

/-- What can be asked of variables by their names. -/
inductive Helper where
  | valid
  | missing
  deriving DecidableEq

def Method.ofName? : String → Option Method
  | "has_any" => some .hasAny
  | "has_all" => some .hasAll
  | "has_count" => some .hasCount
  | "duplicates" => some .duplicates
  | _ => none

def Helper.ofName? : String → Option Helper
  | "valid" => some .valid
  | "missing" => some .missing
  | _ => none

def Helper.operation : Helper → Operation
  | .valid => .isValid
  | .missing => .isMissing

def Connective.operation : Connective → Operation
  | .and => .and
  | .or => .or

/-- The operation of a relation and whether its answer is negated. Identity has none. -/
def Relation.operation? : Relation → Option (Operation × Bool)
  | .eq => some (.eq, false)
  | .ne => some (.ne, false)
  | .lt => some (.lt, false)
  | .le => some (.le, false)
  | .gt => some (.gt, false)
  | .ge => some (.ge, false)
  | .isIn => some (.isIn, false)
  | .notIn => some (.isIn, true)
  | .is | .isNot => none

namespace Tree

def int? : Tree → Option Int64
  | .literal (.int value) => some value
  | _ => none

def str? : Tree → Option String
  | .literal (.str text) => some text
  | _ => none

def isOutOfRange : Tree → Bool
  | .literal (.outOfRange _) => true
  | _ => false

/-- The value of the list or tuple `whole` with the given items: integers only or
strings only. A numeral out of range is named before the kinds are compared. -/
def listValue (whole : Tree) (items : List Tree) : Except Rejection Value :=
  match items.find? isOutOfRange with
  | some item => .error (.invalidOperand item.render)
  | none => match items.mapM int? with
    | some values => .ok (.ints values)
    | none => match items.mapM str? with
      | some texts => .ok (.strs texts)
      | none => .error (.mixedList whole.render)

/-- One side of a comparison. -/
def operandQuery (t : Tree) : Except Rejection Query :=
  match t with
  | .ident name => .ok (.named name)
  | .literal (.int value) => .ok (.value (.int value))
  | .literal (.float value) => .ok (.value (.float value))
  | .literal (.str text) => .ok (.value (.str text))
  | .list items => (listValue t items).map .value
  | .tuple items => (listValue t items).map .value
  | _ => .error (.invalidOperand t.render)

/-- The query of the comparison `whole`, which has to have one step. -/
def comparisonQuery (whole left : Tree) (steps : List (Relation × Tree)) :
    Except Rejection Query :=
  match steps with
  | [(relation, right)] => match relation.operation? with
    | none => .error (.unsupported .identityComparison whole.render)
    | some (op, negated) => do
      let left ← left.operandQuery
      let right ← right.operandQuery
      let query := Query.call op [left, right]
      pure (if negated then .call .not [query] else query)
  | _ => .error (.unsupported .chainedComparison whole.render)

/-- The arguments of `function`, all of which have to be plain ones. -/
def positional (function : String) (args : List (Passing × Tree)) :
    Except Rejection (List Tree) :=
  args.mapM fun arg => match arg with
    | (.positional, value) => .ok value
    | _ => .error (.notPositional function)

def items? : Tree → Option (List Tree)
  | .list items => some items
  | .tuple items => some items
  | _ => none

/-- A test of the values of one variable against a list. -/
def listMethodQuery (op : Operation) (name : String) (target : Query) (args : List Tree) :
    Except Rejection Query :=
  match args with
  | [arg] => match arg.items? with
    | some items => do
      let values ← listValue arg items
      pure (.call op [target, .value values])
    | none => .error (.wrongArgument name .uniformList arg.render)
  | _ => .error (.wrongCount name .oneList args.length)

/-- The query of the method called `name` on a variable. -/
def methodQuery (variableName name : String) (args : List (Passing × Tree)) :
    Except Rejection Query :=
  match Method.ofName? name with
  | none => .error (.unknownMethod name)
  | some method => do
    let args ← positional name args
    let target := Query.named variableName
    match method with
    | .hasAny => listMethodQuery .any name target args
    | .hasAll => listMethodQuery .all name target args
    | .hasCount => match args with
      | [arg] => match arg.int? with
        | some count => pure (.call .hasCount [target, .value (.int count)])
        | none => .error (.wrongArgument name .integer arg.render)
      | _ => .error (.wrongCount name .oneInteger args.length)
    | .duplicates => match args with
      | [] => pure (.call .duplicates [target])
      | _ => .error (.wrongCount name .nothing args.length)

/-- The query of the helper called `name`: its test of every variable, conjoined. -/
def helperQuery (name : String) (args : List (Passing × Tree)) : Except Rejection Query :=
  match Helper.ofName? name with
  | none => .error (.unknownHelper name)
  | some helper => do
    let args ← positional name args
    let checks ← args.mapM fun arg => match arg with
      | .ident variableName => .ok (Query.call helper.operation [.named variableName])
      | _ => .error (.wrongArgument name .variableNames arg.render)
    match Query.foldRight .and checks with
    | some query => pure query
    | none => .error (.wrongCount name .someVariables 0)

def callQuery (whole callee : Tree) (args : List (Passing × Tree)) : Except Rejection Query :=
  match callee with
  | .attr (.ident variableName) name => methodQuery variableName name args
  | .ident name => helperQuery name args
  | _ => .error (.invalidCallee whole.render)

mutual

/-- The query that a tree stands for as a condition. -/
def canonical : Tree → Except Rejection Query
  | .chain connective operands => do
    let queries ← canonicalAll operands
    match Query.foldRight connective.operation queries with
    | some query => pure query
    | none => .error (.unsupported .emptyChain (Tree.chain connective operands).render)
  | .not operand => do
    let query ← operand.canonical
    pure (.call .not [query])
  | .compare left steps => comparisonQuery (.compare left steps) left steps
  | .call callee args => callQuery (.call callee args) callee args
  | .ident name => .error (.notCondition (Tree.ident name).render)
  | .literal value => .error (.notCondition (Tree.literal value).render)
  | .list items => .error (.notCondition (Tree.list items).render)
  | .tuple items => .error (.notCondition (Tree.tuple items).render)
  | .attr base name => .error (.notCondition (Tree.attr base name).render)
termination_by structural t => t

def canonicalAll : List Tree → Except Rejection (List Query)
  | [] => pure []
  | t :: ts => do
    let query ← t.canonical
    let queries ← canonicalAll ts
    pure (query :: queries)
termination_by structural ts => ts

end

end Tree

end RowFilter
