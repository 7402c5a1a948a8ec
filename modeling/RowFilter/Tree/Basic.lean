import RowFilter.Binary64.Basic

/-! The generic tree of an expression: everything the grammar can say, before it is
known which of it is a filter. -/

namespace RowFilter

inductive Literal where
  | int (value : Int64)
  | float (value : Binary64)
  | str (text : String)
  | bool (value : Bool)
  | none
  /-- A numeral without a 64-bit or finite double value, kept as written. -/
  | outOfRange (text : String)
  deriving DecidableEq

inductive Connective where
  | and
  | or
  deriving DecidableEq

inductive Relation where
  | eq
  | ne
  | lt
  | le
  | gt
  | ge
  | isIn
  | notIn
  | is
  | isNot
  deriving DecidableEq

/-- How an argument of a call is passed. -/
inductive Passing where
  | positional
  | keyword (name : String)
  | starred
  | doubleStarred
  deriving DecidableEq

/-- A chain keeps its operands flat. A comparison with more than one step is a chained
one, such as `1 < x < 5`. -/
inductive Tree where
  | chain (connective : Connective) (operands : List Tree)
  | not (operand : Tree)
  | compare (left : Tree) (steps : List (Relation × Tree))
  | ident (name : String)
  | literal (value : Literal)
  | list (items : List Tree)
  | tuple (items : List Tree)
  | attr (base : Tree) (name : String)
  | call (callee : Tree) (args : List (Passing × Tree))

namespace Literal

/-- Floats are compared as numbers, all else by spelling. -/
def same : Literal → Literal → Bool
  | .float a, .float b => a.sameNumber b
  | .float _, _ => false
  | a, b => a == b

end Literal

namespace Tree

mutual

/-- Equality of trees, with the floats in them compared as numbers. -/
def same : Tree → Tree → Bool
  | .chain c as, .chain d bs => c == d && sameAll as bs
  | .not a, .not b => a.same b
  | .compare a as, .compare b bs => a.same b && sameSteps as bs
  | .ident a, .ident b => a == b
  | .literal a, .literal b => a.same b
  | .list as, .list bs => sameAll as bs
  | .tuple as, .tuple bs => sameAll as bs
  | .attr a m, .attr b n => a.same b && m == n
  | .call a as, .call b bs => a.same b && sameArgs as bs
  | _, _ => false
termination_by structural t => t

def sameAll : List Tree → List Tree → Bool
  | [], [] => true
  | a :: as, b :: bs => a.same b && sameAll as bs
  | _, _ => false
termination_by structural ts => ts

def sameSteps : List (Relation × Tree) → List (Relation × Tree) → Bool
  | [], [] => true
  | (r, a) :: as, (s, b) :: bs => r == s && a.same b && sameSteps as bs
  | _, _ => false
termination_by structural ts => ts

def sameArgs : List (Passing × Tree) → List (Passing × Tree) → Bool
  | [], [] => true
  | (p, a) :: as, (q, b) :: bs => p == q && a.same b && sameArgs as bs
  | _, _ => false
termination_by structural ts => ts

end

end Tree

end RowFilter
