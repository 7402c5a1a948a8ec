import RowFilter.Binary64.Basic

/-! Queries: the canonical tree that the data service evaluates. A leaf is a variable
by name, a variable by address, or a value; every other node is a call. -/

namespace RowFilter

/-- What a call applies. The last two test a whole array at once. -/
inductive Operation where
  | and
  | or
  | not
  | eq
  | ne
  | lt
  | le
  | gt
  | ge
  | isIn
  | any
  | all
  | hasCount
  | duplicates
  | isValid
  | isMissing
  | allValid
  | allMissing
  deriving DecidableEq

namespace Operation

/-- The name under which the service knows the operation. -/
def name : Operation → String
  | .and => "and"
  | .or => "or"
  | .not => "not"
  | .eq => "=="
  | .ne => "!="
  | .lt => "<"
  | .le => "<="
  | .gt => ">"
  | .ge => ">="
  | .isIn => "in"
  | .any => "any"
  | .all => "all"
  | .hasCount => "has_count"
  | .duplicates => "duplicates"
  | .isValid => "is_valid"
  | .isMissing => "is_missing"
  | .allValid => "all_valid"
  | .allMissing => "all_missing"

def every : List Operation :=
  [.and, .or, .not, .eq, .ne, .lt, .le, .gt, .ge, .isIn, .any, .all, .hasCount, .duplicates,
    .isValid, .isMissing, .allValid, .allMissing]

def ofName? (name : String) : Option Operation := every.find? fun op => op.name == name

theorem ofName?_name (op : Operation) : ofName? op.name = some op := by
  cases op <;> decide +kernel

end Operation

/-- A value in a query. Lists are of one kind; a list without items is one of integers
when it comes from an expression. -/
inductive Value where
  | int (value : Int64)
  | float (value : Binary64)
  | str (text : String)
  | ints (items : List Int64)
  | strs (items : List String)
  deriving DecidableEq

namespace Value

def length? : Value → Option Nat
  | .ints items => some items.length
  | .strs items => some items.length
  | _ => none

def isList (v : Value) : Bool := v.length?.isSome

/-- The element of a list that has exactly one. -/
def single? : Value → Option Value
  | .ints [item] => some (.int item)
  | .strs [item] => some (.str item)
  | _ => none

/-- Equality with floats compared as numbers. -/
def same : Value → Value → Bool
  | .float a, .float b => a.sameNumber b
  | .float _, _ => false
  | a, b => a == b

theorem isList_of_single? {v w : Value} (h : v.single? = some w) : v.isList = true := by
  cases v <;> simp_all [single?, isList, length?]

end Value

inductive Query where
  | named (name : String)
  | address (address : String)
  | value (value : Value)
  | call (operation : Operation) (args : List Query)

namespace Query

/-- `a`, `b`, `c` become `op(a, op(b, c))`. One operand stays as it is. -/
def foldRight (op : Operation) : List Query → Option Query
  | [] => none
  | q :: qs => match foldRight op qs with
    | none => some q
    | some rest => some (.call op [q, rest])

mutual

/-- The names in it, depth first from left to right, repetitions kept. -/
def names : Query → List String
  | .named name => [name]
  | .address _ => []
  | .value _ => []
  | .call _ args => namesAll args
termination_by structural q => q

def namesAll : List Query → List String
  | [] => []
  | q :: qs => q.names ++ namesAll qs
termination_by structural qs => qs

end

mutual

/-- Whether a name remains. -/
def hasName : Query → Bool
  | .named _ => true
  | .address _ => false
  | .value _ => false
  | .call _ args => hasNameAny args
termination_by structural q => q

def hasNameAny : List Query → Bool
  | [] => false
  | q :: qs => q.hasName || hasNameAny qs
termination_by structural qs => qs

end

mutual

/-- Equality with floats compared as numbers. -/
def same : Query → Query → Bool
  | .named a, .named b => a == b
  | .address a, .address b => a == b
  | .value a, .value b => a.same b
  | .call f as, .call g bs => f == g && sameAll as bs
  | _, _ => false
termination_by structural q => q

def sameAll : List Query → List Query → Bool
  | [], [] => true
  | a :: as, b :: bs => a.same b && sameAll as bs
  | _, _ => false
termination_by structural qs => qs

end

theorem namesAll_eq_flatMap (qs : List Query) : namesAll qs = qs.flatMap names := by
  induction qs with
  | nil => rfl
  | cons q qs ih => simp [namesAll, ih]

theorem namesAll_singleton (q : Query) : namesAll [q] = q.names := List.append_nil _

theorem foldRight_eq_none_iff {op : Operation} {qs : List Query} :
    foldRight op qs = none ↔ qs = [] := by
  cases qs with
  | nil => simp [foldRight]
  | cons q qs => simp only [foldRight]; split <;> simp

end Query

end RowFilter
