import RowFilter.Canonical.Form
import RowFilter.Resolution.Resolve

/-! Truth of conditions under an assignment of truth values to atomic calls. A resolved
query has the truth value that the connectives in it compute from its atoms. A tree has
the truth value that the language describes, read with a look-up and without any query
in between: a test of a whole array is about its sub-elements or about the array as such.
What has no meaning has no truth value. -/

namespace RowFilter

/-- What an atomic call is about. -/
inductive Constant where
  | address (text : String)
  | value (value : Value)

/-- A truth value for every atomic call. -/
abbrev Assignment := Operation → List Constant → Bool

namespace Query

def constant? : Query → Option Constant
  | .address text => some (.address text)
  | .value v => some (.value v)
  | _ => none

mutual

/-- `and`, `or` and `not` are the connectives; every other call on constants is an atom. -/
def truth (v : Assignment) : Query → Option Bool
  | .call .and args => (truthAll v args).map fun bs => bs.all id
  | .call .or args => (truthAll v args).map fun bs => bs.any id
  | .call .not args => match truthAll v args with
    | some [b] => some !b
    | _ => none
  | .call op args => (args.mapM constant?).map (v op)
  | _ => none
termination_by structural q => q

def truthAll (v : Assignment) : List Query → Option (List Bool)
  | [] => some []
  | q :: qs => match truth v q, truthAll v qs with
    | some b, some bs => some (b :: bs)
    | _, _ => none
termination_by structural qs => qs

end

end Query

namespace Tree

section

variable (lookup : Lookup) (v : Assignment)

/-- The value that a list or tuple of integers, or of strings, stands for. -/
def listOf? : Tree → Option Value
  | .list items | .tuple items =>
    ((items.mapM int?).map .ints).or ((items.mapM str?).map .strs)
  | _ => none

/-- A side of a comparison: an identifier stands for its address. -/
def side? : Tree → Option Constant
  | .ident name => match lookup name with
    | .ok m => some (.address m.address)
    | .error _ => none
  | .literal (.int n) => some (.value (.int n))
  | .literal (.float x) => some (.value (.float x))
  | .literal (.str s) => some (.value (.str s))
  | t => t.listOf?.map .value

def comparisonTruth (left right : Constant) : Relation → Option Bool
  | .eq => some (v .eq [left, right])
  | .ne => some (v .ne [left, right])
  | .lt => some (v .lt [left, right])
  | .le => some (v .le [left, right])
  | .gt => some (v .gt [left, right])
  | .ge => some (v .ge [left, right])
  | .isIn => some (v .isIn [left, right])
  | .notIn => some !v .isIn [left, right]
  | .is | .isNot => none

/-- Some sub-element of an array is in the list; of anything else it is an atom. -/
def anyTruth (m : Metadata) (values : Value) : Bool :=
  match m.kind with
  | .array subs => subs.any fun sub => v .isIn [.address sub.address, .value values]
  | _ => v .any [.address m.address, .value values]

/-- Every sub-element of an array equals the one value; of anything else it is an atom. -/
def allTruth (m : Metadata) (values : Value) : Option Bool :=
  match m.kind with
  | .array subs => values.single?.map fun value =>
    subs.all fun sub => v .eq [.address sub.address, .value value]
  | _ => some (v .all [.address m.address, .value values])

def methodTruth (m : Metadata) : String → List (Passing × Tree) → Option Bool
  | "has_any", [(.positional, t)] => t.listOf?.map (anyTruth v m)
  | "has_all", [(.positional, t)] => t.listOf?.bind (allTruth v m)
  | "has_count", [(.positional, .literal (.int n))] =>
    some (v .hasCount [.address m.address, .value (.int n)])
  | "duplicates", [] => some (v .duplicates [.address m.address])
  | _, _ => none

theorem methodTruth_hasAny (m : Metadata) (t : Tree) :
    methodTruth v m "has_any" [(.positional, t)] = t.listOf?.map (anyTruth v m) := rfl

theorem methodTruth_hasAll (m : Metadata) (t : Tree) :
    methodTruth v m "has_all" [(.positional, t)] = t.listOf?.bind (allTruth v m) := rfl

theorem methodTruth_hasCount (m : Metadata) (n : Int64) :
    methodTruth v m "has_count" [(.positional, .literal (.int n))] =
      some (v .hasCount [.address m.address, .value (.int n)]) := rfl

theorem methodTruth_duplicates (m : Metadata) :
    methodTruth v m "duplicates" [] = some (v .duplicates [.address m.address]) := rfl

/-- A test of every variable: `whole` of an array, `single` of anything else. -/
def everyTruth (single whole : Operation) : List (Passing × Tree) → Option Bool
  | [] => some true
  | (.positional, .ident name) :: args =>
    match lookup name, everyTruth single whole args with
    | .ok m, some rest =>
      some (v (if m.isArray then whole else single) [.address m.address] && rest)
    | _, _ => none
  | _ => none

def callTruth : Tree → List (Passing × Tree) → Option Bool
  | .attr (.ident name) method, args => match lookup name with
    | .ok m => methodTruth v m method args
    | .error _ => none
  | .ident "valid", args => everyTruth lookup v .isValid .allValid args
  | .ident "missing", args => everyTruth lookup v .isMissing .allMissing args
  | _, _ => none

theorem callTruth_method {name method : String} {m : Metadata} (h : lookup name = .ok m)
    (args : List (Passing × Tree)) :
    callTruth lookup v (.attr (.ident name) method) args = methodTruth v m method args := by
  rw [callTruth, h]

mutual

def truth : Tree → Option Bool
  | .chain .and operands => (truthAll operands).map fun bs => bs.all id
  | .chain .or operands => (truthAll operands).map fun bs => bs.any id
  | .not operand => (truth operand).map fun b => !b
  | .compare left [(relation, right)] => match left.side? lookup, right.side? lookup with
    | some l, some r => comparisonTruth v l r relation
    | _, _ => none
  | .call callee args => callTruth lookup v callee args
  | _ => none
termination_by structural t => t

def truthAll : List Tree → Option (List Bool)
  | [] => some []
  | t :: ts => match truth t, truthAll ts with
    | some b, some bs => some (b :: bs)
    | _, _ => none
termination_by structural ts => ts

end

end

end Tree

end RowFilter
