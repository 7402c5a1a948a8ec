import RowFilter.Proofs.Canonical.Rules
import RowFilter.Proofs.Tree.Subtrees

/-! The queries that filters stand for. A predicate is the shape that the examination of
trees gives its answers, and every predicate is the answer for some tree: `Query.tree` spells
one out, operation by operation. -/

namespace RowFilter

/-- How many arguments an operation takes in a filter. The tests of whole arrays come from
resolution only. -/
def Operation.arity? : Operation → Option Nat
  | .and | .or => some 2
  | .eq | .ne | .lt | .le | .gt | .ge | .isIn => some 2
  | .any | .all | .hasCount => some 2
  | .not | .duplicates | .isValid | .isMissing => some 1
  | .allValid | .allMissing => none

namespace Query

/-- A side of a comparison. A list without items is one of integers. -/
inductive IsOperand : Query → Prop
  | named (name : String) : IsOperand (.named name)
  | value {v : Value} : v ≠ .strs [] → IsOperand (.value v)

inductive IsPredicate : Query → Prop
  | and {p q : Query} : IsPredicate p → IsPredicate q → IsPredicate (.call .and [p, q])
  | or {p q : Query} : IsPredicate p → IsPredicate q → IsPredicate (.call .or [p, q])
  | not {p : Query} : IsPredicate p → IsPredicate (.call .not [p])
  | comparison {op : Operation} {left right : Query} :
    op ∈ [.eq, .ne, .lt, .le, .gt, .ge, .isIn] → IsOperand left → IsOperand right →
    IsPredicate (.call op [left, right])
  | listTest {op : Operation} (name : String) {v : Value} :
    op ∈ [.any, .all] → v.isList = true → v ≠ .strs [] →
    IsPredicate (.call op [.named name, .value v])
  | hasCount (name : String) (count : Int64) :
    IsPredicate (.call .hasCount [.named name, .value (.int count)])
  | variableTest {op : Operation} (name : String) :
    op ∈ [.duplicates, .isValid, .isMissing] → IsPredicate (.call op [.named name])

mutual

/-- The query and everything below it. -/
def parts : Query → List Query
  | .named name => [.named name]
  | .address text => [.address text]
  | .value v => [.value v]
  | .call op args => .call op args :: partsAll args
termination_by structural q => q

def partsAll : List Query → List Query
  | [] => []
  | q :: qs => q.parts ++ partsAll qs
termination_by structural qs => qs

end

/-- No address, and every call with the arguments that its operation takes. -/
def Symbolic (q : Query) : Prop :=
  ∀ p ∈ q.parts, (∀ text, p ≠ .address text) ∧
    ∀ op args, p = .call op args → op.arity? = some args.length

theorem mem_partsAll {p : Query} {qs : List Query} : p ∈ partsAll qs ↔ ∃ q ∈ qs, p ∈ q.parts := by
  induction qs with
  | nil => simp [partsAll]
  | cons q qs ih => simp [partsAll, ih]

theorem symbolic_of_leaf {q : Query} (hleaf : q.parts = [q]) (haddress : ∀ text, q ≠ .address text)
    (hcall : ∀ op args, q ≠ .call op args) : Symbolic q := by
  intro p hp
  rw [hleaf, List.mem_singleton] at hp
  subst hp
  exact ⟨haddress, fun op args h => absurd h (hcall op args)⟩

theorem symbolic_named (name : String) : Symbolic (.named name) := symbolic_of_leaf rfl nofun nofun

theorem symbolic_value (v : Value) : Symbolic (.value v) := symbolic_of_leaf rfl nofun nofun

theorem symbolic_call {op : Operation} {args : List Query}
    (harity : op.arity? = some args.length) (hargs : ∀ q ∈ args, Symbolic q) :
    Symbolic (.call op args) := by
  intro p hp
  rw [parts, List.mem_cons, mem_partsAll] at hp
  rcases hp with rfl | ⟨q, hq, hp⟩
  · refine ⟨nofun, fun op' args' h => ?_⟩
    cases h
    exact harity
  · exact hargs q hq p hp

theorem IsOperand.symbolic {q : Query} (h : IsOperand q) : Symbolic q := by
  cases h with
  | named name => exact symbolic_named name
  | value => exact symbolic_value _

theorem IsPredicate.symbolic {q : Query} (h : IsPredicate q) : Symbolic q := by
  have hcomparison : ∀ op ∈ [.eq, .ne, .lt, .le, .gt, .ge, .isIn],
      Operation.arity? op = some 2 := by decide
  have hlistTest : ∀ op ∈ [.any, .all], Operation.arity? op = some 2 := by decide
  have hvariableTest : ∀ op ∈ [.duplicates, .isValid, .isMissing],
      Operation.arity? op = some 1 := by decide
  induction h with
  | and _ _ ihp ihq => exact symbolic_call rfl (by simp [ihp, ihq])
  | or _ _ ihp ihq => exact symbolic_call rfl (by simp [ihp, ihq])
  | not _ ih => exact symbolic_call rfl (by simp [ih])
  | comparison hop hleft hright =>
    exact symbolic_call (hcomparison _ hop) (by simp [hleft.symbolic, hright.symbolic])
  | listTest name hop =>
    exact symbolic_call (hlistTest _ hop) (by simp [symbolic_named, symbolic_value])
  | hasCount name count => exact symbolic_call rfl (by simp [symbolic_named, symbolic_value])
  | variableTest name hop =>
    exact symbolic_call (hvariableTest _ hop) (by simp [symbolic_named])

end Query

namespace Rules

open Query

/-! ### Every answer is a predicate -/

theorem Uniform.shape {items : List Tree} {v : Value} (h : Uniform items v) :
    v.isList = true ∧ v ≠ .strs [] := by
  cases h with
  | ints values => exact ⟨rfl, nofun⟩
  | strs first more => exact ⟨rfl, nofun⟩

theorem Operand.isOperand {t : Tree} {q : Query} (h : Operand t q) : IsOperand q := by
  cases h with
  | ident name => exact .named name
  | int | float | str => exact .value nofun
  | display _ huniform => exact .value huniform.shape.2

theorem Relates.isPredicate {left right q : Query} {relation : Relation}
    (hleft : IsOperand left) (hright : IsOperand right) (h : Relates left right relation q) :
    IsPredicate q := by
  cases h with
  | notIn => exact .not (.comparison (by simp) hleft hright)
  | _ => exact .comparison (by simp) hleft hright

/-- Joining predicates gives one. -/
theorem Folds.isPredicate {op : Operation} {qs : List Query} {q : Query} (h : Folds op qs q)
    (hop : op = .and ∨ op = .or) (hqs : ∀ q ∈ qs, IsPredicate q) : IsPredicate q := by
  refine h.of_parts (fun a b ha hb => ?_) hqs
  rcases hop with rfl | rfl
  · exact .and ha hb
  · exact .or ha hb

theorem Asks.isPredicate {callee : Tree} {args : List (Passing × Tree)} {q : Query}
    (h : Asks callee args q) : IsPredicate q := by
  have htests {op : Operation} (hop : op ∈ [.duplicates, .isValid, .isMissing])
      (names : List String) :
      ∀ q ∈ names.map fun name => Query.call op [.named name], IsPredicate q :=
    List.forall_mem_map.2 fun name _ => .variableTest name hop
  cases h with
  | hasAny name _ huniform =>
    exact .listTest name (by simp) huniform.shape.1 huniform.shape.2
  | hasAll name _ huniform =>
    exact .listTest name (by simp) huniform.shape.1 huniform.shape.2
  | hasCount name count => exact .hasCount name count
  | duplicates name => exact .variableTest name (by simp)
  | valid hfolds => exact hfolds.isPredicate (.inl rfl) (htests (by simp) _)
  | missing hfolds => exact hfolds.isPredicate (.inl rfl) (htests (by simp) _)

theorem Canonical.isPredicate {t : Tree} {q : Query} (h : Canonical t q) : IsPredicate q := by
  induction t using Tree.induct generalizing q with
  | node t ih =>
    cases h with
    | all hall hfolds | any hall hfolds =>
      refine hfolds.isPredicate (by simp) fun p hp => ?_
      obtain ⟨u, hu, hcanonical⟩ := hall.exists_operand p hp
      exact ih u hu hcanonical
    | @not operand _ hoperand => exact .not (ih operand (List.mem_singleton_self operand) hoperand)
    | compare hleft hright hrel => exact hrel.isPredicate hleft.isOperand hright.isOperand
    | call hasks => exact hasks.isPredicate

end Rules

/-! ### Every predicate is an answer -/

def Value.tree : Value → Tree
  | .int value => .literal (.int value)
  | .float value => .literal (.float value)
  | .str text => .literal (.str text)
  | .ints items => .list (items.map fun value => .literal (.int value))
  | .strs items => .list (items.map fun text => .literal (.str text))

/-- A call of `callee` with plain arguments. -/
def Tree.plainCall (callee : Tree) (args : List Tree) : Tree :=
  .call callee (args.map fun arg => (.positional, arg))

/-- An expression that applies the operation. An operation without a form of its own, or
with a number of arguments that no form has, is written as a helper. -/
def Operation.tree : Operation → List Tree → Tree
  | .and, operands => .chain .and operands
  | .or, operands => .chain .or operands
  | .not, [operand] => .not operand
  | .eq, [left, right] => .compare left [(.eq, right)]
  | .ne, [left, right] => .compare left [(.ne, right)]
  | .lt, [left, right] => .compare left [(.lt, right)]
  | .le, [left, right] => .compare left [(.le, right)]
  | .gt, [left, right] => .compare left [(.gt, right)]
  | .ge, [left, right] => .compare left [(.ge, right)]
  | .isIn, [left, right] => .compare left [(.isIn, right)]
  | .any, target :: args => (Tree.attr target "has_any").plainCall args
  | .all, target :: args => (Tree.attr target "has_all").plainCall args
  | .hasCount, target :: args => (Tree.attr target "has_count").plainCall args
  | .duplicates, target :: args => (Tree.attr target "duplicates").plainCall args
  | .isValid, args => (Tree.ident "valid").plainCall args
  | .isMissing, args => (Tree.ident "missing").plainCall args
  | op, args => (Tree.ident op.name).plainCall args

namespace Query

mutual

/-- An expression for the query. -/
def tree : Query → Tree
  | .named name => .ident name
  | .address text => .ident text
  | .value v => v.tree
  | .call op args => op.tree (treeAll args)
termination_by structural q => q

def treeAll : List Query → List Tree
  | [] => []
  | q :: qs => q.tree :: treeAll qs
termination_by structural qs => qs

end

open Rules

theorem uniform_tree {v : Value} (hlist : v.isList = true) (hne : v ≠ .strs []) :
    ∃ items, v.tree = .list items ∧ Uniform items v := by
  cases v with
  | ints values => exact ⟨_, rfl, .ints values⟩
  | strs texts =>
    cases texts with
    | nil => exact absurd rfl hne
    | cons first more => exact ⟨_, rfl, .strs first more⟩
  | int | float | str => cases hlist

theorem IsOperand.operand_tree {q : Query} (h : IsOperand q) : Operand q.tree q := by
  cases h with
  | named name => exact .ident name
  | @value v hne =>
    cases v with
    | int value => exact .int value
    | float value => exact .float value
    | str text => exact .str text
    | ints | strs =>
      obtain ⟨items, hitems, huniform⟩ := uniform_tree rfl hne
      rw [tree, hitems]
      exact .display (.list items) huniform

/-- The expression of a predicate stands for it. -/
theorem IsPredicate.canonical_tree {q : Query} (h : IsPredicate q) : Canonical q.tree q := by
  induction h with
  | @and p q _ _ ihp ihq => exact .all (.cons ihp (.cons ihq .nil)) (.cons p (.single q))
  | @or p q _ _ ihp ihq => exact .any (.cons ihp (.cons ihq .nil)) (.cons p (.single q))
  | not _ ih => exact .not ih
  | @comparison op left right hop hleft hright =>
    have hleft := hleft.operand_tree
    have hright := hright.operand_tree
    simp only [List.mem_cons, List.not_mem_nil, or_false] at hop
    rcases hop with rfl | rfl | rfl | rfl | rfl | rfl | rfl
    · exact .compare hleft hright .eq
    · exact .compare hleft hright .ne
    · exact .compare hleft hright .lt
    · exact .compare hleft hright .le
    · exact .compare hleft hright .gt
    · exact .compare hleft hright .ge
    · exact .compare hleft hright .isIn
  | @listTest op name v hop hlist hne =>
    obtain ⟨items, hitems, huniform⟩ := uniform_tree hlist hne
    have hdisplay : Display v.tree items := by
      rw [hitems]
      exact .list items
    simp only [List.mem_cons, List.not_mem_nil, or_false] at hop
    rcases hop with rfl | rfl
    · exact .call (.hasAny name hdisplay huniform)
    · exact .call (.hasAll name hdisplay huniform)
  | hasCount name count => exact .call (.hasCount name count)
  | @variableTest op name hop =>
    have hfold : Folds .and ([name].map fun name => .call op [.named name])
        (.call op [.named name]) := .single _
    simp only [List.mem_cons, List.not_mem_nil, or_false] at hop
    rcases hop with rfl | rfl | rfl
    · exact .call (.duplicates name)
    · exact .call (.valid hfold)
    · exact .call (.missing hfold)

/-- A query stands for some filter exactly if it is a predicate. Then it has no address in
it, no test that only resolution makes, and no call with a wrong number of arguments. -/
theorem exists_canonical_iff (q : Query) :
    ((∃ t : Tree, t.canonical = .ok q) ↔ IsPredicate q) ∧ (IsPredicate q → Symbolic q) := by
  refine ⟨⟨fun h => ?_, fun h => ?_⟩, IsPredicate.symbolic⟩
  · obtain ⟨t, ht⟩ := h
    exact (canonical_sound ht).isPredicate
  · exact ⟨q.tree, canonical_complete h.canonical_tree⟩

end Query

end RowFilter
