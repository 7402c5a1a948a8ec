import RowFilter.Proofs.Canonical.Rules
import RowFilter.Proofs.Resolution.Closed
import RowFilter.Proofs.Tree.Subtrees

/-! The variables of a filter. Its query names the identifiers of its tree, each as often as it
stands there and in the order of the text. Only the word before the parentheses of a helper
is no variable. -/

namespace RowFilter

namespace Tree

/-- The word that calls a helper. -/
def isHelper : Tree → Bool
  | .ident "valid" | .ident "missing" => true
  | _ => false

mutual

/-- The identifiers from left to right, repetitions kept, but not the word of a helper before
its arguments. -/
def identifiers : Tree → List String
  | .chain _ operands => identifiersAll operands
  | .not operand => operand.identifiers
  | .compare left steps => left.identifiers ++ identifiersSteps steps
  | .ident name => [name]
  | .literal _ => []
  | .list items => identifiersAll items
  | .tuple items => identifiersAll items
  | .attr base _ => base.identifiers
  | .call callee args =>
    (if callee.isHelper then [] else callee.identifiers) ++ identifiersArgs args
termination_by structural t => t

def identifiersAll : List Tree → List String
  | [] => []
  | t :: ts => t.identifiers ++ identifiersAll ts
termination_by structural ts => ts

def identifiersSteps : List (Relation × Tree) → List String
  | [] => []
  | (_, right) :: steps => right.identifiers ++ identifiersSteps steps
termination_by structural steps => steps

def identifiersArgs : List (Passing × Tree) → List String
  | [] => []
  | (_, value) :: args => value.identifiers ++ identifiersArgs args
termination_by structural args => args

end

theorem identifiersAll_eq_flatMap (ts : List Tree) : identifiersAll ts = ts.flatMap identifiers := by
  induction ts with
  | nil => rfl
  | cons t ts ih => rw [identifiersAll, ih, List.flatMap_cons]

/-- Bare names in parentheses are identifiers one behind the other. -/
theorem identifiersArgs_idents (names : List String) :
    identifiersArgs (names.map fun name => (.positional, .ident name)) = names := by
  induction names with
  | nil => rfl
  | cons name names ih => rw [List.map_cons, identifiersArgs, identifiers, ih, List.singleton_append]

end Tree

namespace Rules

open RowFilter.Tree Query

variable {t callee : Tree} {ts items : List Tree} {args : List (Passing × Tree)} {q : Query}
  {qs : List Query}

theorem Folds.names_eq {op : Operation} (h : Folds op qs q) : q.names = namesAll qs :=
  names_foldRight (foldRight_eq_some_iff.2 h)

theorem Uniform.identifiers_eq {values : Value} (h : Uniform items values) :
    identifiersAll items = [] := by
  rw [identifiersAll_eq_flatMap, List.flatMap_eq_nil_iff]
  cases h <;> exact List.forall_mem_map.2 fun _ _ => rfl

theorem Display.identifiers_eq (h : Display t items) : t.identifiers = identifiersAll items := by
  cases h <;> rw [identifiers]

theorem Operand.names_eq (h : Operand t q) : q.names = t.identifiers := by
  cases h with
  | ident | int | float | str => rfl
  | display hd hu => rw [hd.identifiers_eq, hu.identifiers_eq, names]

theorem Relates.names_eq {left right : Query} {relation : Relation}
    (h : Relates left right relation q) : q.names = left.names ++ right.names := by
  cases h <;> simp [names, namesAll]

/-- A test of every variable names the variables. -/
theorem namesAll_tests (op : Operation) (names : List String) :
    namesAll (names.map fun name => .call op [.named name]) = names := by
  induction names with
  | nil => rfl
  | cons name more ih =>
    rw [List.map_cons, namesAll, ih, Query.names, namesAll_singleton, Query.names,
      List.singleton_append]

theorem Asks.names_eq (h : Asks callee args q) : q.names = (call callee args).identifiers := by
  cases h with
  | hasAny name hd hu | hasAll name hd hu =>
    simp [names, namesAll, identifiers, identifiersArgs, isHelper, hd.identifiers_eq,
      hu.identifiers_eq]
  | hasCount | duplicates => rfl
  | valid hf | missing hf =>
    rw [hf.names_eq, namesAll_tests, identifiers, identifiersArgs_idents]
    rfl

theorem CanonicalAll.names_eq (h : CanonicalAll ts qs)
    (ih : ∀ t ∈ ts, ∀ {q}, Canonical t q → q.names = t.identifiers) :
    namesAll qs = identifiersAll ts := by
  induction ts generalizing qs with
  | nil =>
    cases h
    rfl
  | cons t ts iht =>
    obtain ⟨hfirst, hmore⟩ := List.forall_mem_cons.1 ih
    cases h with
    | cons ht hts => rw [namesAll, identifiersAll, hfirst ht, iht hts hmore]

theorem Canonical.names_eq (h : Canonical t q) : q.names = t.identifiers := by
  induction t using Tree.induct generalizing q with
  | node t ih =>
    cases h with
    | all hall hfolds | any hall hfolds =>
      rw [hfolds.names_eq, identifiers]
      exact hall.names_eq ih
    | @not operand _ hoperand =>
      rw [names, namesAll_singleton, identifiers]
      exact ih operand (List.mem_singleton_self operand) hoperand
    | compare hleft hright hrel =>
      rw [hrel.names_eq, hleft.names_eq, hright.names_eq, identifiers, identifiersSteps,
        identifiersSteps, List.append_nil]
    | call hasks => exact hasks.names_eq

end Rules

/-- The query of a filter names the identifiers of its tree: none is lost, added, repeated or
moved. -/
theorem Query.names_of_canonical {t : Tree} {q : Query} (h : t.canonical = .ok q) :
    q.names = t.identifiers :=
  (Rules.canonical_sound h).names_eq

/-- `not valid(b, valid) or a.has_any([1]) or c not in b`, where `valid` names a variable
as well. -/
theorem Query.names_of_helpers :
    let t : Tree := .chain .or [.not (.call (.ident "valid")
        [(.positional, .ident "b"), (.positional, .ident "valid")]),
      .call (.attr (.ident "a") "has_any") [(.positional, .list [.literal (.int 1)])],
      .compare (.ident "c") [(.notIn, .ident "b")]]
    ∃ q, t.canonical = .ok q ∧ q.names = ["b", "valid", "a", "c", "b"] := by
  intro t
  have hidentifiers : t.identifiers = ["b", "valid", "a", "c", "b"] := rfl
  exact ⟨_, rfl, (names_of_canonical (t := t) rfl).trans hidentifiers⟩

end RowFilter
