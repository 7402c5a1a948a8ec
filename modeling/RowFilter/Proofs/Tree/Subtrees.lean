import RowFilter.Tree.Basic

/-! The subtrees of a tree, induction over them, and properties that hold everywhere in a
tree. -/

namespace RowFilter

namespace Tree

/-- The trees directly below a tree. -/
def children : Tree → List Tree
  | .chain _ operands => operands
  | .not operand => [operand]
  | .compare left steps => left :: steps.map Prod.snd
  | .ident _ | .literal _ => []
  | .list items | .tuple items => items
  | .attr base _ => [base]
  | .call callee args => callee :: args.map Prod.snd

theorem mem_children_of_step {left : Tree} {steps : List (Relation × Tree)}
    {step : Relation × Tree} (h : step ∈ steps) : step.2 ∈ (compare left steps).children :=
  List.mem_cons_of_mem _ (List.mem_map_of_mem h)

theorem mem_children_of_arg {callee : Tree} {args : List (Passing × Tree)}
    {arg : Passing × Tree} (h : arg ∈ args) : arg.2 ∈ (call callee args).children :=
  List.mem_cons_of_mem _ (List.mem_map_of_mem h)

theorem sizeOf_lt_of_mem_snd {α : Type} [SizeOf α] {pairs : List (α × Tree)} {u : Tree}
    (h : u ∈ pairs.map Prod.snd) : sizeOf u < sizeOf pairs := by
  obtain ⟨⟨a, v⟩, hpair, rfl⟩ := List.mem_map.1 h
  have hlt := List.sizeOf_lt_of_mem hpair
  simp only [Prod.mk.sizeOf_spec] at hlt ⊢
  omega

theorem sizeOf_lt_of_mem_children {t u : Tree} (h : u ∈ t.children) : sizeOf u < sizeOf t := by
  cases t with
  | chain _ ts | list ts | tuple ts =>
    have hlt := List.sizeOf_lt_of_mem (show u ∈ ts from h)
    simp
    omega
  | not =>
    obtain rfl := List.mem_singleton.1 h
    simp
  | attr =>
    obtain rfl := List.mem_singleton.1 h
    simp
    omega
  | compare _ pairs | call _ pairs =>
    rcases List.mem_cons.1 h with rfl | h
    · simp
      omega
    · have hlt := sizeOf_lt_of_mem_snd (show u ∈ pairs.map Prod.snd from h)
      simp
      omega
  | ident | literal => cases h

/-- What holds of a tree if it holds of its children holds of every tree. -/
@[elab_as_elim]
theorem induct {motive : Tree → Prop} (node : ∀ t, (∀ u ∈ t.children, motive u) → motive t)
    (t : Tree) : motive t :=
  node t fun u _ => induct node u
termination_by sizeOf t
decreasing_by exact sizeOf_lt_of_mem_children ‹_›

/-- The property holds of the tree and of every tree below it. -/
inductive Everywhere (p : Tree → Prop) : Tree → Prop
  | mk {t : Tree} : p t → (∀ u ∈ t.children, Everywhere p u) → Everywhere p t

variable {p q : Tree → Prop} {t u : Tree}

theorem everywhere_iff : Everywhere p t ↔ p t ∧ ∀ u ∈ t.children, Everywhere p u := by
  constructor
  · intro h
    obtain ⟨hp, hchildren⟩ := h
    exact ⟨hp, hchildren⟩
  · intro h
    obtain ⟨hp, hchildren⟩ := h
    exact ⟨hp, hchildren⟩

theorem Everywhere.here (h : Everywhere p t) : p t := (everywhere_iff.1 h).1

theorem Everywhere.child (h : Everywhere p t) (hu : u ∈ t.children) : Everywhere p u :=
  (everywhere_iff.1 h).2 u hu

theorem Everywhere.imp (h : Everywhere p t) (hpq : ∀ u, p u → q u) : Everywhere q t := by
  induction h with
  | mk hp _ ih => exact .mk (hpq _ hp) ih

end Tree

end RowFilter
