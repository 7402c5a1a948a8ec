import RowFilter.Proofs.Grammar.Compositional
import RowFilter.Proofs.Grammar.Sentence
import RowFilter.Proofs.Tree.Subtrees

/-! The levels of nesting on the paths through a tree. An item, an argument and what `not`
negates stand one level deeper than the node around them; operands of chains and comparisons,
bases and callees do not. No path through a tree that is read crosses as many levels as the
limit allows to open, for the tree itself stands on the first of them. -/

namespace RowFilter

open Grammar

namespace Tree

/-- The trees directly below a tree that stand on its own level. -/
def beside : Tree → List Tree
  | .chain _ operands => operands
  | .compare left steps => left :: steps.map Prod.snd
  | .attr base _ => [base]
  | .call callee _ => [callee]
  | .not _ | .ident _ | .literal _ | .list _ | .tuple _ => []

/-- The trees directly below a tree that stand one level deeper. -/
def inside : Tree → List Tree
  | .not operand => [operand]
  | .list items | .tuple items => items
  | .call _ args => args.map Prod.snd
  | .chain _ _ | .compare _ _ | .ident _ | .literal _ | .attr _ _ => []

/-- A path from a tree down to some node of it, with the number of levels that it crosses. -/
inductive Path : Nat → Tree → Tree → Prop
  | here (t : Tree) : Path 0 t t
  | beside {levels : Nat} {t u v : Tree} : u ∈ t.beside → Path levels u v → Path levels t v
  | inside {levels : Nat} {t u v : Tree} : u ∈ t.inside → Path levels u v →
    Path (levels + 1) t v

variable {p : Tree → Prop} {t u : Tree} {ts : List Token} {n : Nat}

theorem children_eq_append (t : Tree) : t.children = t.beside ++ t.inside := by
  cases t <;> simp [children, beside, inside]

/-- Paths lead to every node. -/
theorem everywhere_iff_path : t.Everywhere p ↔ ∀ levels u, Path levels t u → p u := by
  constructor
  · intro h levels u hpath
    induction hpath with
    | here => exact h.here
    | beside hu _ ih =>
      exact ih (h.child (by rw [children_eq_append]; exact List.mem_append_left _ hu))
    | inside hu _ ih =>
      exact ih (h.child (by rw [children_eq_append]; exact List.mem_append_right _ hu))
  · intro h
    induction t using induct with
    | node t ih =>
      refine .mk (h 0 t (.here t)) fun u hu => ih u hu fun levels v hpath => ?_
      rw [children_eq_append, List.mem_append] at hu
      rcases hu with hbeside | hinside
      · exact h levels v (.beside hbeside hpath)
      · exact h (levels + 1) v (.inside hinside hpath)

/-- No path down from it crosses as many levels. -/
def CrossesLess (n : Nat) (t : Tree) : Prop := ∀ levels u, Path levels t u → levels < n

theorem CrossesLess.succ (h : t.CrossesLess n) : t.CrossesLess (n + 1) :=
  fun levels u hpath => Nat.lt_succ_of_lt (h levels u hpath)

theorem crossesLess_succ_iff : t.CrossesLess (n + 1) ↔
    (∀ u ∈ t.beside, u.CrossesLess (n + 1)) ∧ ∀ u ∈ t.inside, u.CrossesLess n := by
  constructor
  · intro h
    refine ⟨fun u hu levels v hpath => h levels v (.beside hu hpath), fun u hu levels v hpath => ?_⟩
    exact Nat.lt_of_succ_lt_succ (h (levels + 1) v (.inside hu hpath))
  · intro h levels v hpath
    cases hpath with
    | here => exact Nat.succ_pos n
    | beside hu hpath => exact h.1 _ hu _ _ hpath
    | inside hu hpath => exact Nat.succ_lt_succ (h.2 _ hu _ _ hpath)

end Tree

namespace Grammar

open RowFilter.Tree

variable {P : Phrases} {n : Nat} {t : Tree} {ts : List Token}

section

variable (hitem : ∀ u us, P.item u us → u.CrossesLess n)

include hitem

theorem Primary.crossesLess (h : Primary P t ts) : t.CrossesLess (n + 1) := by
  cases h with
  | ident | literal | emptyList => exact crossesLess_succ_iff.2 ⟨nofun, nofun⟩
  | list _ h => exact crossesLess_succ_iff.2 ⟨nofun, h.forall hitem⟩
  | @parentheses items us comma h =>
    have hitems : ∀ u ∈ items, u.CrossesLess n := h.forall hitem
    rcases parenthesis_cases items comma with hmem | htuple
    · exact (hitems _ hmem).succ
    · rw [htuple]
      exact crossesLess_succ_iff.2 ⟨nofun, hitems⟩

/-- Attributes and calls stay on the level of the operand, the arguments do not. -/
theorem Operand.crossesLess (h : Operand P t ts) : t.CrossesLess (n + 1) := by
  induction h with
  | primary h => exact h.crossesLess hitem
  | attr _ _ ih => exact crossesLess_succ_iff.2 ⟨List.forall_mem_singleton.2 ih, nofun⟩
  | call _ hargs ih =>
    exact crossesLess_succ_iff.2 ⟨List.forall_mem_singleton.2 ih, hargs.forall hitem⟩

variable (hnegand : ∀ u us, P.negand u us → u.CrossesLess n)

include hnegand

theorem Negation.crossesLess (h : Negation P t ts) : t.CrossesLess (n + 1) := by
  cases h with
  | not h => exact crossesLess_succ_iff.2 ⟨nofun, List.forall_mem_singleton.2 (hnegand _ _ h)⟩
  | comparison h =>
    cases h with
    | operand h => exact h.crossesLess hitem
    | compare h hsteps =>
      refine crossesLess_succ_iff.2 ⟨List.forall_mem_cons.2 ⟨h.crossesLess hitem, ?_⟩, nofun⟩
      rw [List.forall_mem_map]
      refine hsteps.forall fun step us hstep => ?_
      cases hstep with
      | mk _ h => exact h.crossesLess hitem

omit hitem hnegand in
theorem ChainPhrase.crossesLess {c : Connective} {R : Tree → List Token → Prop}
    (hR : ∀ u us, R u us → u.CrossesLess (n + 1)) (h : ChainPhrase c R t ts) :
    t.CrossesLess (n + 1) := by
  cases h with
  | single h => exact hR _ _ h
  | chain h hmore => exact crossesLess_succ_iff.2 ⟨Series.forall hR (.mk h hmore), nofun⟩

theorem Disjunction.crossesLess (h : Disjunction P t ts) : t.CrossesLess (n + 1) :=
  ChainPhrase.crossesLess
    (fun _ _ => ChainPhrase.crossesLess fun _ _ h => h.crossesLess hitem hnegand) h

end

/-- Where `depth` levels are left, fewer are crossed. -/
theorem phrases_crossLess (depth : Nat) :
    (∀ t ts, (phrases depth).item t ts → t.CrossesLess depth) ∧
      ∀ t ts, (phrases depth).negand t ts → t.CrossesLess depth := by
  induction depth with
  | zero => exact ⟨fun _ _ => False.elim, fun _ _ => False.elim⟩
  | succ depth ih =>
    exact ⟨fun _ _ h => Disjunction.crossesLess ih.1 ih.2 h,
      fun _ _ h => Negation.crossesLess ih.1 ih.2 h⟩

end Grammar

/-- No path through a tree that is read crosses all levels of the limit. -/
theorem Tree.crossesLess_of_parse {source : String} {t : Tree} (h : Tree.parse source = .ok t) :
    t.CrossesLess maxNesting := by
  obtain ⟨ts, rest, hsentence, -, -⟩ := Tree.parse_eq_ok_iff.1 h
  exact (phrases_crossLess maxNesting).1 t ts hsentence

end RowFilter
