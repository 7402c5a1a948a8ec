import Mathlib.Data.List.Forall2
import RowFilter.Proofs.Tree.WellFormed

/-! Trees that are the same up to the signs of zeros. They have the same shape, so one is
taken apart as the other is. -/

namespace RowFilter

namespace Tree

/-- The same tree, floats being compared as numbers. -/
def Alike (a b : Tree) : Prop := a.same b = true

/-- Alike trees behind the same thing, a relation or the way an argument is passed. -/
def AlikeBehind {α : Type} (a b : α × Tree) : Prop := a.1 = b.1 ∧ a.2.Alike b.2

variable {t : Tree}

theorem sameAll_iff {as bs : List Tree} : sameAll as bs = true ↔ List.Forall₂ Alike as bs := by
  induction as generalizing bs with
  | nil => cases bs <;> simp [sameAll]
  | cons a as ih => cases bs <;> simp [sameAll, ih, Alike]

theorem sameSteps_iff {as bs : List (Relation × Tree)} : sameSteps as bs = true ↔
    List.Forall₂ AlikeBehind as bs := by
  induction as generalizing bs with
  | nil => cases bs <;> simp [sameSteps]
  | cons a as ih => cases bs <;> simp [sameSteps, ih, Alike, AlikeBehind]

theorem sameArgs_iff {as bs : List (Passing × Tree)} : sameArgs as bs = true ↔
    List.Forall₂ AlikeBehind as bs := by
  induction as generalizing bs with
  | nil => cases bs <;> simp [sameArgs]
  | cons a as ih => cases bs <;> simp [sameArgs, ih, Alike, AlikeBehind]

theorem Alike.chain {c : Connective} {bs : List Tree} (h : t.Alike (.chain c bs)) :
    ∃ as, t = .chain c as ∧ List.Forall₂ Alike as bs := by
  cases t with
  | chain d as =>
    simp only [Alike, same, Bool.and_eq_true, beq_iff_eq, sameAll_iff] at h
    exact ⟨as, by rw [h.1], h.2⟩
  | _ => cases h

theorem Alike.not {b : Tree} (h : t.Alike (.not b)) : ∃ a, t = .not a ∧ a.Alike b := by
  cases t with
  | not a => exact ⟨a, rfl, h⟩
  | _ => cases h

theorem Alike.compare {b : Tree} {bs : List (Relation × Tree)} (h : t.Alike (.compare b bs)) :
    ∃ a as, t = .compare a as ∧ a.Alike b ∧
      List.Forall₂ AlikeBehind as bs := by
  cases t with
  | compare a as =>
    simp only [Alike, same, Bool.and_eq_true, sameSteps_iff] at h
    exact ⟨a, as, rfl, h.1, h.2⟩
  | _ => cases h

theorem Alike.ident {name : String} (h : t.Alike (.ident name)) : t = .ident name := by
  cases t with
  | ident => rw [beq_iff_eq.1 h]
  | _ => cases h

theorem Alike.literal {l : Literal} (h : t.Alike (.literal l)) :
    ∃ k : Literal, t = .literal k ∧ k.same l = true := by
  cases t with
  | literal k => exact ⟨k, rfl, h⟩
  | _ => cases h

theorem Alike.list {bs : List Tree} (h : t.Alike (.list bs)) :
    ∃ as, t = .list as ∧ List.Forall₂ Alike as bs := by
  cases t with
  | list as => exact ⟨as, rfl, sameAll_iff.1 h⟩
  | _ => cases h

theorem Alike.tuple {bs : List Tree} (h : t.Alike (.tuple bs)) :
    ∃ as, t = .tuple as ∧ List.Forall₂ Alike as bs := by
  cases t with
  | tuple as => exact ⟨as, rfl, sameAll_iff.1 h⟩
  | _ => cases h

theorem Alike.attr {b : Tree} {name : String} (h : t.Alike (.attr b name)) :
    ∃ a, t = .attr a name ∧ a.Alike b := by
  cases t with
  | attr a =>
    simp only [Alike, same, Bool.and_eq_true, beq_iff_eq] at h
    exact ⟨a, by rw [h.2], h.1⟩
  | _ => cases h

theorem Alike.call {b : Tree} {bs : List (Passing × Tree)} (h : t.Alike (.call b bs)) :
    ∃ a as, t = .call a as ∧ a.Alike b ∧
      List.Forall₂ AlikeBehind as bs := by
  cases t with
  | call a as =>
    simp only [Alike, same, Bool.and_eq_true, sameArgs_iff] at h
    exact ⟨a, as, rfl, h.1, h.2⟩
  | _ => cases h

theorem Alike.isLoose {u : Tree} (h : t.Alike u) : t.isLoose = u.isLoose := by
  cases t <;> cases u <;> first | rfl | cases h

end Tree

theorem Literal.same_self {l : Literal} (hl : l.WellFormed) : l.same l = true := by
  cases l with
  | float x =>
    refine Binary64.sameNumber_self.2 ?_
    rintro rfl
    cases hl
  | _ => simp [Literal.same]

/-- A well formed tree, having no NaN in it, is the same as itself. -/
theorem Tree.alike_self {t : Tree} (ht : t.WellFormed) : t.Alike t := by
  induction t using Tree.induct with
  | node t ih =>
    obtain ⟨hnode, hchildren⟩ := wellFormed_iff.1 ht
    have ih (u : Tree) (hu : u ∈ t.children) : u.Alike u := ih u hu (hchildren u hu)
    have ihPairs {α : Type} {b : Tree} {pairs : List (α × Tree)}
        (h : t.children = b :: pairs.map Prod.snd) :
        List.Forall₂ AlikeBehind pairs pairs :=
      List.forall₂_same.2 fun a ha =>
        ⟨rfl, ih a.2 (h ▸ List.mem_cons_of_mem _ (List.mem_map_of_mem ha))⟩
    cases t with
    | chain | list | tuple =>
      simp only [Alike, same, Bool.and_eq_true, beq_self_eq_true, true_and, sameAll_iff]
      exact List.forall₂_same.2 ih
    | not b => exact ih b (by simp [children])
    | compare b steps =>
      simp only [Alike, same, Bool.and_eq_true, sameSteps_iff]
      exact ⟨ih b (by simp [children]), ihPairs rfl⟩
    | ident => simp [Alike, same]
    | literal => exact Literal.same_self hnode
    | attr b =>
      simp only [Alike, same, Bool.and_eq_true, beq_self_eq_true, and_true]
      exact ih b (by simp [children])
    | call b args =>
      simp only [Alike, same, Bool.and_eq_true, sameArgs_iff]
      exact ⟨ih b (by simp [children]), ihPairs rfl⟩

end RowFilter
