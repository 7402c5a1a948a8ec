import RowFilter.Proofs.Catalog.Redeclaration

/-! Where the answers of a catalog come from. A variable is answered as it was declared
last. A sub-element is answered exactly if the last declaration that lists it was not made
again, and then with the address of the last entry of its name in that list. -/

namespace RowFilter

/-- `x` is in the list, and no entry behind it has its key. -/
def IsLastBy {α : Type} (key : α → String) (x : α) (xs : List α) : Prop :=
  ∃ front back, xs = front ++ x :: back ∧ ∀ y ∈ back, key y ≠ key x

section

variable {α : Type} {key : α → String} {name : String} {x : α} {xs : List α}

theorem find?_reverse_eq_some_iff :
    (xs.reverse.find? fun y => key y == name) = some x ↔ key x = name ∧ IsLastBy key x xs := by
  rw [List.find?_eq_some_iff_append, beq_iff_eq]
  refine and_congr_right fun hx => ?_
  subst hx
  constructor
  · intro h
    obtain ⟨back, front, hxs, hback⟩ := h
    refine ⟨front.reverse, back.reverse, ?_, fun y hy => ?_⟩
    · rw [← List.reverse_inj, hxs]
      simp
    · simpa using hback y (List.mem_reverse.1 hy)
  · intro h
    obtain ⟨front, back, rfl, hback⟩ := h
    refine ⟨back.reverse, front.reverse, by simp, fun y hy => ?_⟩
    simpa using hback y (List.mem_reverse.1 hy)

/-- Every key of a list has a last entry. -/
theorem exists_isLastBy (h : name ∈ xs.map key) : ∃ x, key x = name ∧ IsLastBy key x xs := by
  obtain ⟨y, hy, rfl⟩ := List.mem_map.1 h
  have hsome : (xs.reverse.find? fun x => key x == key y).isSome = true :=
    List.find?_isSome.2 ⟨y, List.mem_reverse.2 hy, beq_self_eq_true _⟩
  obtain ⟨x, hx⟩ := Option.isSome_iff_exists.1 hsome
  exact ⟨x, find?_reverse_eq_some_iff.1 hx⟩

end

theorem Table.mem_keys_iff {α : Type} {t : Table α} {key : String} :
    key ∈ t.keys ↔ (t.find? key).isSome = true := by
  rw [keys, find?, List.lookup_isSome_iff, List.mem_map]
  simp only [beq_iff_eq, @eq_comm _ key]

namespace Declaration

/-- What the variable is. -/
def kind (d : Declaration) : VariableKind :=
  match d.subvariables with
  | some subvariables => .array subvariables
  | none => .scalar

theorem element?_eq_some_iff {d : Declaration} {name : String} {e : Catalog.Element} :
    d.element? name = some e ↔
      e.parent = d.name ∧ IsLastBy Subvariable.name ⟨name, e.address⟩ d.listed := by
  rw [element?, Option.map_eq_some_iff]
  simp only [find?_reverse_eq_some_iff]
  constructor
  · intro h
    obtain ⟨sub, ⟨rfl, hlast⟩, rfl⟩ := h
    exact ⟨rfl, hlast⟩
  · intro h
    obtain ⟨hparent, hlast⟩ := h
    refine ⟨_, ⟨rfl, hlast⟩, ?_⟩
    rw [← hparent]

/-- A declaration that lists anything has a list. -/
theorem subvariables_of_isLastBy {d : Declaration} {sub : Subvariable}
    (h : IsLastBy Subvariable.name sub d.listed) :
    ∃ subs, d.subvariables = some subs ∧ IsLastBy Subvariable.name sub subs := by
  cases hs : d.subvariables with
  | some subs => exact ⟨subs, rfl, by simpa [listed, hs] using h⟩
  | none =>
    obtain ⟨front, back, hnil, -⟩ := h
    simp [listed, hs] at hnil

end Declaration

namespace Catalog

open Declaration

variable {ds : List Declaration} {name : String}

theorem find?_declared_ofDeclarations {d : Declaration} (h : IsLastBy Declaration.name d ds) :
    (ofDeclarations ds).declared.find? d.name = some ⟨d.address, d.subvariables⟩ := by
  rw [ofDeclarations, find?_declared_declareAll, find?_reverse_eq_some_iff.2 ⟨rfl, h⟩]
  rfl

/-- The variables of a catalog are those that some declaration names. -/
theorem mem_names_iff : name ∈ (ofDeclarations ds).names ↔ name ∈ ds.map Declaration.name := by
  rw [names, Table.mem_keys_iff, ofDeclarations, find?_declared_declareAll, empty, Table.empty,
    Table.find?, List.lookup_nil, Option.or_none, Option.isSome_map, List.find?_isSome,
    List.mem_map]
  simp only [List.mem_reverse, beq_iff_eq]

theorem lookup_variable {c : Catalog} {d : Declaration}
    (hv : c.declared.find? d.name = some ⟨d.address, d.subvariables⟩)
    (he : c.elements.find? d.name = none) : c.lookup d.name = .ok ⟨d.address, d.kind⟩ := by
  rw [lookup, he, hv, kind]
  cases d.subvariables <;> rfl

/-- A name is answered as a sub-element exactly if the last declaration that lists it is
the last one of its own name; the parent is this array and the address that of the last
entry in its list. -/
theorem lookup_subvariable_iff {address parent : String} :
    (ofDeclarations ds).lookup name = .ok ⟨address, .subvariable parent⟩ ↔
      parent ∈ (ofDeclarations ds).names ∧
        ∃ front d back subs, ds = front ++ d :: back ∧ d.name = parent ∧
          d.subvariables = some subs ∧ IsLastBy Subvariable.name ⟨name, address⟩ subs ∧
          ∀ e ∈ back, e.name ≠ parent ∧ e.lists name = false := by
  rw [lookup_eq_subvariable_iff, find?_elements_ofDeclarations, mem_names_iff]
  constructor
  · intro h
    obtain ⟨e, he, rfl, rfl⟩ := h
    cases hl : lastLister? name ds with
    | none => rw [hl] at he; cases he
    | some found =>
      obtain ⟨d, back⟩ := found
      obtain ⟨⟨front, hds⟩, -, hback⟩ := lastLister?_eq_some_iff.1 hl
      simp only [hl] at he
      split at he
      · cases he
      · rename_i hcurrent
        obtain ⟨hparent, hlast⟩ := element?_eq_some_iff.1 he
        obtain ⟨subs, hsubs, hlast⟩ := subvariables_of_isLastBy hlast
        have hcurrent := redeclaredIn_eq_false_iff.1 (Bool.eq_false_iff.2 hcurrent)
        refine ⟨?_, front, d, back, subs, hds, hparent.symm, hsubs, hlast, fun x hx => ?_⟩
        · rw [hparent, hds]
          exact List.mem_map_of_mem (by simp)
        · exact ⟨hparent ▸ hcurrent x hx, hback x hx⟩
  · intro h
    obtain ⟨-, front, d, back, subs, hds, rfl, hsubs, hlast, hback⟩ := h
    have hlisted : d.listed = subs := by rw [listed, hsubs]; rfl
    have helement : d.element? name = some ⟨d.name, address⟩ :=
      element?_eq_some_iff.2 ⟨rfl, hlisted ▸ hlast⟩
    have hlists : d.lists name = true := by rw [← isSome_element?, helement]; rfl
    have hl : lastLister? name ds = some (d, back) :=
      lastLister?_eq_some_iff.2 ⟨⟨front, hds⟩, hlists, fun e he => (hback e he).2⟩
    have hcurrent : d.redeclaredIn back = false :=
      redeclaredIn_eq_false_iff.2 fun e he => (hback e he).1
    refine ⟨⟨d.name, address⟩, ?_, rfl, rfl⟩
    simp only [hl, hcurrent]
    exact helement

end Catalog

end RowFilter
