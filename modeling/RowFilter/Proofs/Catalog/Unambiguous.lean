import RowFilter.Proofs.Catalog.Provenance

/-! Catalogs declared without a warning. The warnings of one declaration say exactly which
of its names are taken; where no name is, every variable and every listed sub-element is
answered as it was declared last. -/

namespace RowFilter.Catalog

open Declaration

/-- No element of another array has the name. -/
def FreeFor (elements : Table Element) (owner name : String) : Prop :=
  ∀ e, elements.find? name = some e → e.parent = owner

/-- No variable is hidden by an element, and every array has the elements that it lists. -/
structure Unambiguous (c : Catalog) : Prop where
  apart : ∀ name v, c.declared.find? name = some v → c.elements.find? name = none
  held : ∀ owner address subs, c.declared.find? owner = some ⟨address, some subs⟩ →
    ∀ sub, IsLastBy Subvariable.name sub subs →
      c.elements.find? sub.name = some ⟨owner, sub.address⟩

variable {c : Catalog} {d : Declaration}

theorem enter_silent_iff {declared : Table Variable} {owner : String} {elements : Table Element}
    {sub : Subvariable} :
    (enter declared owner elements sub).2 = [] ↔
      declared.find? sub.name = none ∧ sub.name ≠ owner ∧ FreeFor elements owner sub.name := by
  have hshadows : (declared.contains sub.name || sub.name == owner) = false ↔
      declared.find? sub.name = none ∧ sub.name ≠ owner := by
    simp [Table.contains]
  simp only [enter, List.append_eq_nil_iff, FreeFor, ← and_assoc, ← hshadows]
  refine and_congr ?_ ?_
  · cases declared.contains sub.name || sub.name == owner <;> simp
  · cases elements.find? sub.name with
    | none => simp
    | some former => by_cases h : former.parent = owner <;> simp [h]

/-- What is entered belongs to the owner, so it takes no name that was free for it. -/
theorem enterAll_silent_iff {declared : Table Variable} {owner : String} {elements : Table Element}
    {subs : List Subvariable} :
    (enterAll declared owner elements subs).2 = [] ↔
      ∀ sub ∈ subs, declared.find? sub.name = none ∧ sub.name ≠ owner ∧
        FreeFor elements owner sub.name := by
  induction subs generalizing elements with
  | nil => simp [enterAll]
  | cons sub subs ih =>
    rw [enterAll, List.append_eq_nil_iff, enter_silent_iff, ih, List.forall_mem_cons]
    refine and_congr_right fun hsub => forall₂_congr fun other _ => ?_
    refine and_congr_right fun _ => and_congr_right fun _ => ?_
    simp only [enter, FreeFor, Table.find?_insert]
    by_cases hname : other.name = sub.name
    · rw [if_pos hname, hname]
      exact iff_of_true (fun e he => by cases he; rfl) hsub.2.2
    · rw [if_neg hname]

/-- A declaration is silent exactly if its own name and the names in its list are free:
no element of another array has them, and no variable has a listed name. -/
theorem Rooted.declare_silent_iff (hr : c.Rooted) :
    (c.declare d).2 = [] ↔
      FreeFor c.elements d.name d.name ∧ ∀ sub ∈ d.listed,
        c.declared.find? sub.name = none ∧ sub.name ≠ d.name ∧
          FreeFor c.elements d.name sub.name := by
  have hshadowed : (if (c.elementsWithout d.name).contains d.name then
      [Warning.variableShadowed d.name] else []) = [] ↔ FreeFor c.elements d.name d.name := by
    rw [Table.contains, hr.find?_elementsWithout, FreeFor]
    cases c.elements.find? d.name with
    | none => simp
    | some e => by_cases h : e.parent = d.name <;> simp [Option.filter, h]
  have hfree (name : String) : FreeFor (c.elementsWithout d.name) d.name name ↔
      FreeFor c.elements d.name name := by
    simp only [FreeFor, hr.find?_elementsWithout]
    cases c.elements.find? name with
    | none => simp
    | some e => by_cases h : e.parent = d.name <;> simp [Option.filter, h]
  rw [Catalog.declare, List.append_eq_nil_iff, hshadowed]
  refine and_congr_right fun _ => ?_
  rw [← listed, enterAll_silent_iff]
  simp only [hfree]

theorem unambiguous_empty : empty.Unambiguous where
  apart _ _ h := by cases h
  held _ _ _ h := by cases h

/-- A silent declaration takes no name from a variable or an array. -/
theorem Unambiguous.declare (hu : c.Unambiguous) (hr : c.Rooted) (hs : (c.declare d).2 = []) :
    (c.declare d).1.Unambiguous := by
  obtain ⟨hown, hlisted⟩ := hr.declare_silent_iff.1 hs
  have hunlisted {name : String} (h : ∀ sub ∈ d.listed, sub.name ≠ name) :
      d.element? name = none := by
    apply element?_eq_none
    simpa [lists] using h
  constructor
  · intro name v hv
    rw [hr.find?_elements_declare]
    rw [find?_declared_declare] at hv
    by_cases hname : name = d.name
    · subst hname
      rw [hunlisted fun sub hsub => (hlisted sub hsub).2.1, Option.none_or]
      cases he : c.elements.find? d.name with
      | none => rfl
      | some e => simp [Option.filter, hown e he]
    · rw [if_neg hname] at hv
      rw [hu.apart name v hv, hunlisted fun sub hsub h => ?_]
      · rfl
      · rw [← h, (hlisted sub hsub).1] at hv
        cases hv
  · intro owner address subs hv sub hlast
    rw [hr.find?_elements_declare]
    rw [find?_declared_declare] at hv
    by_cases howner : owner = d.name
    · subst howner
      rw [if_pos rfl, Option.some.injEq, Variable.mk.injEq] at hv
      obtain ⟨-, hsubs⟩ := hv
      have hlast : IsLastBy Subvariable.name sub d.listed := by
        rw [listed, hsubs]
        exact hlast
      have helement : d.element? sub.name = some ⟨d.name, sub.address⟩ :=
        element?_eq_some_iff.2 ⟨rfl, hlast⟩
      rw [helement, Option.some_or]
    · rw [if_neg howner] at hv
      have he := hu.held owner address subs hv sub hlast
      rw [hunlisted fun other hother h => ?_, he]
      · simp [Option.filter, howner]
      · exact howner ((hlisted other hother).2.2 _ (h ▸ he))

theorem Unambiguous.declareAll {c : Catalog} (hu : c.Unambiguous) (hr : c.Rooted)
    {ds : List Declaration} (hs : (c.declareAll ds).2 = []) :
    (c.declareAll ds).1.Unambiguous := by
  induction ds generalizing c with
  | nil => exact hu
  | cons d ds ih =>
    rw [Catalog.declareAll, List.append_eq_nil_iff] at hs
    exact ih (hu.declare hr hs.1) (hr.declare d) hs.2

/-- After declarations without a warning every variable is answered as it was declared
last, and so is every sub-element that an array lists. -/
theorem lookup_of_silent {ds : List Declaration} (h : (empty.declareAll ds).2 = []) :
    (∀ name ∈ (ofDeclarations ds).names, ∃ d, d.name = name ∧ IsLastBy Declaration.name d ds ∧
        (ofDeclarations ds).lookup name = .ok ⟨d.address, d.kind⟩) ∧
      ∀ d subs, IsLastBy Declaration.name d ds → d.subvariables = some subs →
        ∀ name ∈ subs.map Subvariable.name, ∃ sub, sub.name = name ∧
          IsLastBy Subvariable.name sub subs ∧
          (ofDeclarations ds).lookup name = .ok ⟨sub.address, .subvariable d.name⟩ := by
  have hu : (ofDeclarations ds).Unambiguous := unambiguous_empty.declareAll rooted_empty h
  constructor
  · intro name hname
    obtain ⟨d, rfl, hlast⟩ := exists_isLastBy (mem_names_iff.1 hname)
    have hv := find?_declared_ofDeclarations hlast
    exact ⟨d, rfl, hlast, lookup_variable hv (hu.apart d.name _ hv)⟩
  · intro d subs hlast hsubs name hname
    obtain ⟨sub, rfl, hsub⟩ := exists_isLastBy hname
    have hv := find?_declared_ofDeclarations hlast
    rw [hsubs] at hv
    have he := hu.held d.name d.address subs hv sub hsub
    exact ⟨sub, rfl, hsub, lookup_eq_subvariable_iff.2 ⟨_, he, rfl, rfl⟩⟩

/-- An array gives up its names as a scalar, one of them goes to another array, and it comes
back with a name listed twice. -/
theorem lookup_of_silent_redeclared :
    let ds : List Declaration :=
      [⟨"grid", "/1", some [⟨"a", "/1/a"⟩, ⟨"b", "/1/b"⟩]⟩, ⟨"age", "/2", none⟩,
        ⟨"grid", "/3", none⟩, ⟨"list", "/4", some [⟨"a", "/4/a"⟩]⟩,
        ⟨"grid", "/5", some [⟨"b", "/5/b"⟩, ⟨"c", "/5/c"⟩, ⟨"b", "/5/d"⟩]⟩]
    (empty.declareAll ds).2 = [] ∧
      (∀ name ∈ (ofDeclarations ds).names, ∃ d, d.name = name ∧ IsLastBy Declaration.name d ds ∧
        (ofDeclarations ds).lookup name = .ok ⟨d.address, d.kind⟩) ∧
      ∀ d subs, IsLastBy Declaration.name d ds → d.subvariables = some subs →
        ∀ name ∈ subs.map Subvariable.name, ∃ sub, sub.name = name ∧
          IsLastBy Subvariable.name sub subs ∧
          (ofDeclarations ds).lookup name = .ok ⟨sub.address, .subvariable d.name⟩ := by
  intro ds
  have h : (empty.declareAll ds).2 = [] := by rfl
  exact ⟨h, lookup_of_silent h⟩

end RowFilter.Catalog
