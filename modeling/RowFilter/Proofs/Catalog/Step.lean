import RowFilter.Catalog.Basic

/-! What one declaration changes in a catalog, told through its two tables. The
variable of that name is set, the elements of the former declaration leave, and the
sub-elements of the new one take their names over from whoever held them. Every
element belongs to a declared array, and each declaration keeps it so. -/

namespace RowFilter

namespace Declaration

def listed (d : Declaration) : List Subvariable := d.subvariables.getD []

def lists (d : Declaration) (name : String) : Bool := d.listed.any fun sub => sub.name == name

/-- What the sub-element of that name is entered as; the last one in the list counts. -/
def element? (d : Declaration) (name : String) : Option Catalog.Element :=
  (d.listed.reverse.find? fun sub => sub.name == name).map fun sub => ⟨d.name, sub.address⟩

theorem isSome_element? (d : Declaration) (name : String) :
    (d.element? name).isSome = d.lists name := by
  rw [element?, Option.isSome_map, lists, Bool.eq_iff_iff, List.find?_isSome, List.any_eq_true]
  simp only [List.mem_reverse]

theorem element?_eq_none {d : Declaration} {name : String} (h : d.lists name = false) :
    d.element? name = none := by
  rw [← Option.isNone_iff_eq_none, ← Option.not_isSome, isSome_element?, h]
  rfl

theorem parent_of_element? {d : Declaration} {name : String} {e : Catalog.Element}
    (h : d.element? name = some e) : e.parent = d.name := by
  obtain ⟨sub, _, rfl⟩ := Option.map_eq_some_iff.1 h
  rfl

end Declaration

namespace Catalog

/-- Elements are answered first, and no variable is answered as an element. -/
theorem lookup_eq_subvariable_iff {c : Catalog} {name address parent : String} :
    c.lookup name = .ok ⟨address, .subvariable parent⟩ ↔
      ∃ e, c.elements.find? name = some e ∧ e.parent = parent ∧ e.address = address := by
  rw [lookup]
  cases c.elements.find? name with
  | some e => simp [and_comm]
  | none =>
    cases c.declared.find? name with
    | none => simp
    | some v =>
      obtain ⟨a, subs⟩ := v
      cases subs <;> simp

theorem find?_enterAll (declared : Table Variable) (owner : String) (elements : Table Element)
    (subs : List Subvariable) (name : String) :
    (enterAll declared owner elements subs).1.find? name =
      ((subs.reverse.find? fun sub => sub.name == name).map
        fun sub => (⟨owner, sub.address⟩ : Element)).or (elements.find? name) := by
  induction subs generalizing elements with
  | nil => rfl
  | cons sub subs ih =>
    simp only [enterAll, enter, ih, Table.find?_insert, List.reverse_cons, List.find?_append]
    cases hf : subs.reverse.find? fun sub => sub.name == name with
    | some later => simp
    | none =>
      by_cases hn : name = sub.name
      · simp [hn]
      · simp [hn, beq_eq_false_iff_ne.2 (Ne.symm hn)]

/-- Every element belongs to an array of the catalog. -/
def Rooted (c : Catalog) : Prop :=
  ∀ name e, c.elements.find? name = some e →
    ∃ v, c.declared.find? e.parent = some v ∧ v.subvariables.isSome

/-- The test for a former array in `elementsWithout` decides nothing. -/
theorem Rooted.find?_elementsWithout {c : Catalog} (hr : c.Rooted) (owner name : String) :
    (c.elementsWithout owner).find? name =
      (c.elements.find? name).filter fun e => e.parent != owner := by
  rw [elementsWithout]
  split
  · exact Table.find?_keep _ _ _
  · rename_i hno
    cases he : c.elements.find? name with
    | none => rfl
    | some e =>
      have hne : e.parent ≠ owner := by
        rintro rfl
        obtain ⟨⟨address, subvariables⟩, hv, hs⟩ := hr name e he
        obtain ⟨subs, rfl⟩ := Option.isSome_iff_exists.1 hs
        exact hno address subs hv
      simp [Option.filter, hne]

theorem find?_declared_declare (c : Catalog) (d : Declaration) (name : String) :
    (c.declare d).1.declared.find? name =
      if name = d.name then some ⟨d.address, d.subvariables⟩ else c.declared.find? name :=
  c.declared.find?_insert d.name name _

theorem Rooted.find?_elements_declare {c : Catalog} (hr : c.Rooted) (d : Declaration)
    (name : String) :
    (c.declare d).1.elements.find? name =
      (d.element? name).or ((c.elements.find? name).filter fun e => e.parent != d.name) := by
  have h := find?_enterAll c.declared d.name (c.elementsWithout d.name) d.listed name
  rwa [hr.find?_elementsWithout] at h

theorem rooted_empty : empty.Rooted := by
  intro name e h
  cases h

theorem Rooted.declare {c : Catalog} (hr : c.Rooted) (d : Declaration) :
    (c.declare d).1.Rooted := by
  intro name e he
  rw [hr.find?_elements_declare] at he
  rw [find?_declared_declare]
  cases hd : d.element? name with
  | some own =>
    obtain rfl : own = e := by simpa [hd] using he
    refine ⟨_, if_pos (Declaration.parent_of_element? hd), ?_⟩
    -- a declaration that lists anything has a list
    have hl : d.lists name = true := by rw [← Declaration.isSome_element?, hd]; rfl
    cases hs : d.subvariables with
    | some subs => rfl
    | none => simp [Declaration.lists, Declaration.listed, hs] at hl
  | none =>
    rw [hd, Option.none_or, Option.filter_eq_some_iff] at he
    obtain ⟨hold, hne⟩ := he
    obtain ⟨v, hv, hs⟩ := hr name e hold
    exact ⟨v, by rw [if_neg (bne_iff_ne.1 hne)]; exact hv, hs⟩

end Catalog

end RowFilter
