import RowFilter.Proofs.Catalog.Step

/-! Histories of declarations. After any history a name is an element exactly if the
last declaration that lists it was not declared again. The declarations that were not
replaced build the same catalog on their own, except for names that are lost: the last
declaration to list them was replaced, and one before it that lists them still stands. -/

namespace RowFilter

namespace Declaration

def redeclaredIn (d : Declaration) (later : List Declaration) : Bool :=
  later.any fun e => e.name == d.name

/-- The declarations whose name is not declared again. -/
def current : List Declaration → List Declaration
  | [] => []
  | d :: ds => if d.redeclaredIn ds then current ds else d :: current ds

/-- The last declaration that lists a name, and those behind it. -/
def lastLister? (name : String) : List Declaration → Option (Declaration × List Declaration)
  | [] => none
  | d :: ds => (lastLister? name ds).or (if d.lists name then some (d, ds) else none)

/-- The last declaration that lists the name was replaced, and one that lists it still
stands. -/
def Lost (ds : List Declaration) (name : String) : Prop :=
  (∃ front d back, ds = front ++ d :: back ∧ d.lists name = true ∧
    (∀ e ∈ back, e.lists name = false) ∧ ∃ e ∈ back, e.name = d.name) ∧
  ∃ e ∈ current ds, e.lists name = true

theorem current_sublist (ds : List Declaration) : (current ds).Sublist ds := by
  induction ds with
  | nil => exact .slnil
  | cons d ds ih =>
    rw [current]
    split
    · exact ih.cons d
    · exact ih.cons_cons d

theorem pairwise_current (ds : List Declaration) :
    (current ds).Pairwise fun d e => e.name ≠ d.name := by
  induction ds with
  | nil => exact .nil
  | cons d ds ih =>
    rw [current]
    split
    · exact ih
    · rename_i hd
      refine List.pairwise_cons.2 ⟨fun e he hne => hd ?_, ih⟩
      exact List.any_eq_true.2 ⟨e, (current_sublist ds).subset he, beq_iff_eq.2 hne⟩

theorem redeclaredIn_eq_false_iff {d : Declaration} {ds : List Declaration} :
    d.redeclaredIn ds = false ↔ ∀ e ∈ ds, e.name ≠ d.name := by
  simp [redeclaredIn]

theorem redeclaredIn_current {d : Declaration} {ds : List Declaration}
    (h : d.redeclaredIn ds = false) : d.redeclaredIn (current ds) = false := by
  rw [redeclaredIn_eq_false_iff] at h ⊢
  exact fun e he => h e ((current_sublist ds).subset he)

theorem lastLister?_eq_none_iff {name : String} {ds : List Declaration} :
    lastLister? name ds = none ↔ ∀ d ∈ ds, d.lists name = false := by
  induction ds with
  | nil => simp [lastLister?]
  | cons d ds ih => cases hd : d.lists name <;> simp [lastLister?, ih, hd]

theorem lastLister?_eq_some_iff {name : String} {ds back : List Declaration} {d : Declaration} :
    lastLister? name ds = some (d, back) ↔
      (∃ front, ds = front ++ d :: back) ∧ d.lists name = true ∧
        ∀ e ∈ back, e.lists name = false := by
  induction ds with
  | nil => simp [lastLister?]
  | cons x ds ih =>
    rw [lastLister?]
    cases hl : lastLister? name ds with
    | some found =>
      rw [hl] at ih
      rw [Option.some_or, ih]
      constructor
      · intro hsplit
        obtain ⟨⟨front, rfl⟩, hd, hback⟩ := hsplit
        exact ⟨⟨x :: front, rfl⟩, hd, hback⟩
      · intro hsplit
        obtain ⟨⟨front, hf⟩, hd, hback⟩ := hsplit
        cases front with
        | nil =>
          -- then nothing behind `x` lists the name, against `hl`
          obtain ⟨-, rfl⟩ := List.cons.inj hf
          rw [lastLister?_eq_none_iff.2 hback] at hl
          cases hl
        | cons y front =>
          obtain ⟨-, hf⟩ := List.cons.inj hf
          exact ⟨⟨front, hf⟩, hd, hback⟩
    | none =>
      have hnone := lastLister?_eq_none_iff.1 hl
      rw [Option.none_or]
      constructor
      · intro h
        split at h
        · rename_i hx
          obtain ⟨rfl, rfl⟩ := Prod.mk.inj (Option.some.inj h)
          exact ⟨⟨[], rfl⟩, hx, hnone⟩
        · cases h
      · intro hsplit
        obtain ⟨⟨front, hf⟩, hd, hback⟩ := hsplit
        cases front with
        | nil =>
          obtain ⟨rfl, rfl⟩ := List.cons.inj hf
          rw [if_pos hd]
        | cons y front =>
          obtain ⟨-, rfl⟩ := List.cons.inj hf
          rw [hnone d (by simp)] at hd
          cases hd

theorem lists_of_lastLister? {name : String} {ds back : List Declaration} {d : Declaration}
    (h : lastLister? name ds = some (d, back)) : d ∈ ds ∧ d.lists name = true := by
  obtain ⟨⟨front, rfl⟩, hd, -⟩ := lastLister?_eq_some_iff.1 h
  exact ⟨by simp, hd⟩

theorem lost_iff {ds : List Declaration} {name : String} :
    Lost ds name ↔ ∃ d back, lastLister? name ds = some (d, back) ∧
      d.redeclaredIn back = true ∧ ∃ e ∈ current ds, e.lists name = true := by
  simp only [Lost, lastLister?_eq_some_iff, redeclaredIn, List.any_eq_true, beq_iff_eq]
  constructor
  · intro h
    obtain ⟨⟨front, d, back, hds, hd, hback, hre⟩, hcur⟩ := h
    exact ⟨d, back, ⟨⟨front, hds⟩, hd, hback⟩, hre, hcur⟩
  · intro h
    obtain ⟨d, back, ⟨⟨front, hds⟩, hd, hback⟩, hre, hcur⟩ := h
    exact ⟨⟨front, d, back, hds, hd, hback, hre⟩, hcur⟩

/-- Among declarations that all stand, the last lister is not declared again. -/
theorem redeclaredIn_of_lastLister?_current {name : String} {ds back : List Declaration}
    {d : Declaration} (h : lastLister? name (current ds) = some (d, back)) :
    d.redeclaredIn back = false := by
  obtain ⟨⟨front, hf⟩, -, -⟩ := lastLister?_eq_some_iff.1 h
  have hp := pairwise_current ds
  rw [hf] at hp
  exact redeclaredIn_eq_false_iff.2 (List.pairwise_cons.1 (List.pairwise_append.1 hp).2.1).1

/-- The last lister stays the last lister when replaced declarations are deleted, unless
it is one of them. -/
theorem lastLister?_current {name : String} {ds back : List Declaration} {d : Declaration}
    (h : lastLister? name ds = some (d, back)) (hd : d.redeclaredIn back = false) :
    lastLister? name (current ds) = some (d, current back) := by
  induction ds with
  | nil => cases h
  | cons x ds ih =>
    rw [lastLister?] at h
    cases hl : lastLister? name ds with
    | some found =>
      rw [hl, Option.some_or] at h
      have hds := ih (hl.trans h)
      rw [current]
      split
      · exact hds
      · rw [lastLister?, hds, Option.some_or]
    | none =>
      rw [hl, Option.none_or] at h
      split at h
      · rename_i hx
        obtain ⟨rfl, rfl⟩ := Prod.mk.inj (Option.some.inj h)
        have hrest : lastLister? name (current ds) = none :=
          lastLister?_eq_none_iff.2 fun e he =>
            lastLister?_eq_none_iff.1 hl e ((current_sublist ds).subset he)
        rw [current, hd]
        simp [lastLister?, hrest, hx]
      · cases h

theorem find?_name_current (ds : List Declaration) (name : String) :
    ((current ds).reverse.find? fun d => d.name == name) =
      ds.reverse.find? fun d => d.name == name := by
  induction ds with
  | nil => rfl
  | cons d ds ih =>
    rw [current]
    split
    · rename_i hd
      rw [ih, List.reverse_cons, List.find?_append]
      cases hf : ds.reverse.find? fun e => e.name == name with
      | some later => rfl
      | none =>
        -- `d` is declared again, so it cannot be the one called `name`
        obtain ⟨e, he, hne⟩ := List.any_eq_true.1 hd
        have hne' := List.find?_eq_none.1 hf e (List.mem_reverse.2 he)
        rw [beq_iff_eq.1 hne] at hne'
        simp [hne']
    · rw [List.reverse_cons, List.reverse_cons, List.find?_append, List.find?_append, ih]

end Declaration

namespace Catalog

open Declaration

theorem find?_declared_declareAll (c : Catalog) (ds : List Declaration) (name : String) :
    (c.declareAll ds).1.declared.find? name =
      ((ds.reverse.find? fun d => d.name == name).map
        fun d => (⟨d.address, d.subvariables⟩ : Variable)).or (c.declared.find? name) := by
  induction ds generalizing c with
  | nil => rfl
  | cons d ds ih =>
    simp only [declareAll, ih, find?_declared_declare, List.reverse_cons, List.find?_append]
    cases hf : ds.reverse.find? fun e => e.name == name with
    | some later => simp
    | none =>
      by_cases hn : name = d.name
      · simp [hn]
      · simp [hn, beq_eq_false_iff_ne.2 (Ne.symm hn)]

/-- Behind its last lister a name changes only by leaving. -/
theorem Rooted.find?_elements_declareAll {c : Catalog} (hr : c.Rooted) (ds : List Declaration)
    (name : String) :
    (c.declareAll ds).1.elements.find? name =
      match lastLister? name ds with
      | some (d, back) => if d.redeclaredIn back then none else d.element? name
      | none => (c.elements.find? name).filter fun e => ds.all fun d => d.name != e.parent := by
  induction ds generalizing c with
  | nil =>
    cases he : c.elements.find? name with
    | none => simp [declareAll, lastLister?, he]
    | some e => simp [declareAll, lastLister?, he, Option.filter]
  | cons d ds ih =>
    simp only [declareAll, ih (hr.declare d), hr.find?_elements_declare]
    rw [lastLister?]
    cases hl : lastLister? name ds with
    | some found => rfl
    | none =>
      rw [Option.none_or]
      cases hd : d.lists name with
      | true =>
        rw [← isSome_element?, Option.isSome_iff_exists] at hd
        obtain ⟨own, hown⟩ := hd
        have hp := parent_of_element? hown
        cases hre : d.redeclaredIn ds with
        | true =>
          obtain ⟨e, he, hne⟩ := List.any_eq_true.1 hre
          have hne' : e.name = own.parent := by rw [hp]; exact beq_iff_eq.1 hne
          have hall : (ds.all fun x => x.name != own.parent) = false :=
            List.all_eq_false.2 ⟨e, he, by simp [hne']⟩
          simp [hown, Option.filter, hall, hre]
        | false =>
          have hall : (ds.all fun x => x.name != own.parent) = true := by
            rw [hp]
            exact List.all_eq_true.2 fun x hx => bne_iff_ne.2 (redeclaredIn_eq_false_iff.1 hre x hx)
          simp [hown, Option.filter, hall, hre]
      | false =>
        rw [element?_eq_none hd, Option.none_or]
        cases he : c.elements.find? name with
        | none => simp
        | some e =>
          by_cases hpe : e.parent = d.name
          · simp [Option.filter, hpe]
          · simp [Option.filter, hpe, Ne.symm hpe]

theorem find?_elements_ofDeclarations (ds : List Declaration) (name : String) :
    (ofDeclarations ds).elements.find? name =
      match lastLister? name ds with
      | some (d, back) => if d.redeclaredIn back then none else d.element? name
      | none => none := by
  rw [ofDeclarations, rooted_empty.find?_elements_declareAll]
  rfl

theorem find?_declared_current (ds : List Declaration) (name : String) :
    (ofDeclarations (current ds)).declared.find? name =
      (ofDeclarations ds).declared.find? name := by
  simp only [ofDeclarations, find?_declared_declareAll, find?_name_current]

theorem lookup_congr_iff {c c' : Catalog} {name : String}
    (hv : c.declared.find? name = c'.declared.find? name) :
    c.lookup name = c'.lookup name ↔ c.elements.find? name = c'.elements.find? name := by
  constructor
  · intro h
    cases he : c.elements.find? name with
    | some e =>
      rw [lookup_eq_subvariable_iff.2 ⟨e, he, rfl, rfl⟩] at h
      obtain ⟨⟨p, a⟩, he', hp, ha⟩ := lookup_eq_subvariable_iff.1 h.symm
      rw [he']
      cases hp
      cases ha
      rfl
    | none =>
      cases he' : c'.elements.find? name with
      | some e =>
        rw [lookup_eq_subvariable_iff.2 ⟨e, he', rfl, rfl⟩] at h
        obtain ⟨_, hsome, -⟩ := lookup_eq_subvariable_iff.1 h
        rw [he] at hsome
        cases hsome
      | none => rfl
  · intro h
    simp only [lookup, hv, h]

/-- A history answers for a name as the declarations that were not replaced do, exactly if
the name is not lost. -/
theorem lookup_current_iff (ds : List Declaration) (name : String) :
    (ofDeclarations ds).lookup name = (ofDeclarations (current ds)).lookup name ↔
      ¬ Lost ds name := by
  rw [lookup_congr_iff (find?_declared_current ds name).symm, find?_elements_ofDeclarations,
    find?_elements_ofDeclarations, lost_iff]
  cases hl : lastLister? name ds with
  | none =>
    have hcur : lastLister? name (current ds) = none :=
      lastLister?_eq_none_iff.2 fun e he =>
        lastLister?_eq_none_iff.1 hl e ((current_sublist ds).subset he)
    simp [hcur]
  | some found =>
    obtain ⟨d, back⟩ := found
    cases hre : d.redeclaredIn back with
    | false => simp [lastLister?_current hl hre, hre, redeclaredIn_current hre]
    | true =>
      cases hcur : lastLister? name (current ds) with
      | none =>
        have hno := lastLister?_eq_none_iff.1 hcur
        simpa [hre] using hno
      | some kept =>
        obtain ⟨e, rest⟩ := kept
        obtain ⟨hmem, hlists⟩ := lists_of_lastLister? hcur
        have hsome := isSome_element? e name
        rw [hlists, Option.isSome_iff_exists] at hsome
        obtain ⟨own, hown⟩ := hsome
        simpa [hre, redeclaredIn_of_lastLister?_current hcur, hown] using ⟨e, hmem, hlists⟩

/-- Two arrays share `x`; when the later one becomes a scalar, the earlier one does not
get its `x` back. -/
theorem shared_element_is_lost :
    (ofDeclarations [⟨"A", "a", some [⟨"x", "a/x"⟩]⟩, ⟨"B", "b", some [⟨"x", "b/x"⟩]⟩,
      ⟨"B", "b2", none⟩]).lookup "x" = .error (.notFound "x") ∧
    (ofDeclarations (current [⟨"A", "a", some [⟨"x", "a/x"⟩]⟩, ⟨"B", "b", some [⟨"x", "b/x"⟩]⟩,
      ⟨"B", "b2", none⟩])).lookup "x" = .ok ⟨"a/x", .subvariable "A"⟩ := by
  constructor <;> rfl

end Catalog

end RowFilter
