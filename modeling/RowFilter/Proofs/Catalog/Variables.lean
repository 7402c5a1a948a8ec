import RowFilter.Proofs.Catalog.Provenance

/-! The variables of a catalog. A name keeps the place of its first declaration and has the
content of its last one, however often it is declared and whatever it was in between. It is
answered with this content unless a sub-element hides it. -/

namespace RowFilter

/-- The names of a list, each once, in the order in which they first stand there. -/
structure FirstSeen (all names : List String) : Prop where
  once : names.Nodup
  mem_iff : ∀ name, name ∈ names ↔ name ∈ all
  ordered : names.Pairwise fun a b => all.idxOf a < all.idxOf b

namespace FirstSeen

variable {all names : List String} {name : String}

theorem nil : FirstSeen [] [] := ⟨.nil, by simp, .nil⟩

/-- The places of names that were seen stay. -/
theorem ordered_append (h : FirstSeen all names) (more : List String) :
    names.Pairwise fun a b => (all ++ more).idxOf a < (all ++ more).idxOf b := by
  refine h.ordered.imp_of_mem fun {a b} ha hb hlt => ?_
  rw [List.idxOf_append, if_pos ((h.mem_iff a).1 ha), List.idxOf_append,
    if_pos ((h.mem_iff b).1 hb)]
  exact hlt

/-- A name that was seen changes nothing, and a new one stands behind all others. -/
theorem concat (h : FirstSeen all names) (name : String) :
    FirstSeen (all ++ [name]) (if name ∈ names then names else names ++ [name]) := by
  split
  · rename_i hold
    refine ⟨h.once, fun other => ?_, h.ordered_append [name]⟩
    rw [h.mem_iff, List.mem_append, List.mem_singleton]
    constructor
    · exact .inl
    · rintro (hother | rfl)
      · exact hother
      · exact (h.mem_iff _).1 hold
  · rename_i hnew
    have hunseen : name ∉ all := fun hall => hnew ((h.mem_iff name).2 hall)
    refine ⟨?_, fun other => ?_, ?_⟩
    · refine List.nodup_append.2 ⟨h.once, List.pairwise_singleton _ _, fun a ha b hb hab => ?_⟩
      exact hnew (List.mem_singleton.1 hb ▸ hab ▸ ha)
    · rw [List.mem_append, h.mem_iff, List.mem_append]
    · refine List.pairwise_append.2 ⟨h.ordered_append [name], List.pairwise_singleton _ _, ?_⟩
      intro a ha b hb
      rw [List.mem_singleton.1 hb, List.idxOf_append, if_pos ((h.mem_iff a).1 ha),
        List.idxOf_append, if_neg hunseen]
      exact Nat.lt_of_lt_of_le (List.idxOf_lt_length_of_mem ((h.mem_iff a).1 ha))
        (Nat.le_add_left _ _)

end FirstSeen

namespace Catalog

variable {c : Catalog} {seen : List String}

/-- Declaring puts a new name behind the others and leaves a known one at its place. -/
theorem firstSeen_declareAll (h : FirstSeen seen c.names) (ds : List Declaration) :
    FirstSeen (seen ++ ds.map Declaration.name) (c.declareAll ds).1.names := by
  induction ds generalizing c seen with
  | nil => simpa [declareAll] using h
  | cons d ds ih =>
    have hstep := h.concat d.name
    rw [← names_declare] at hstep
    have hrun := ih hstep
    rwa [List.append_assoc] at hrun

theorem firstSeen_ofDeclarations (ds : List Declaration) :
    FirstSeen (ds.map Declaration.name) (ofDeclarations ds).names := by
  have hempty : FirstSeen [] empty.names := .nil
  exact firstSeen_declareAll hempty ds

/-- A variable is answered with its own content exactly if no sub-element has its name. -/
theorem lookup_eq_variable_iff {d : Declaration}
    (hv : c.declared.find? d.name = some ⟨d.address, d.subvariables⟩) :
    c.lookup d.name = .ok ⟨d.address, d.kind⟩ ↔ c.elements.find? d.name = none := by
  constructor
  · intro h
    cases he : c.elements.find? d.name with
    | none => rfl
    | some e =>
      have hsub := lookup_eq_subvariable_iff.2 ⟨e, he, rfl, rfl⟩
      rw [hsub] at h
      obtain ⟨name, address, subvariables⟩ := d
      cases subvariables <;> cases h
  · exact lookup_variable hv

/-- The names of a catalog are the declared ones, each once and at the place of its first
declaration. A name that no sub-element hides is answered as it was declared last: with that
address, and as an array with the list of that declaration or, where it has none, as a
scalar. -/
theorem variables_ofDeclarations (ds : List Declaration) :
    FirstSeen (ds.map Declaration.name) (ofDeclarations ds).names ∧
      (ofDeclarations ds).size = (ofDeclarations ds).names.length ∧
      ∀ name ∈ (ofDeclarations ds).names, ∃ d, d.name = name ∧ IsLastBy Declaration.name d ds ∧
        ((ofDeclarations ds).lookup name = .ok ⟨d.address, d.kind⟩ ↔
          (ofDeclarations ds).elements.find? name = none) := by
  refine ⟨firstSeen_ofDeclarations ds, (length_names _).symm, fun name hname => ?_⟩
  obtain ⟨d, rfl, hlast⟩ := exists_isLastBy (mem_names_iff.1 hname)
  exact ⟨d, rfl, hlast, lookup_eq_variable_iff (find?_declared_ofDeclarations hlast)⟩

end Catalog

end RowFilter
