import RowFilter.Proofs.Catalog.Redeclaration
import RowFilter.Proofs.Resolution.Steps

/-! What a resolution depends on. It reads a look-up at the names of the query only, and an
array is spread over the list that the look-up gives with it, whoever holds the names in that
list. So a declaration that touches no name of the query leaves its resolution as it was. -/

namespace RowFilter

namespace Query

variable {lookup other : Lookup}

mutual

theorem resolveNode_congr : ∀ {q : Query}, (∀ name ∈ q.names, lookup name = other name) →
    resolveNode lookup q = resolveNode other q
  | .named name, h => by
    have hname : lookup name = other name := h name (List.mem_singleton_self name)
    rw [resolveNode, resolveNode, resolveName, resolveName, Traced.ask, Traced.ask, hname]
  | .address _, _ => rfl
  | .value _, _ => rfl
  | .call op args, h => by rw [resolveNode, resolveNode, resolveNodes_congr h]
termination_by structural q => q

theorem resolveNodes_congr : ∀ {qs : List Query}, (∀ name ∈ namesAll qs, lookup name = other name) →
    resolveNodes lookup qs = resolveNodes other qs
  | [], _ => rfl
  | q :: qs, h => by
    obtain ⟨hq, hqs⟩ := List.forall_mem_append.1 h
    rw [resolveNodes, resolveNodes, resolveNode_congr hq, resolveNodes_congr hqs]
termination_by structural qs => qs

end

/-- Look-ups that agree on the names of a query resolve it alike, and are asked alike. -/
theorem resolve_congr {q : Query} (h : ∀ name ∈ q.names, lookup name = other name) :
    q.resolve lookup = q.resolve other := by
  rw [resolve, resolve, resolveNode_congr h]

end Query

namespace Catalog

/-- The declaration does not touch the name: it neither declares nor lists it, and the name is
no sub-element of what is declared again. -/
structure Untouched (c : Catalog) (d : Declaration) (name : String) : Prop where
  undeclared : name ≠ d.name
  unlisted : d.lists name = false
  unheld : ∀ address, c.lookup name ≠ .ok ⟨address, .subvariable d.name⟩

variable {c : Catalog} {d : Declaration} {name : String}

theorem rooted_ofDeclarations (ds : List Declaration) : (ofDeclarations ds).Rooted := by
  suffices h : ∀ c : Catalog, c.Rooted → (c.declareAll ds).1.Rooted from h empty rooted_empty
  induction ds with
  | nil => exact fun _ hr => hr
  | cons d ds ih => exact fun c hr => ih _ (hr.declare d)

/-- The elements of other arrays stay, but for the names in the list of the declaration. -/
theorem Untouched.find?_elements (h : Untouched c d name) (hr : c.Rooted) :
    (c.declare d).1.elements.find? name = c.elements.find? name := by
  rw [hr.find?_elements_declare, Declaration.element?_eq_none h.unlisted, Option.none_or]
  cases he : c.elements.find? name with
  | none => rfl
  | some e =>
    have hparent : e.parent ≠ d.name := fun hp =>
      h.unheld e.address (lookup_eq_subvariable_iff.2 ⟨e, he, hp, rfl⟩)
    rw [Option.filter_some, if_pos (bne_iff_ne.2 hparent)]

theorem Untouched.lookup_declare (h : Untouched c d name) (hr : c.Rooted) :
    (c.declare d).1.lookup name = c.lookup name := by
  have hdeclared : (c.declare d).1.declared.find? name = c.declared.find? name := by
    rw [find?_declared_declare, if_neg h.undeclared]
  exact (lookup_congr_iff hdeclared).2 (h.find?_elements hr)

/-- A declaration that touches no name of a query does not change how the query is resolved:
not the answer, not the error, and not what is asked. -/
theorem resolve_declare {ds : List Declaration} {d : Declaration} {q : Query}
    (h : ∀ name ∈ q.names, Untouched (ofDeclarations ds) d name) :
    q.resolve ((ofDeclarations ds).declare d).1.lookup = q.resolve (ofDeclarations ds).lookup :=
  Query.resolve_congr fun name hname => (h name hname).lookup_declare (rooted_ofDeclarations ds)

/-- Another array takes over `a`, and the test of the array that listed it first stays. -/
theorem resolve_declare_takeover :
    let ds : List Declaration :=
      [⟨"grid", "/1", some [⟨"a", "/1/a"⟩, ⟨"b", "/1/b"⟩]⟩, ⟨"age", "/2", none⟩]
    let d : Declaration := ⟨"list", "/3", some [⟨"a", "/3/a"⟩]⟩
    let q : Query := .call .and [.call .any [.named "grid", .value (.ints [1, 2])],
      .call .eq [.named "age", .named "b"]]
    ((ofDeclarations ds).declare d).1.lookup "a" = .ok ⟨"/3/a", .subvariable "list"⟩ ∧
      (∀ name ∈ q.names, Untouched (ofDeclarations ds) d name) ∧
      q.resolve ((ofDeclarations ds).declare d).1.lookup =
        q.resolve (ofDeclarations ds).lookup := by
  intro ds d q
  have h : ∀ name ∈ q.names, Untouched (ofDeclarations ds) d name := by
    have hnames : q.names = ["grid", "age", "b"] := rfl
    have hb : (ofDeclarations ds).lookup "b" = .ok ⟨"/1/b", .subvariable "grid"⟩ := rfl
    simp only [hnames, List.forall_mem_cons]
    refine ⟨⟨by decide, rfl, ?_⟩, ⟨by decide, rfl, ?_⟩, ⟨by decide, rfl, ?_⟩, by simp⟩
    · intro address h
      cases h
    · intro address h
      cases h
    · simp [hb, d]
  exact ⟨rfl, h, resolve_declare h⟩

end Catalog

end RowFilter
