import RowFilter.Proofs.Resolution.Steps

/-! Queries without names. Resolution leaves none, however an array was expanded, and a
query that has none is its own resolution: no look-up is asked, so none can matter. -/

namespace RowFilter.Query

/-- A fold names what its parts name, in their order. -/
theorem names_foldRight {op : Operation} {qs : List Query} {q : Query}
    (h : foldRight op qs = some q) : q.names = namesAll qs := by
  induction qs generalizing q with
  | nil => cases h
  | cons first more ih =>
    rw [foldRight] at h
    cases hrest : foldRight op more with
    | none =>
      rw [hrest] at h
      cases h
      rw [foldRight_eq_none_iff.1 hrest, namesAll, namesAll, List.append_nil]
    | some rest =>
      rw [hrest] at h
      cases h
      rw [names, namesAll, namesAll, namesAll, namesAll, List.append_nil, ih hrest]

theorem namesAll_eq_nil_iff {qs : List Query} : namesAll qs = [] ↔ ∀ q ∈ qs, q.names = [] := by
  rw [namesAll_eq_flatMap, List.flatMap_eq_nil_iff]

mutual

/-- Whether a name remains is whether there are names. -/
theorem hasName_eq_false_iff : ∀ q : Query, q.hasName = false ↔ q.names = []
  | .named _ => by simp [hasName, names]
  | .address _ => by simp [hasName, names]
  | .value _ => by simp [hasName, names]
  | .call _ args => by rw [hasName, names, hasNameAny_eq_false_iff args]
termination_by structural q => q

theorem hasNameAny_eq_false_iff : ∀ qs : List Query, hasNameAny qs = false ↔ namesAll qs = []
  | [] => by simp [hasNameAny, namesAll]
  | q :: qs => by
    rw [hasNameAny, namesAll, Bool.or_eq_false_iff, List.append_eq_nil_iff,
      hasName_eq_false_iff q, hasNameAny_eq_false_iff qs]
termination_by structural qs => qs

end

/-! ### Resolution leaves no name -/

theorem names_perSubvariable {array : ArrayTarget} {join : Operation} {test : Query → Query}
    {q : Query} (htest : ∀ address, (test (.address address)).names = [])
    (h : perSubvariable array join test = .ok q) : q.names = [] := by
  rw [names_foldRight (perSubvariable_eq_ok_iff.1 h), namesAll_eq_nil_iff, List.forall_mem_map]
  exact fun sub _ => htest sub.address

/-- An expansion is built from addresses and values. -/
theorem names_expandArray {rule : ArrayRule} {op : Operation} {array : ArrayTarget}
    {rest : List Query} {q : Query} (h : expandArray rule op array rest = .ok q) :
    q.names = [] := by
  cases rule with
  | someElement =>
    obtain ⟨values, -, h⟩ := Outcome.bind_eq_ok_iff.1 h
    exact names_perSubvariable (fun _ => rfl) h
  | everyElement =>
    obtain ⟨values, -, h⟩ := Outcome.bind_eq_ok_iff.1 h
    split at h
    · exact names_perSubvariable (fun _ => rfl) h
    · cases h
  | ownTest test =>
    cases h
    rfl
  | undefined => cases h

theorem names_callResolved {op : Operation} {args : List Resolved} {q : Query}
    (hargs : ∀ x ∈ args, x.query.names = []) (h : callResolved op args = .ok q) :
    q.names = [] := by
  unfold callResolved at h
  split at h
  · exact names_expandArray (Outcome.mapError_eq_ok_iff.1 h)
  · cases h
    rw [names, namesAll_eq_nil_iff, List.forall_mem_map]
    exact hargs

variable {lookup : Lookup}

mutual

theorem names_resolveNode : ∀ {q : Query} {x : Resolved},
    (resolveNode lookup q).outcome = .ok x → x.query.names = []
  | .named name, x, h => by
    obtain ⟨m, -, rfl⟩ := resolveNode_named_ok_iff.1 h
    rfl
  | .address _, x, h => by
    cases h
    rfl
  | .value _, x, h => by
    cases h
    rfl
  | .call op args, x, h => by
    obtain ⟨xs, r, hxs, hr, rfl⟩ := resolveNode_call_ok_iff.1 h
    exact names_callResolved (names_resolveNodes hxs) hr
termination_by structural q => q

theorem names_resolveNodes : ∀ {qs : List Query} {xs : List Resolved},
    (resolveNodes lookup qs).outcome = .ok xs → ∀ x ∈ xs, x.query.names = []
  | [], xs, h => by
    cases h
    simp
  | q :: qs, xs, h => by
    cases resolveNodes_ok_iff.1 h with
    | cons hx hxs =>
      exact List.forall_mem_cons.2
        ⟨names_resolveNode hx, names_resolveNodes (resolveNodes_ok_iff.2 hxs)⟩
termination_by structural qs => qs

end

/-! ### Without names there is nothing to resolve -/

/-- Arguments none of which is an array leave their call as it is. -/
theorem callResolved_plain (op : Operation) (args : List Query) :
    callResolved op (args.map fun q => ⟨q, none⟩) = .ok (.call op args) := by
  have hqueries : (args.map fun q => (⟨q, none⟩ : Resolved)).map Resolved.query = args := by
    rw [List.map_map]
    exact List.map_id args
  unfold callResolved
  split
  · rename_i harray
    cases args <;> cases harray
  · rw [hqueries]

mutual

theorem resolveNode_of_names : ∀ {q : Query}, q.names = [] →
    resolveNode lookup q = ⟨[], .ok ⟨q, none⟩⟩
  | .named _, h => by cases h
  | .address _, _ => rfl
  | .value _, _ => rfl
  | .call op args, h => by
    rw [resolveNode, resolveNodes_of_names h, Traced.bind_of_ok rfl, callResolved_plain]
    rfl
termination_by structural q => q

theorem resolveNodes_of_names : ∀ {qs : List Query}, namesAll qs = [] →
    resolveNodes lookup qs = ⟨[], .ok (qs.map fun q => ⟨q, none⟩)⟩
  | [], _ => rfl
  | q :: qs, h => by
    obtain ⟨hq, hqs⟩ := List.append_eq_nil_iff.1 h
    rw [resolveNodes, resolveNode_of_names hq, resolveNodes_of_names hqs]
    rfl
termination_by structural qs => qs

end

/-- Resolution is complete, and whatever is resolved stays as it is: under any look-up,
the one that always fails included, it resolves to itself and asks for nothing. -/
theorem resolve_resolved {q r : Query} (h : (q.resolve lookup).outcome = .ok r) :
    r.hasName = false ∧ r.names = [] ∧ ∀ other : Lookup, r.resolve other = ⟨[], .ok r⟩ := by
  obtain ⟨x, hx, rfl⟩ := resolves_iff.1 h
  have hnames := names_resolveNode hx
  refine ⟨(hasName_eq_false_iff _).2 hnames, hnames, fun other => ?_⟩
  rw [resolve, resolveNode_of_names hnames]
  rfl

/-- An array test and the array itself as an argument, below a conjunction. -/
theorem resolve_resolved_array :
    let lookup := Lookup.ofList
      [("grid", ⟨"/grid", .array [⟨"a", "/grid/a"⟩, ⟨"b", "/grid/b"⟩]⟩), ("age", ⟨"/age", .scalar⟩)]
    let q : Query := .call .and [.call .any [.named "grid", .value (.ints [1, 2])],
      .call .eq [.named "age", .named "grid"]]
    let r : Query := .call .and [.call .or [.call .isIn [.address "/grid/a", .value (.ints [1, 2])],
      .call .isIn [.address "/grid/b", .value (.ints [1, 2])]],
      .call .eq [.address "/age", .address "/grid"]]
    (q.resolve lookup).outcome = .ok r ∧ r.hasName = false ∧ r.names = [] ∧
      ∀ other : Lookup, r.resolve other = ⟨[], .ok r⟩ := by
  intro lookup q r
  have h : (q.resolve lookup).outcome = .ok r := by rfl
  exact ⟨h, resolve_resolved h⟩

end RowFilter.Query
