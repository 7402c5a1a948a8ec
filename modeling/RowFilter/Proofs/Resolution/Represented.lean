import RowFilter.Proofs.Resolution.Calls

/-! What stands for the leaves of a query in its resolution. A name is represented by its
address, an address and a value by themselves; where an array is spread, each of its
sub-elements stands for it, and the one element for the list of `all`. All of these stand in the
resolved query, each at a place of its own and in their order, exactly if no call on an array has
a leaf behind the arguments that its rule reads. -/

namespace RowFilter.Query

open List (Sublist)

/-- The names, addresses and values in a query from left to right. -/
def leaves (q : Query) : List Query := q.parts.filter fun p => !p.isCall

/-- What the first arguments of a call are spread to, if it is on an array that is tested by its
sub-elements. -/
def spread (lookup : Lookup) (op : Operation) (args : List Query) : List (List Query) :=
  match arrayArgument? lookup args with
  | some array =>
    let elements := array.subvariables.map fun sub => .address sub.address
    match op with
    | .any => [elements]
    | .all => [elements, ((listSecond? args).bind Value.single?).toList.map .value]
    | _ => []
  | none => []

mutual

/-- What stands for the leaves of the query, in their order. -/
def images (lookup : Lookup) : Query → List Query
  | .named name => match lookup name with
    | .ok m => [.address m.address]
    | .error _ => []
  | .address text => [.address text]
  | .value v => [.value v]
  | .call op args => (spread lookup op args ++
      (imagesEach lookup args).drop (spread lookup op args).length).flatten
termination_by structural q => q

def imagesEach (lookup : Lookup) : List Query → List (List Query)
  | [] => []
  | q :: qs => images lookup q :: imagesEach lookup qs
termination_by structural qs => qs

end

/-- The arguments of a call on an array behind those that its rule reads. -/
def surplus (lookup : Lookup) (op : Operation) (args : List Query) : List Query :=
  match arrayArgument? lookup args with
  | some _ => match op with
    | .any | .all => args.drop 2
    | .isValid | .isMissing => args.drop 1
    | _ => []
  | none => []

/-- The surplus of the call has no leaf. -/
def NoSurplus (lookup : Lookup) (op : Operation) (args : List Query) : Prop :=
  ∀ q ∈ surplus lookup op args, q.leaves = []

/-- In what was found there is all that was needed, if it is `whole`, and nothing to spare:
what follows the needed has to be found behind, and further behind if it is not whole. -/
structure Accounts (whole : Prop) (needed found : List Query) : Prop where
  kept : whole → Sublist needed found
  used : ∀ {more behind}, Sublist (needed ++ more) (found ++ behind) → Sublist more behind
  late : ∀ {q more behind}, Sublist (q :: (needed ++ more)) (found ++ behind) →
    ∃ p, Sublist (p :: more) behind
  lost : ¬ whole → ∀ {more behind}, Sublist (needed ++ more) (found ++ behind) →
    ∃ p, Sublist (p :: more) behind

variable {lookup : Lookup} {q r : Query} {args qs : List Query} {op : Operation}

/-! ### Accounts -/

namespace Accounts

variable {whole whole' : Prop} {needed needed' found found' : List Query}

theorem nil : Accounts True [] [] where
  kept _ := .slnil
  used h := h
  late h := ⟨_, h⟩
  lost h := absurd trivial h

theorem leaf (q : Query) : Accounts True [q] [q] where
  kept _ := .refl _
  used h := List.cons_sublist_cons.1 h
  late h := ⟨q, h.tail⟩
  lost h := absurd trivial h

theorem append (h : Accounts whole needed found) (h' : Accounts whole' needed' found') :
    Accounts (whole ∧ whole') (needed ++ needed') (found ++ found') where
  kept hwhole := (h.kept hwhole.1).append (h'.kept hwhole.2)
  used hsub := by
    rw [List.append_assoc, List.append_assoc] at hsub
    exact h'.used (h.used hsub)
  late hsub := by
    rw [List.append_assoc, List.append_assoc] at hsub
    obtain ⟨p, hp⟩ := h.late hsub
    exact h'.late hp
  lost hnot more behind hsub := by
    rw [List.append_assoc, List.append_assoc] at hsub
    by_cases hwhole : whole
    · exact h'.lost (fun hwhole' => hnot ⟨hwhole, hwhole'⟩) (h.used hsub)
    · obtain ⟨p, hp⟩ := h.lost hwhole hsub
      exact h'.late hp

theorem of_iff (h : Accounts whole needed found) (hiff : whole ↔ whole') :
    Accounts whole' needed found := by
  rwa [← propext hiff]

/-- What is needed beyond the found is lost. -/
theorem beyond (h : Accounts True needed found) (extra : List Query) :
    Accounts (extra = []) (needed ++ extra) found where
  kept hextra := by
    rw [hextra, List.append_nil]
    exact h.kept trivial
  used hsub := by
    rw [List.append_assoc] at hsub
    exact (List.sublist_append_right _ _).trans (h.used hsub)
  late hsub := by
    rw [List.append_assoc] at hsub
    obtain ⟨p, hp⟩ := h.late hsub
    exact ⟨p, ((List.sublist_append_right _ _).cons_cons p).trans hp⟩
  lost hextra more behind hsub := by
    rw [List.append_assoc] at hsub
    obtain ⟨p, extra, rfl⟩ := List.exists_cons_of_ne_nil hextra
    exact ⟨p, ((List.sublist_append_right _ _).cons_cons p).trans (h.used hsub)⟩

theorem sublist_iff (h : Accounts whole needed found) : Sublist needed found ↔ whole := by
  refine ⟨fun hsub => ?_, h.kept⟩
  by_contra hnot
  have hsub : Sublist (needed ++ []) (found ++ []) := by simpa using hsub
  obtain ⟨p, hp⟩ := h.lost hnot hsub
  cases hp

/-- Something found in between is passed over if it is not what is needed next. -/
theorem skip {first next between : Query} (h : Accounts whole (next :: needed) found)
    (hfirst : first ≠ between) (hnext : next ≠ between) :
    Accounts whole (first :: next :: needed) (first :: between :: found) where
  kept hwhole := ((h.kept hwhole).cons between).cons_cons first
  used hsub := h.used ((List.cons_sublist_cons.1 hsub).of_cons_of_ne hnext)
  late hsub := h.late (hsub.tail.of_cons_of_ne hfirst)
  lost hnot _ _ hsub := h.lost hnot ((List.cons_sublist_cons.1 hsub).of_cons_of_ne hnext)

/-- The tests of the sub-elements hold each of them, and the value once behind them all. -/
theorem tests {subs : List Subvariable} (hsubs : subs ≠ []) (v : Value) :
    Accounts True ((subs.map fun sub => .address sub.address) ++ [.value v])
      (subs.flatMap fun sub => [.address sub.address, .value v]) := by
  induction subs with
  | nil => exact absurd rfl hsubs
  | cons sub subs ih =>
    cases subs with
    | nil => exact ((leaf _).append (leaf _)).of_iff (and_self_iff)
    | cons next subs => exact (ih (List.cons_ne_nil _ _)).skip nofun nofun

end Accounts

/-! ### Leaves and images -/

theorem partsAll_eq_flatMap (qs : List Query) : partsAll qs = qs.flatMap parts := by
  induction qs with
  | nil => rfl
  | cons q qs ih => rw [partsAll, ih, List.flatMap_cons]

theorem leaves_call (op : Operation) (args : List Query) :
    (call op args).leaves = args.flatMap leaves := by
  have hself : (call op args :: args.flatMap parts).filter (fun p => !p.isCall) =
      (args.flatMap parts).filter fun p => !p.isCall := rfl
  rw [leaves, parts, partsAll_eq_flatMap, hself, List.filter_flatMap]
  rfl

/-- A fold has the leaves of its members. -/
theorem leaves_foldRight {join : Operation} (h : foldRight join qs = some r) :
    r.leaves = qs.flatMap leaves := by
  induction qs generalizing r with
  | nil => cases h
  | cons first more ih =>
    rw [foldRight] at h
    cases hrest : foldRight join more with
    | none =>
      rw [hrest] at h
      cases h
      rw [foldRight_eq_none_iff.1 hrest]
      exact (List.append_nil _).symm
    | some rest =>
      rw [hrest] at h
      cases h
      rw [leaves_call, List.flatMap_cons, List.flatMap_cons, List.flatMap_cons, ih hrest]
      simp

theorem leaves_tests {subs : List Subvariable} {join test : Operation} {v : Value}
    (h : foldRight join (subs.map fun sub => call test [.address sub.address, .value v]) = some r) :
    r.leaves = subs.flatMap fun sub => [.address sub.address, .value v] := by
  rw [leaves_foldRight h, List.flatMap_map]
  rfl

/-- A call on an array with a list of values. -/
theorem exists_args_of_list {array : ArrayTarget} {v : Value}
    (harray : arrayArgument? lookup args = some array) (hlist : listSecond? args = some v) :
    ∃ rest, args = .named array.name :: .value v :: rest := by
  obtain ⟨_, hargs, -⟩ := arrayArgument?_eq_some_iff.1 harray
  obtain ⟨_, rest, rfl, -⟩ := listSecond?_eq_some_iff.1 hlist
  cases hargs
  exact ⟨rest, rfl⟩

theorem images_any {array : ArrayTarget} {v : Value} {rest : List Query}
    (harray : arrayArgument? lookup args = some array)
    (hargs : args = .named array.name :: .value v :: rest) :
    images lookup (.call .any args) =
      ((array.subvariables.map fun sub => .address sub.address) ++ [.value v]) ++
        (imagesEach lookup rest).flatten := by
  rw [images, spread, harray, hargs]
  simp [imagesEach, images]

theorem images_all {array : ArrayTarget} {v w : Value} {rest : List Query}
    (harray : arrayArgument? lookup args = some array) (hlist : listSecond? args = some v)
    (hsingle : v.single? = some w) (hargs : args = .named array.name :: .value v :: rest) :
    images lookup (.call .all args) =
      ((array.subvariables.map fun sub => .address sub.address) ++ [.value w]) ++
        (imagesEach lookup rest).flatten := by
  rw [images, spread, harray, hlist, hargs]
  simp [imagesEach, hsingle]

/-- A call that is not spread is represented by what represents its arguments. -/
theorem images_of_spread (h : spread lookup op args = []) :
    images lookup (.call op args) = (imagesEach lookup args).flatten := by
  rw [images, h]
  rfl

/-- An array with a test of its own is not spread. -/
theorem spread_of_ownTest {test : Operation} (h : op.arrayRule? = some (.ownTest test)) :
    spread lookup op args = [] := by
  unfold spread
  cases arrayArgument? lookup args with
  | some array => cases op <;> cases h <;> rfl
  | none => rfl

/-- What is kept is not spread, and has no surplus. -/
theorem spread_of_kept (h : op.arrayRule? = none ∨ arrayArgument? lookup args = none) :
    spread lookup op args = [] ∧ surplus lookup op args = [] := by
  unfold spread surplus
  rcases h with hrule | harray
  · cases arrayArgument? lookup args <;> cases op <;> cases hrule <;> exact ⟨rfl, rfl⟩
  · rw [harray]
    exact ⟨rfl, rfl⟩

theorem mem_of_mem_surplus (h : q ∈ surplus lookup op args) : q ∈ args := by
  unfold surplus at h
  split at h
  · split at h
    iterate 4 exact List.mem_of_mem_drop h
    cases h
  · cases h

mutual

/-- A call without leaves in its arguments has none in its surplus. -/
theorem noSurplus_of_leaves : ∀ {q : Query}, q.leaves = [] →
    EveryCall (NoSurplus lookup) q.parts
  | .named _, h => by cases h
  | .address _, h => by cases h
  | .value _, h => by cases h
  | .call op args, h => by
    rw [leaves_call, List.flatMap_eq_nil_iff] at h
    rw [parts, everyCall_cons]
    exact ⟨fun q hq => h q (mem_of_mem_surplus hq), noSurplusAll_of_leaves h⟩
termination_by structural q => q

theorem noSurplusAll_of_leaves : ∀ {qs : List Query}, (∀ q ∈ qs, q.leaves = []) →
    EveryCall (NoSurplus lookup) (partsAll qs)
  | [], _ => everyCall_nil
  | q :: qs, h => by
    obtain ⟨hq, hqs⟩ := List.forall_mem_cons.1 h
    exact everyCall_append.2 ⟨noSurplus_of_leaves hq, noSurplusAll_of_leaves hqs⟩
termination_by structural qs => qs

end

/-! ### Resolved queries -/

mutual

/-- What has leaves is represented, if it is resolved: no array is spread to nothing. -/
theorem images_eq_nil_iff : ∀ {q : Query} {x : Resolved},
    (resolveNode lookup q).outcome = .ok x → (images lookup q = [] ↔ q.leaves = [])
  | .named name, x, h => by
    obtain ⟨m, hm, -⟩ := resolveNode_named_ok_iff.1 h
    rw [images, hm]
    exact iff_of_false (List.cons_ne_nil _ _) (List.cons_ne_nil _ _)
  | .address _, _, _ => iff_of_false (List.cons_ne_nil _ _) (List.cons_ne_nil _ _)
  | .value _, _, _ => iff_of_false (List.cons_ne_nil _ _) (List.cons_ne_nil _ _)
  | .call op args, x, h => by
    obtain ⟨xs, r, hxs, hr, -⟩ := resolveNode_call_ok_iff.1 h
    have hstep := callStep_of_resolveNodes op hxs
    rw [hr] at hstep
    rw [leaves_call]
    cases hstep with
    | kept hkept =>
      rw [images_of_spread (spread_of_kept hkept).1]
      exact imagesEach_eq_nil_iff hxs
    | someElement harray hlist hfold =>
      obtain ⟨rest, hargs⟩ := exists_args_of_list harray hlist
      rw [images_any harray hargs, hargs]
      exact iff_of_false (by simp) (List.cons_ne_nil _ _)
    | everyElement harray hlist hsingle hfold =>
      obtain ⟨rest, hargs⟩ := exists_args_of_list harray hlist
      rw [images_all harray hlist hsingle hargs, hargs]
      exact iff_of_false (by simp) (List.cons_ne_nil _ _)
    | ownTest harray hrule =>
      rw [images_of_spread (spread_of_ownTest hrule)]
      exact imagesEach_eq_nil_iff hxs
termination_by structural q => q

theorem imagesEach_eq_nil_iff : ∀ {qs : List Query} {xs : List Resolved},
    (resolveNodes lookup qs).outcome = .ok xs →
    ((imagesEach lookup qs).flatten = [] ↔ qs.flatMap leaves = [])
  | [], _, _ => Iff.rfl
  | q :: qs, xs, h => by
    cases resolveNodes_ok_iff.1 h with
    | cons hx hxs =>
      rw [imagesEach, List.flatten_cons, List.flatMap_cons, List.append_eq_nil_iff,
        List.append_eq_nil_iff, images_eq_nil_iff hx,
        imagesEach_eq_nil_iff (resolveNodes_ok_iff.2 hxs)]
termination_by structural qs => qs

end

/-- Behind what is no call, the rest of the arguments is all there is to lose. -/
theorem imagesEach_surplus_iff {front rest : List Query} {xs : List Resolved}
    (hfront : ∀ q ∈ front, q.isCall = false)
    (hrest : (resolveNodes lookup rest).outcome = .ok xs) :
    (imagesEach lookup rest).flatten = [] ↔
      (∀ q ∈ rest, q.leaves = []) ∧ EveryCall (NoSurplus lookup) (partsAll (front ++ rest)) := by
  rw [imagesEach_eq_nil_iff hrest, List.flatMap_eq_nil_iff]
  refine ⟨fun h => ⟨h, ?_⟩, And.left⟩
  rw [partsAll_eq_flatMap, List.flatMap_append, ← partsAll_eq_flatMap, ← partsAll_eq_flatMap,
    everyCall_append]
  exact ⟨everyCall_front hfront, noSurplusAll_of_leaves h⟩

theorem exists_resolved_rest {front rest : List Query} {xs : List Resolved}
    (h : (resolveNodes lookup (front ++ rest)).outcome = .ok xs) :
    ∃ ys, (resolveNodes lookup rest).outcome = .ok ys := by
  induction front generalizing xs with
  | nil => exact ⟨xs, h⟩
  | cons q front ih =>
    cases resolveNodes_ok_iff.1 h with
    | cons _ hxs => exact ih (resolveNodes_ok_iff.2 hxs)

/-- A call on an array keeps what its rule reads, `front`, and loses what is behind. -/
theorem Accounts.surplus {needed found rest : List Query} {xs : List Resolved}
    (h : Accounts True needed found) (front : List Query)
    (hfront : ∀ q ∈ front, q.isCall = false)
    (hsurplus : surplus lookup op (front ++ rest) = rest)
    (hxs : (resolveNodes lookup (front ++ rest)).outcome = .ok xs) :
    Accounts (EveryCall (NoSurplus lookup) (call op (front ++ rest)).parts)
      (needed ++ (imagesEach lookup rest).flatten) found := by
  obtain ⟨ys, hys⟩ := exists_resolved_rest hxs
  refine (h.beyond _).of_iff ?_
  rw [imagesEach_surplus_iff hfront hys, parts, everyCall_cons, NoSurplus, hsurplus]

theorem accounts_callResolved {xs : List Resolved}
    (h : Accounts (EveryCall (NoSurplus lookup) (partsAll args)) (imagesEach lookup args).flatten
      (xs.flatMap fun x => x.query.leaves))
    (hxs : (resolveNodes lookup args).outcome = .ok xs) (hr : callResolved op xs = .ok r) :
    Accounts (EveryCall (NoSurplus lookup) (call op args).parts)
      (images lookup (.call op args)) r.leaves := by
  have hstep := callStep_of_resolveNodes op hxs
  rw [hr] at hstep
  cases hstep with
  | kept hkept =>
    obtain ⟨hspread, hsurplus⟩ := spread_of_kept hkept
    rw [images_of_spread hspread, leaves_call, List.flatMap_map]
    refine h.of_iff ?_
    rw [parts, everyCall_cons, NoSurplus, hsurplus]
    exact (and_iff_right (List.forall_mem_nil _)).symm
  | @someElement array v _ harray hlist hfold =>
    obtain ⟨rest, rfl⟩ := exists_args_of_list harray hlist
    rw [images_any harray rfl, leaves_tests hfold]
    refine (Accounts.tests (subvariables_ne_nil hfold) v).surplus [.named array.name, .value v]
      (by simp [isCall]) ?_ hxs
    rw [List.cons_append, List.singleton_append, surplus, harray]
    rfl
  | @everyElement array v w _ harray hlist hsingle hfold =>
    obtain ⟨rest, rfl⟩ := exists_args_of_list harray hlist
    rw [images_all harray hlist hsingle rfl, leaves_tests hfold]
    refine (Accounts.tests (subvariables_ne_nil hfold) w).surplus [.named array.name, .value v]
      (by simp [isCall]) ?_ hxs
    rw [List.cons_append, List.singleton_append, surplus, harray]
    rfl
  | @ownTest _ test array harray hrule =>
    obtain ⟨rest, rfl, hm⟩ := arrayArgument?_eq_some_iff.1 harray
    rw [images_of_spread (spread_of_ownTest hrule), imagesEach, images, hm, List.flatten_cons]
    refine (Accounts.leaf (.address array.address)).surplus [.named array.name]
      (by simp [isCall]) ?_ hxs
    rw [List.singleton_append]
    cases op <;> cases hrule <;> rw [surplus, harray] <;> rfl

mutual

theorem accounts_resolveNode : ∀ {q : Query} {x : Resolved},
    (resolveNode lookup q).outcome = .ok x →
    Accounts (EveryCall (NoSurplus lookup) q.parts) (images lookup q) x.query.leaves
  | .named name, x, h => by
    obtain ⟨m, hm, rfl⟩ := resolveNode_named_ok_iff.1 h
    rw [images, hm]
    exact (Accounts.leaf _).of_iff (iff_of_true trivial (everyCall_leaf (.named name) nofun))
  | .address text, x, h => by
    cases h
    exact (Accounts.leaf _).of_iff (iff_of_true trivial (everyCall_leaf (.address text) nofun))
  | .value v, x, h => by
    cases h
    exact (Accounts.leaf _).of_iff (iff_of_true trivial (everyCall_leaf (.value v) nofun))
  | .call op args, x, h => by
    obtain ⟨xs, r, hxs, hr, rfl⟩ := resolveNode_call_ok_iff.1 h
    exact accounts_callResolved (accounts_resolveNodes hxs) hxs hr
termination_by structural q => q

theorem accounts_resolveNodes : ∀ {qs : List Query} {xs : List Resolved},
    (resolveNodes lookup qs).outcome = .ok xs →
    Accounts (EveryCall (NoSurplus lookup) (partsAll qs)) (imagesEach lookup qs).flatten
      (xs.flatMap fun x => x.query.leaves)
  | [], xs, h => by
    cases h
    exact Accounts.nil.of_iff (iff_of_true trivial everyCall_nil)
  | q :: qs, xs, h => by
    cases resolveNodes_ok_iff.1 h with
    | cons hx hxs =>
      exact ((accounts_resolveNode hx).append
        (accounts_resolveNodes (resolveNodes_ok_iff.2 hxs))).of_iff everyCall_append.symm
termination_by structural qs => qs

end

/-- The calls of a filter have no arguments in excess. -/
theorem Symbolic.noSurplus (h : Symbolic q) : EveryCall (NoSurplus lookup) q.parts := by
  intro op args hmem p hp
  have harity := (h _ hmem).2 op args rfl
  have hexact {n : Nat} (hn : some n = some args.length) (hp : p ∈ args.drop n) :
      p.leaves = [] := by
    rw [List.drop_of_length_le (Nat.le_of_eq (Option.some.inj hn).symm)] at hp
    cases hp
  unfold surplus at hp
  split at hp
  · split at hp
    iterate 4 exact hexact harity hp
    cases hp
  · cases hp

/-- All that stands for the leaves of a query stands in its resolution, each at a place of its
own and in their order, exactly if no call on an array has a leaf in its surplus. No query of a
filter has such a call. -/
theorem images_sublist_iff (h : (q.resolve lookup).outcome = .ok r) :
    (Sublist (images lookup q) r.leaves ↔ EveryCall (NoSurplus lookup) q.parts) ∧
      (IsPredicate q → Sublist (images lookup q) r.leaves) := by
  obtain ⟨x, hx, rfl⟩ := resolves_iff.1 h
  have haccounts := accounts_resolveNode hx
  exact ⟨haccounts.sublist_iff, fun hq => haccounts.kept hq.symbolic.noSurplus⟩

/-- Two arrays that are spread, and an array and a name that stand for themselves. -/
theorem images_sublist_spread :
    let lookup := Lookup.ofList
      [("grid", ⟨"/grid", .array [⟨"a", "/grid/a"⟩, ⟨"b", "/grid/b"⟩]⟩), ("age", ⟨"/age", .scalar⟩)]
    let q : Query := .call .or [.call .any [.named "grid", .value (.ints [1, 2])],
      .call .and [.call .not [.call .all [.named "grid", .value (.strs ["x"])]],
        .call .eq [.named "age", .named "grid"]]]
    let r : Query := .call .or [.call .or [.call .isIn [.address "/grid/a", .value (.ints [1, 2])],
        .call .isIn [.address "/grid/b", .value (.ints [1, 2])]],
      .call .and [.call .not [.call .and [.call .eq [.address "/grid/a", .value (.str "x")],
          .call .eq [.address "/grid/b", .value (.str "x")]]],
        .call .eq [.address "/age", .address "/grid"]]]
    (q.resolve lookup).outcome = .ok r ∧ IsPredicate q ∧
      EveryCall (NoSurplus lookup) q.parts ∧ Sublist (images lookup q) r.leaves := by
  intro lookup q r
  have h : (q.resolve lookup).outcome = .ok r := by rfl
  have hq : IsPredicate q :=
    .or (.listTest "grid" (by simp) rfl nofun) (.and (.not (.listTest "grid" (by simp) rfl nofun))
      (.comparison (by simp) (.named "age") (.named "grid")))
  have hkept := (images_sublist_iff h).2 hq
  exact ⟨h, hq, (images_sublist_iff h).1.1 hkept, hkept⟩

/-- The test of an array for validity drops a second name, though the look-up answers it. -/
theorem surplus_is_dropped :
    let lookup := Lookup.ofList
      [("grid", ⟨"/grid", .array [⟨"a", "/grid/a"⟩]⟩), ("age", ⟨"/age", .scalar⟩)]
    let q : Query := .call .isValid [.named "grid", .named "age"]
    let r : Query := .call .allValid [.address "/grid"]
    (q.resolve lookup).outcome = .ok r ∧ lookup "age" = .ok ⟨"/age", .scalar⟩ ∧
      images lookup q = [.address "/grid", .address "/age"] ∧ .address "/age" ∉ r.leaves := by
  intro lookup q r
  have hleaves : r.leaves = [.address "/grid"] := rfl
  refine ⟨rfl, rfl, rfl, ?_⟩
  simp [hleaves]

end RowFilter.Query
