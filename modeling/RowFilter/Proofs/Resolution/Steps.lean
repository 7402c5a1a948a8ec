import Mathlib.Data.List.Forall2
import RowFilter.Proofs.Outcome
import RowFilter.Resolution.Resolve

/-! What a successful resolution did at each node. A name was answered, the arguments of
a call were resolved one by one, and the call itself was either kept or rewritten under
the rule that its operation has for arrays. -/

namespace RowFilter

namespace Traced

variable {ε δ α β : Type}

theorem outcome_bind (run : Traced ε α) (next : α → Traced ε β) :
    (run >>= next).outcome = run.outcome >>= fun a => (next a).outcome := by
  cases h : run.outcome with
  | ok a => rw [bind_of_ok h]; rfl
  | error e => rw [bind_of_error h]; rfl

theorem outcome_map (run : Traced ε α) (f : α → β) :
    (f <$> run).outcome = run.outcome.map f := by
  have h := outcome_bind run fun a => pure (f a)
  cases hr : run.outcome with
  | ok a => rwa [hr] at h
  | error e => rwa [hr] at h

/-- A run over a list with one step an item succeeds exactly if each step does. -/
theorem outcome_each_ok_iff (step : α → Traced ε β) (each : List α → Traced ε (List β))
    (hnil : each [] = pure [])
    (hcons : ∀ a as, each (a :: as) = do
      let b ← step a
      let bs ← each as
      pure (b :: bs)) {as : List α} {bs : List β} :
    (each as).outcome = .ok bs ↔ List.Forall₂ (fun a b => (step a).outcome = .ok b) as bs := by
  induction as generalizing bs with
  | nil =>
    rw [hnil, outcome_pure, List.forall₂_nil_left_iff]
    simp [eq_comm]
  | cons a as ih =>
    rw [hcons, outcome_bind, Outcome.bind_eq_ok_iff, List.forall₂_cons_left_iff]
    simp only [outcome_bind, Outcome.bind_eq_ok_iff, outcome_pure, ih]
    constructor
    · intro h
      obtain ⟨b, hb, more, hmore, he⟩ := h
      cases he
      exact ⟨b, more, hb, hmore, rfl⟩
    · intro h
      obtain ⟨b, more, hb, hmore, rfl⟩ := h
      exact ⟨b, hb, more, hmore, rfl⟩

end Traced

namespace Query

variable {lookup : Lookup}

/-- The array that a name refers to, if it refers to one. -/
def arrayOf (name : String) (m : Metadata) : Option ArrayTarget :=
  match m.kind with
  | .array subvariables => some ⟨name, m.address, subvariables⟩
  | _ => none

theorem isArray_eq_false {m : Metadata} {name : String} (h : arrayOf name m = none) :
    m.isArray = false := by
  obtain ⟨address, kind⟩ := m
  cases kind <;> first | rfl | cases h

theorem resolveNode_named_ok_iff {name : String} {x : Resolved} :
    (resolveNode lookup (.named name)).outcome = .ok x ↔
      ∃ m, lookup name = .ok m ∧ x = ⟨.address m.address, arrayOf name m⟩ := by
  rw [resolveNode, resolveName, Traced.outcome_bind, Outcome.bind_eq_ok_iff]
  simp only [Traced.mapError, Traced.ask, Outcome.mapError_eq_ok_iff]
  refine exists_congr fun m => and_congr_right fun _ => ?_
  obtain ⟨address, kind⟩ := m
  cases kind <;> simp [arrayOf, eq_comm]

theorem resolveNode_call_ok_iff {op : Operation} {args : List Query} {x : Resolved} :
    (resolveNode lookup (.call op args)).outcome = .ok x ↔
      ∃ xs r, (resolveNodes lookup args).outcome = .ok xs ∧ callResolved op xs = .ok r ∧
        x = ⟨r, none⟩ := by
  rw [resolveNode, Traced.outcome_bind, Outcome.bind_eq_ok_iff]
  simp only [Traced.outcome_bind, Outcome.bind_eq_ok_iff, Traced.ofExcept, Traced.outcome_pure]
  constructor
  · intro h
    obtain ⟨xs, hxs, r, hr, hx⟩ := h
    cases hx
    exact ⟨xs, r, hxs, hr, rfl⟩
  · intro h
    obtain ⟨xs, r, hxs, hr, rfl⟩ := h
    exact ⟨xs, hxs, r, hr, rfl⟩

theorem resolveNodes_ok_iff {args : List Query} {xs : List Resolved} :
    (resolveNodes lookup args).outcome = .ok xs ↔
      List.Forall₂ (fun q x => (resolveNode lookup q).outcome = .ok x) args xs :=
  Traced.outcome_each_ok_iff (resolveNode lookup) (resolveNodes lookup) rfl fun _ _ => rfl

/-- The query resolves to `r`. -/
def Resolves (lookup : Lookup) (q r : Query) : Prop := (q.resolve lookup).outcome = .ok r

theorem resolves_iff {q r : Query} :
    Resolves lookup q r ↔ ∃ x, (resolveNode lookup q).outcome = .ok x ∧ x.query = r := by
  rw [Resolves, resolve, Traced.outcome_map, Outcome.map_eq_ok_iff]

theorem resolves_named_iff {name : String} {r : Query} :
    Resolves lookup (.named name) r ↔ ∃ m, lookup name = .ok m ∧ r = .address m.address := by
  simp only [resolves_iff, resolveNode_named_ok_iff]
  constructor
  · intro h
    obtain ⟨x, ⟨m, hm, rfl⟩, rfl⟩ := h
    exact ⟨m, hm, rfl⟩
  · intro h
    obtain ⟨m, hm, rfl⟩ := h
    exact ⟨_, ⟨m, hm, rfl⟩, rfl⟩

theorem resolves_value_iff {v : Value} {r : Query} :
    Resolves lookup (.value v) r ↔ r = .value v := by
  rw [resolves_iff]
  constructor
  · intro h
    obtain ⟨x, hx, rfl⟩ := h
    cases hx
    rfl
  · rintro rfl
    exact ⟨_, rfl, rfl⟩

/-- Queries resolve one by one exactly if their run succeeds, to the queries of its nodes. -/
theorem forall₂_resolves_iff {args rs : List Query} :
    List.Forall₂ (Resolves lookup) args rs ↔
      ∃ xs, (resolveNodes lookup args).outcome = .ok xs ∧ xs.map Resolved.query = rs := by
  simp only [resolveNodes_ok_iff]
  constructor
  · intro h
    induction h with
    | nil => exact ⟨[], .nil, rfl⟩
    | cons hr _ ih =>
      obtain ⟨x, hx, rfl⟩ := resolves_iff.1 hr
      obtain ⟨xs, hxs, rfl⟩ := ih
      exact ⟨x :: xs, .cons hx hxs, rfl⟩
  · intro h
    obtain ⟨xs, hxs, rfl⟩ := h
    rw [List.forall₂_map_right_iff]
    exact hxs.imp fun q x hx => resolves_iff.2 ⟨x, hx, rfl⟩

/-- Arguments that are values stay as they are. -/
theorem resolveNodes_values (values : List Value) :
    (resolveNodes lookup (values.map .value)).outcome =
      .ok (values.map fun v => ⟨.value v, none⟩) := by
  induction values with
  | nil => rfl
  | cons v vs ih =>
    rw [resolveNodes_ok_iff] at ih ⊢
    exact .cons rfl ih

/-- A fold over the tests of the sub-elements is all that a spread array is. -/
theorem perSubvariable_eq_ok_iff {array : ArrayTarget} {join : Operation} {test : Query → Query}
    {r : Query} :
    perSubvariable array join test = .ok r ↔
      foldRight join (array.subvariables.map fun sub => test (.address sub.address)) = some r := by
  unfold perSubvariable
  split
  · rename_i query hfold
    rw [hfold, Except.ok.injEq, Option.some.injEq]
  · rename_i hfold
    rw [hfold]
    exact iff_of_false nofun nofun

theorem eq_of_listArgument {op : Operation} {v list : Value} {rest : List Query}
    (h : listArgument op (.value v :: rest) = .ok list) : list = v := by
  rw [listArgument] at h
  split at h
  · exact (Except.ok.inj h).symm
  · cases h

/-- An operation without a rule for arrays is kept. -/
theorem resolves_call_iff {op : Operation} (hop : op.arrayRule? = none) {args : List Query}
    {r : Query} :
    Resolves lookup (.call op args) r ↔
      ∃ rs, List.Forall₂ (Resolves lookup) args rs ∧ r = .call op rs := by
  have hkept (xs : List Resolved) : callResolved op xs = .ok (.call op (xs.map Resolved.query)) := by
    unfold callResolved
    rw [hop]
  simp only [resolves_iff, resolveNode_call_ok_iff, forall₂_resolves_iff, hkept]
  constructor
  · intro h
    obtain ⟨x, ⟨xs, r, hxs, hr, rfl⟩, rfl⟩ := h
    cases hr
    exact ⟨_, ⟨xs, hxs, rfl⟩, rfl⟩
  · intro h
    obtain ⟨rs, ⟨xs, hxs, rfl⟩, rfl⟩ := h
    exact ⟨_, ⟨xs, _, hxs, rfl, rfl⟩, rfl⟩

/-- Under a rule the call is rewritten exactly if its first argument is an array. -/
theorem callResolved_cons_ok_iff {op : Operation} {rule : ArrayRule}
    (hop : op.arrayRule? = some rule) {q r : Query} {array? : Option ArrayTarget}
    {xs : List Resolved} :
    callResolved op (⟨q, array?⟩ :: xs) = .ok r ↔
      match array? with
      | some array => expandArray rule op array (xs.map Resolved.query) = .ok r
      | none => r = .call op (q :: xs.map Resolved.query) := by
  unfold callResolved
  rw [hop]
  cases array? with
  | some array => simp only [Outcome.mapError_eq_ok_iff]
  | none => simp only [List.map_cons, Except.ok.injEq, eq_comm]

/-- A call on a name is rewritten under the rule of its operation exactly if the name is
an array. -/
theorem resolves_call_named_iff {op : Operation} {rule : ArrayRule} (hop : op.arrayRule? = some rule)
    {name : String} (values : List Value) {r : Query} :
    Resolves lookup (.call op (.named name :: values.map .value)) r ↔
      ∃ m, lookup name = .ok m ∧
        match arrayOf name m with
        | some array => expandArray rule op array (values.map .value) = .ok r
        | none => r = .call op (.address m.address :: values.map .value) := by
  have hargs (xs : List Resolved) :
      (resolveNodes lookup (.named name :: values.map .value)).outcome = .ok xs ↔
        ∃ m, lookup name = .ok m ∧
          xs = ⟨.address m.address, arrayOf name m⟩ :: values.map fun v => ⟨.value v, none⟩ := by
    simp only [resolveNodes_ok_iff, List.forall₂_cons_left_iff, resolveNode_named_ok_iff]
    simp only [← resolveNodes_ok_iff, resolveNodes_values, Except.ok.injEq]
    constructor
    · intro h
      obtain ⟨x, more, ⟨m, hm, rfl⟩, rfl, rfl⟩ := h
      exact ⟨m, hm, rfl⟩
    · intro h
      obtain ⟨m, hm, rfl⟩ := h
      exact ⟨_, _, ⟨m, hm, rfl⟩, rfl, rfl⟩
  have hqueries : (values.map fun v => (⟨.value v, none⟩ : Resolved)).map Resolved.query =
      values.map .value := by
    rw [List.map_map]
    rfl
  simp only [resolves_iff, resolveNode_call_ok_iff, hargs]
  rw [← hqueries]
  simp only [← callResolved_cons_ok_iff hop]
  constructor
  · intro h
    obtain ⟨x, ⟨xs, r, ⟨m, hm, rfl⟩, hr, rfl⟩, rfl⟩ := h
    exact ⟨m, hm, hr⟩
  · intro h
    obtain ⟨m, hm, hr⟩ := h
    exact ⟨_, ⟨_, r, ⟨m, hm, rfl⟩, hr, rfl⟩, rfl⟩

end Query

end RowFilter
