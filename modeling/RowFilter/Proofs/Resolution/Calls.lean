import RowFilter.Proofs.Canonical.Predicate
import RowFilter.Proofs.Resolution.Steps

/-! What becomes of a call, told by the call itself. Whether it is on an array and with which
list is read off its arguments as they were written; what they resolve to is needed only where
the call is kept. -/

namespace RowFilter.Query

/-- The array that the first argument names, if it names one. -/
def arrayArgument? (lookup : Lookup) : List Query → Option ArrayTarget
  | .named name :: _ => match lookup name with
    | .ok m => arrayOf name m
    | .error _ => none
  | _ => none

/-- The second argument, if it is a list of values. -/
def listSecond? : List Query → Option Value
  | _ :: .value v :: _ => if v.isList then some v else none
  | _ => none

def isCall : Query → Bool
  | .call _ _ => true
  | _ => false

/-- Every call among the queries has the property. -/
def EveryCall (P : Operation → List Query → Prop) (qs : List Query) : Prop :=
  ∀ op args, .call op args ∈ qs → P op args

/-- How a call ends whose arguments resolve to `rs`. -/
inductive CallStep (lookup : Lookup) (args rs : List Query) :
    Operation → Except ResolveError Query → Prop
  | kept {op : Operation} : op.arrayRule? = none ∨ arrayArgument? lookup args = none →
    CallStep lookup args rs op (.ok (.call op rs))
  | someElement {array : ArrayTarget} {v : Value} {r : Query} :
    arrayArgument? lookup args = some array → listSecond? args = some v →
    foldRight .or (array.subvariables.map fun sub => .call .isIn [.address sub.address, .value v]) =
      some r →
    CallStep lookup args rs .any (.ok r)
  | everyElement {array : ArrayTarget} {v w : Value} {r : Query} :
    arrayArgument? lookup args = some array → listSecond? args = some v → v.single? = some w →
    foldRight .and (array.subvariables.map fun sub => .call .eq [.address sub.address, .value w]) =
      some r →
    CallStep lookup args rs .all (.ok r)
  | ownTest {op test : Operation} {array : ArrayTarget} :
    arrayArgument? lookup args = some array → op.arrayRule? = some (.ownTest test) →
    CallStep lookup args rs op (.ok (.call test [.address array.address]))
  | undefined {op : Operation} {array : ArrayTarget} :
    arrayArgument? lookup args = some array → op.arrayRule? = some .undefined →
    CallStep lookup args rs op (.error (.invalidArrayOperation array.name (.undefined op)))
  | needsList {op : Operation} {array : ArrayTarget} :
    op ∈ [.any, .all] → arrayArgument? lookup args = some array → listSecond? args = none →
    CallStep lookup args rs op (.error (.invalidArrayOperation array.name (.needsList op)))
  | needsSingleTarget {array : ArrayTarget} {v : Value} :
    arrayArgument? lookup args = some array → listSecond? args = some v → v.single? = none →
    CallStep lookup args rs .all (.error (.invalidArrayOperation array.name .needsSingleTarget))
  | noSubvariables {op : Operation} {array : ArrayTarget} {v : Value} :
    op ∈ [.any, .all] → arrayArgument? lookup args = some array → array.subvariables = [] →
    listSecond? args = some v → (op = .all → v.single?.isSome = true) →
    CallStep lookup args rs op (.error (.invalidArrayOperation array.name .noSubvariables))

variable {lookup : Lookup} {q r : Query} {args qs rs : List Query}

section

variable {P : Operation → List Query → Prop}

theorem everyCall_nil : EveryCall P [] := by
  intro op args h
  cases h

theorem everyCall_append {more : List Query} :
    EveryCall P (qs ++ more) ↔ EveryCall P qs ∧ EveryCall P more := by
  simp only [EveryCall, List.mem_append]
  constructor
  · intro h
    exact ⟨fun op args hmem => h op args (.inl hmem), fun op args hmem => h op args (.inr hmem)⟩
  · intro h op args hmem
    exact hmem.elim (h.1 op args) (h.2 op args)

theorem everyCall_cons {op : Operation} :
    EveryCall P (.call op args :: qs) ↔ P op args ∧ EveryCall P qs := by
  constructor
  · intro h
    exact ⟨h op args List.mem_cons_self,
      fun op args hmem => h op args (List.mem_cons_of_mem _ hmem)⟩
  · intro h op' args' hmem
    rcases List.mem_cons.1 hmem with heq | hmem
    · cases heq
      exact h.1
    · exact h.2 op' args' hmem

theorem everyCall_leaf (q : Query) (hcall : ∀ op args, q ≠ .call op args) : EveryCall P [q] :=
  fun op args hmem => absurd (List.mem_singleton.1 hmem).symm (hcall op args)

/-- Arguments that are no calls have no calls in them. -/
theorem everyCall_front {front : List Query}
    (h : ∀ q ∈ front, q.isCall = false) : EveryCall P (partsAll front) := by
  induction front with
  | nil => exact everyCall_nil
  | cons q front ih =>
    obtain ⟨hq, hfront⟩ := List.forall_mem_cons.1 h
    refine everyCall_append.2 ⟨?_, ih hfront⟩
    cases q with
    | named | address | value => exact everyCall_leaf _ nofun
    | call => cases hq

end

/-! ### What the arguments say -/

theorem arrayArgument?_eq_some_iff {array : ArrayTarget} :
    arrayArgument? lookup args = some array ↔ ∃ rest, args = .named array.name :: rest ∧
      lookup array.name = .ok ⟨array.address, .array array.subvariables⟩ := by
  constructor
  · intro h
    unfold arrayArgument? at h
    split at h
    · rename_i name rest
      split at h
      · rename_i m hm
        obtain ⟨address, kind⟩ := m
        cases kind <;> cases h
        exact ⟨rest, rfl, hm⟩
      · cases h
    · cases h
  · intro h
    obtain ⟨rest, rfl, hm⟩ := h
    rw [arrayArgument?, hm]
    rfl

theorem listSecond?_eq_some_iff {v : Value} :
    listSecond? args = some v ↔
      ∃ first more, args = first :: .value v :: more ∧ v.isList = true := by
  unfold listSecond?
  split
  · rename_i first w more
    constructor
    · intro h
      split at h
      · rename_i hlist
        cases h
        exact ⟨first, more, rfl, hlist⟩
      · cases h
    · intro h
      obtain ⟨_, _, hargs, hlist⟩ := h
      cases hargs
      rw [if_pos hlist]
  · rename_i hno
    constructor
    · intro h
      cases h
    · intro h
      obtain ⟨first, more, rfl, -⟩ := h
      exact absurd rfl (hno first v more)

theorem array_eq_arrayArgument? {x : Resolved} (h : (resolveNode lookup q).outcome = .ok x)
    (qs : List Query) : x.array = arrayArgument? lookup (q :: qs) := by
  cases q with
  | named name =>
    obtain ⟨m, hm, rfl⟩ := resolveNode_named_ok_iff.1 h
    rw [arrayArgument?, hm]
  | address | value =>
    cases h
    rfl
  | call op args =>
    obtain ⟨_, _, -, -, rfl⟩ := resolveNode_call_ok_iff.1 h
    rfl

/-- A fold of calls is a call. -/
theorem exists_call_of_foldRight {join : Operation} (h : foldRight join qs = some r)
    (hqs : ∀ q ∈ qs, ∃ op args, q = .call op args) : ∃ op args, r = .call op args := by
  cases qs with
  | nil => cases h
  | cons q qs =>
    rw [foldRight] at h
    split at h
    · cases h
      exact hqs _ List.mem_cons_self
    · cases h
      exact ⟨_, _, rfl⟩

theorem subvariables_ne_nil {subs : List Subvariable} {join : Operation} {r : Query}
    {test : Subvariable → Query} (h : foldRight join (subs.map test) = some r) : subs ≠ [] := by
  rintro rfl
  cases h

/-- An array is spread to calls, so no call resolves to a value. -/
theorem exists_call_of_resolves {op : Operation} (h : Resolves lookup (.call op args) r) :
    ∃ op args, r = .call op args := by
  obtain ⟨x, hx, rfl⟩ := resolves_iff.1 h
  obtain ⟨xs, r, -, hr, rfl⟩ := resolveNode_call_ok_iff.1 hx
  unfold callResolved at hr
  split at hr
  · rename_i rule query array rest hrule
    have hr := Outcome.mapError_eq_ok_iff.1 hr
    cases rule with
    | someElement =>
      obtain ⟨v, -, hr⟩ := Outcome.bind_eq_ok_iff.1 hr
      refine exists_call_of_foldRight (perSubvariable_eq_ok_iff.1 hr) ?_
      exact List.forall_mem_map.2 fun sub _ => ⟨_, _, rfl⟩
    | everyElement =>
      obtain ⟨v, -, hr⟩ := Outcome.bind_eq_ok_iff.1 hr
      split at hr
      · refine exists_call_of_foldRight (perSubvariable_eq_ok_iff.1 hr) ?_
        exact List.forall_mem_map.2 fun sub _ => ⟨_, _, rfl⟩
      · cases hr
    | ownTest test =>
      cases hr
      exact ⟨_, _, rfl⟩
    | undefined => cases hr
  · cases hr
    exact ⟨_, _, rfl⟩

theorem eq_value_of_resolves {v : Value} (h : Resolves lookup q (.value v)) : q = .value v := by
  cases q with
  | named name =>
    obtain ⟨_, -, hr⟩ := resolves_named_iff.1 h
    cases hr
  | address text => cases h
  | value w => rw [resolves_value_iff.1 h]
  | call op args =>
    obtain ⟨_, _, hr⟩ := exists_call_of_resolves h
    cases hr

/-- The list is found behind the array whether the arguments are resolved or not. -/
theorem listArgument_eq (op : Operation) (q : Query) (h : List.Forall₂ (Resolves lookup) qs rs) :
    listArgument op rs = match listSecond? (q :: qs) with
      | some v => .ok v
      | none => .error (.needsList op) := by
  cases h with
  | nil => rfl
  | @cons second _ _ _ hsecond hmore =>
    cases second with
    | value v =>
      obtain rfl := resolves_value_iff.1 hsecond
      rw [listArgument, listSecond?]
      split <;> rfl
    | named | address | call =>
      unfold listArgument
      split
      · rename_i hvalue
        cases hvalue
        cases eq_value_of_resolves hsecond
      · rfl

/-! ### The step -/

/-- A call on an array succeeds, or one of its rules is broken. -/
theorem callStep_of_array {op : Operation} {rule : ArrayRule} {array : ArrayTarget}
    {rest : List Query} (hop : op.arrayRule? = some rule)
    (harray : arrayArgument? lookup args = some array)
    (hlist : listArgument op rest = match listSecond? args with
      | some v => .ok v
      | none => .error (.needsList op)) :
    CallStep lookup args rs op
      ((expandArray rule op array rest).mapError (.invalidArrayOperation array.name)) := by
  have hhollow {test : Subvariable → Query} {join : Operation}
      (h : foldRight join (array.subvariables.map test) = none) : array.subvariables = [] :=
    List.map_eq_nil_iff.1 (foldRight_eq_none_iff.1 h)
  cases op <;> cases hop
  case any =>
    rw [expandArray, hlist]
    cases hsecond : listSecond? args with
    | none => exact .needsList (by simp) harray hsecond
    | some v =>
      simp only [bind, Except.bind]
      unfold perSubvariable
      split
      · rename_i hfold
        exact .someElement harray hsecond hfold
      · rename_i hfold
        refine .noSubvariables (by simp) harray (hhollow hfold) hsecond fun h => ?_
        cases h
  case all =>
    rw [expandArray, hlist]
    cases hsecond : listSecond? args with
    | none => exact .needsList (by simp) harray hsecond
    | some v =>
      cases hsingle : v.single? with
      | none =>
        simp only [bind, Except.bind, hsingle]
        exact .needsSingleTarget harray hsecond hsingle
      | some w =>
        simp only [bind, Except.bind, hsingle]
        unfold perSubvariable
        split
        · rename_i hfold
          exact .everyElement harray hsecond hsingle hfold
        · rename_i hfold
          exact .noSubvariables (by simp) harray (hhollow hfold) hsecond fun _ => hsingle ▸ rfl
  case hasCount | duplicates => exact .undefined harray rfl
  case isValid | isMissing => exact .ownTest harray rfl

/-- What happens behind the arguments of a call is one of the steps. -/
theorem callStep_of_resolveNodes {xs : List Resolved} (op : Operation)
    (h : (resolveNodes lookup args).outcome = .ok xs) :
    CallStep lookup args (xs.map Resolved.query) op (callResolved op xs) := by
  rw [resolveNodes_ok_iff] at h
  cases h with
  | nil =>
    unfold callResolved
    split
    · rename_i hnil
      cases hnil
    · exact .kept (.inr rfl)
  | @cons q x qs xs hfirst hmore =>
    obtain ⟨query, array?⟩ := x
    have harray : array? = arrayArgument? lookup (q :: qs) := array_eq_arrayArgument? hfirst qs
    have hrest : List.Forall₂ (Resolves lookup) qs (xs.map Resolved.query) :=
      forall₂_resolves_iff.2 ⟨xs, resolveNodes_ok_iff.2 hmore, rfl⟩
    unfold callResolved
    split
    · rename_i rule _ array rest hrule hcons
      cases hcons
      exact callStep_of_array hrule harray.symm (listArgument_eq op q hrest)
    · rename_i hkept
      refine .kept ?_
      cases hrule : op.arrayRule? with
      | none => exact .inl rfl
      | some rule => cases array? with
        | none => exact .inr harray.symm
        | some array => exact absurd rfl (hkept rule query array xs hrule)

theorem callStep_of_resolves {op : Operation} (h : Resolves lookup (.call op args) r) :
    ∃ rs, List.Forall₂ (Resolves lookup) args rs ∧ CallStep lookup args rs op (.ok r) := by
  obtain ⟨x, hx, rfl⟩ := resolves_iff.1 h
  obtain ⟨xs, r, hxs, hr, rfl⟩ := resolveNode_call_ok_iff.1 hx
  exact ⟨xs.map Resolved.query, forall₂_resolves_iff.2 ⟨xs, hxs, rfl⟩,
    hr ▸ callStep_of_resolveNodes op hxs⟩

end RowFilter.Query
