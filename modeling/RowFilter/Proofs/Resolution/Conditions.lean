import RowFilter.Proofs.Resolution.Asked
import RowFilter.Proofs.Resolution.Calls

/-! The conditions on a resolution, said without a run. Every name has to be answered, and
every call on an array has to obey the rule of its operation. All violations of a query stand
in one list, from left to right and those of the arguments before those of their call; a
resolution reports the first of them, and succeeds if there is none. -/

namespace RowFilter

/-- The rule of an operation for an array with these sub-elements, called with these
arguments. -/
def Operation.AppliesTo (op : Operation) (subs : List Subvariable) (args : List Query) : Prop :=
  match op with
  | .any =>
    (∃ first v more, args = first :: .value v :: more ∧ v.isList = true) ∧ subs ≠ []
  | .all =>
    (∃ first v w more, args = first :: .value v :: more ∧ v.single? = some w) ∧ subs ≠ []
  | .hasCount | .duplicates => False
  | _ => True

namespace Query

/-- If the call is on an array, it obeys the rule of its operation. -/
def Applies (lookup : Lookup) (op : Operation) (args : List Query) : Prop :=
  ∀ name rest address subs, args = .named name :: rest →
    lookup name = .ok ⟨address, .array subs⟩ → op.AppliesTo subs args

/-- The tests that a call on an array has to pass, each with the fault of failing it. -/
def arrayTests (op : Operation) (subs : List Subvariable) (args : List Query) :
    List (Bool × ArrayFault) :=
  let list := listSecond? args
  match op with
  | .any => [(list.isSome, .needsList op), (!subs.isEmpty, .noSubvariables)]
  | .all => [(list.isSome, .needsList op), ((list.bind Value.single?).isSome, .needsSingleTarget),
      (!subs.isEmpty, .noSubvariables)]
  | .hasCount | .duplicates => [(false, .undefined op)]
  | _ => []

/-- The faults of the tests that are failed. -/
def failed (tests : List (Bool × ArrayFault)) : List ArrayFault :=
  tests.filterMap fun test => if test.1 then none else some test.2

def callViolations (lookup : Lookup) (op : Operation) (args : List Query) : List ResolveError :=
  match arrayArgument? lookup args with
  | some array =>
    (failed (arrayTests op array.subvariables args)).map (.invalidArrayOperation array.name)
  | none => []

mutual

/-- Everything that stands against resolving the query. -/
def violations (lookup : Lookup) : Query → List ResolveError
  | .named name => match lookup name with
    | .ok _ => []
    | .error refusal => [.ofLookup refusal]
  | .address _ => []
  | .value _ => []
  | .call op args => violationsAll lookup args ++ callViolations lookup op args
termination_by structural q => q

def violationsAll (lookup : Lookup) : List Query → List ResolveError
  | [] => []
  | q :: qs => violations lookup q ++ violationsAll lookup qs
termination_by structural qs => qs

end

/-- The run ends with the first of the violations, and succeeds if there is none. -/
def Reports {ε α : Type} (violations : List ε) : Except ε α → Prop
  | .ok _ => violations = []
  | .error e => violations.head? = some e

variable {lookup : Lookup} {args : List Query}

/-! ### No violations -/

theorem isSome_listSecond?_iff :
    (listSecond? args).isSome = true ↔
      ∃ first v more, args = first :: .value v :: more ∧ v.isList = true := by
  simp only [Option.isSome_iff_exists, listSecond?_eq_some_iff]
  constructor
  · intro h
    obtain ⟨v, first, more, h⟩ := h
    exact ⟨first, v, more, h⟩
  · intro h
    obtain ⟨first, v, more, h⟩ := h
    exact ⟨v, first, more, h⟩

theorem isSome_single?_iff :
    ((listSecond? args).bind Value.single?).isSome = true ↔
      ∃ first v w more, args = first :: .value v :: more ∧ v.single? = some w := by
  simp only [Option.isSome_iff_exists, Option.bind_eq_some_iff, listSecond?_eq_some_iff]
  constructor
  · intro h
    obtain ⟨w, v, ⟨first, more, hargs, -⟩, hsingle⟩ := h
    exact ⟨first, v, w, more, hargs, hsingle⟩
  · intro h
    obtain ⟨first, v, w, more, hargs, hsingle⟩ := h
    exact ⟨w, v, ⟨first, more, hargs, Value.isList_of_single? hsingle⟩, hsingle⟩

theorem failed_eq_nil_iff {tests : List (Bool × ArrayFault)} :
    failed tests = [] ↔ ∀ test ∈ tests, test.1 = true := by
  simp [failed]

/-- The tests of an operation say what its rule says. -/
theorem failed_arrayTests_eq_nil_iff {op : Operation} {subs : List Subvariable} :
    failed (arrayTests op subs args) = [] ↔ op.AppliesTo subs args := by
  have hsubs : (!subs.isEmpty) = true ↔ subs ≠ [] := by simp
  rw [failed_eq_nil_iff]
  cases op
  case any =>
    simp only [arrayTests, List.forall_mem_cons, List.not_mem_nil, false_implies, implies_true,
      and_true, Operation.AppliesTo, isSome_listSecond?_iff, hsubs]
  case all =>
    simp only [arrayTests, List.forall_mem_cons, List.not_mem_nil, false_implies, implies_true,
      and_true, Operation.AppliesTo, isSome_listSecond?_iff, isSome_single?_iff, hsubs]
    -- a list of one element is a list
    refine and_iff_right_of_imp fun h => ?_
    obtain ⟨⟨first, v, w, more, hargs, hsingle⟩, -⟩ := h
    exact ⟨first, v, more, hargs, Value.isList_of_single? hsingle⟩
  all_goals simp [arrayTests, Operation.AppliesTo]

theorem callViolations_eq_nil_iff {op : Operation} :
    callViolations lookup op args = [] ↔ Applies lookup op args := by
  unfold callViolations
  cases harray : arrayArgument? lookup args with
  | some array =>
    obtain ⟨rest, hargs, hm⟩ := arrayArgument?_eq_some_iff.1 harray
    simp only [List.map_eq_nil_iff, failed_arrayTests_eq_nil_iff]
    constructor
    · intro h name rest' address subs hargs' hm'
      rw [hargs] at hargs'
      cases hargs'
      rw [hm] at hm'
      cases hm'
      exact h
    · intro h
      exact h _ _ _ _ hargs hm
  | none =>
    refine iff_of_true rfl fun name rest address subs hargs hm => ?_
    have hsome : arrayArgument? lookup args = some ⟨name, address, subs⟩ :=
      arrayArgument?_eq_some_iff.2 ⟨rest, hargs, hm⟩
    rw [harray] at hsome
    cases hsome

theorem answered_append {names more : List String} :
    Answered lookup (names ++ more) ↔ Answered lookup names ∧ Answered lookup more :=
  List.forall_mem_append

theorem answered_singleton {name : String} :
    Answered lookup [name] ↔ violations lookup (.named name) = [] := by
  rw [violations, Answered, List.forall_mem_singleton]
  cases lookup name <;> simp

mutual

/-- There are no violations if every name is answered and every call on an array applies. -/
theorem violations_eq_nil_iff : ∀ q : Query,
    violations lookup q = [] ↔ Answered lookup q.names ∧ EveryCall (Applies lookup) q.parts
  | .named name => by
    rw [names, parts, answered_singleton, and_iff_left (everyCall_leaf (.named name) nofun)]
  | .address text => iff_of_true rfl ⟨answered_nil, everyCall_leaf (.address text) nofun⟩
  | .value v => iff_of_true rfl ⟨answered_nil, everyCall_leaf (.value v) nofun⟩
  | .call op args => by
    rw [violations, List.append_eq_nil_iff, violationsAll_eq_nil_iff args, names, parts,
      callViolations_eq_nil_iff, everyCall_cons, and_assoc, and_comm (a := EveryCall _ _)]
termination_by structural q => q

theorem violationsAll_eq_nil_iff : ∀ qs : List Query,
    violationsAll lookup qs = [] ↔
      Answered lookup (namesAll qs) ∧ EveryCall (Applies lookup) (partsAll qs)
  | [] => iff_of_true rfl ⟨answered_nil, everyCall_nil⟩
  | q :: qs => by
    rw [violationsAll, List.append_eq_nil_iff, violations_eq_nil_iff q,
      violationsAll_eq_nil_iff qs, namesAll, partsAll, answered_append, everyCall_append,
      and_and_and_comm]
termination_by structural qs => qs

end

/-! ### The first violation -/

theorem Reports.bind {ε α β : Type} {first more : List ε} {run : Traced ε α}
    {next : α → Traced ε β} (h : Reports first run.outcome)
    (hnext : ∀ a, run.outcome = .ok a → Reports more (next a).outcome) :
    Reports (first ++ more) (run >>= next).outcome := by
  rw [Traced.outcome_bind]
  cases hrun : run.outcome with
  | ok a =>
    rw [hrun] at h
    obtain rfl : first = [] := h
    exact hnext a hrun
  | error e =>
    rw [hrun] at h
    have hfirst : first.head? = some e := h
    change (first ++ more).head? = some e
    rw [List.head?_append, hfirst, Option.some_or]

theorem Reports.map {ε α β : Type} {violations : List ε} {run : Traced ε α} (f : α → β)
    (h : Reports violations run.outcome) : Reports violations (f <$> run).outcome := by
  rw [Traced.outcome_map]
  cases hrun : run.outcome with
  | ok a | error e =>
    rw [hrun] at h
    exact h

/-- The step of a call reports the first test that it fails. -/
theorem CallStep.reports {rs : List Query} {op : Operation} {outcome : Except ResolveError Query}
    (h : CallStep lookup args rs op outcome) : Reports (callViolations lookup op args) outcome := by
  have hviolations {array : ArrayTarget} (harray : arrayArgument? lookup args = some array) :
      callViolations lookup op args = (failed (arrayTests op array.subvariables args)).map
        (.invalidArrayOperation array.name) := by
    rw [callViolations, harray]
  cases h with
  | kept hkept =>
    change callViolations lookup op args = []
    rcases hkept with hrule | harray
    · rw [callViolations]
      cases op <;> cases hrule <;> cases arrayArgument? lookup args <;> rfl
    · rw [callViolations, harray]
  | someElement harray hlist hfold =>
    have hsubs := subvariables_ne_nil hfold
    rw [hviolations harray]
    simp [Reports, failed, arrayTests, hlist, hsubs]
  | everyElement harray hlist hsingle hfold =>
    have hsubs := subvariables_ne_nil hfold
    rw [hviolations harray]
    simp [Reports, failed, arrayTests, hlist, hsingle, hsubs]
  | ownTest harray hrule =>
    rw [hviolations harray]
    cases op <;> cases hrule <;> rfl
  | undefined harray hrule =>
    rw [hviolations harray]
    cases op <;> cases hrule <;> rfl
  | needsList hop harray hlist =>
    rw [hviolations harray]
    simp only [List.mem_cons, List.not_mem_nil, or_false] at hop
    rcases hop with rfl | rfl <;> simp [Reports, failed, arrayTests, hlist]
  | needsSingleTarget harray hlist hsingle =>
    rw [hviolations harray]
    simp [Reports, failed, arrayTests, hlist, hsingle]
  | noSubvariables hop harray hsubs hlist hsingle =>
    rw [hviolations harray]
    simp only [List.mem_cons, List.not_mem_nil, or_false] at hop
    rcases hop with rfl | rfl
    · simp [Reports, failed, arrayTests, hlist, hsubs]
    · simp [Reports, failed, arrayTests, hlist, hsubs, hsingle rfl]

theorem reports_resolveName (name : String) :
    Reports (violations lookup (.named name)) (resolveName lookup name).outcome := by
  rw [resolveName, violations, Traced.outcome_bind, Traced.mapError, Traced.ask]
  cases hname : lookup name with
  | error refusal => rfl
  | ok m =>
    obtain ⟨address, kind⟩ := m
    cases kind <;> rfl

mutual

theorem reports_resolveNode : ∀ q : Query,
    Reports (violations lookup q) (resolveNode lookup q).outcome
  | .named name => reports_resolveName name
  | .address _ => rfl
  | .value _ => rfl
  | .call op args => by
    rw [resolveNode]
    refine (reports_resolveNodes args).bind fun xs hxs => ?_
    rw [Traced.ofExcept_bind_pure]
    have hstep := (callStep_of_resolveNodes op hxs).reports
    cases hcall : callResolved op xs with
    | ok r | error e =>
      rw [hcall] at hstep
      exact hstep
termination_by structural q => q

theorem reports_resolveNodes : ∀ qs : List Query,
    Reports (violationsAll lookup qs) (resolveNodes lookup qs).outcome
  | [] => rfl
  | q :: qs => by
    rw [resolveNodes]
    refine (reports_resolveNode q).bind fun x _ => ?_
    exact (reports_resolveNodes qs).map (x :: ·)
termination_by structural qs => qs

end

end Query

end RowFilter
