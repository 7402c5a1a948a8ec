import RowFilter.Proofs.Resolution.Steps

/-! The names that a resolution asks for. A run follows the names of the query from left to
right and asks for each of them once. It ends early at a name that is refused, or behind the
arguments of a call whose rule for arrays does not apply. -/

namespace RowFilter

namespace Traced

variable {ε α β : Type}

theorem asked_map (run : Traced ε α) (f : α → β) : (f <$> run).asked = run.asked := by
  change (run >>= fun a => pure (f a)).asked = _
  cases h : run.outcome with
  | ok a => rw [bind_of_ok h, asked_pure, List.append_nil]
  | error e => rw [bind_of_error h]

theorem ofExcept_bind_pure (outcome : Except ε α) (f : α → β) :
    (ofExcept outcome >>= fun a => pure (f a)) = ⟨[], outcome.map f⟩ := by
  cases outcome <;> rfl

end Traced

namespace Query

/-- The query stands in one of the queries, behind the names `before`. -/
inductive Occurs (part : Query) : List String → List Query → Prop
  | here (qs : List Query) : Occurs part [] (part :: qs)
  | inCall {before : List String} {args : List Query} (op : Operation) (qs : List Query) :
    Occurs part before args → Occurs part before (.call op args :: qs)
  | behind {before : List String} {qs : List Query} (q : Query) :
    Occurs part before qs → Occurs part (q.names ++ before) (q :: qs)

def Answered (lookup : Lookup) (names : List String) : Prop :=
  ∀ name ∈ names, ∃ m, lookup name = .ok m

/-- The call is of an operation on the array `name`, and with its other arguments resolved
the rule of the operation does not apply. -/
def Offends (lookup : Lookup) (op : Operation) (args : List Query) (name : String)
    (fault : ArrayFault) : Prop :=
  ∃ rule address subvariables rest resolved, op.arrayRule? = some rule ∧
    args = .named name :: rest ∧ lookup name = .ok ⟨address, .array subvariables⟩ ∧
    List.Forall₂ (Resolves lookup) rest resolved ∧
    expandArray rule op ⟨name, address, subvariables⟩ resolved = .error fault

/-- How a run over the queries may fail: the names asked, and the error. -/
inductive Halts (lookup : Lookup) (qs : List Query) : List String → ResolveError → Prop
  | refused {front : List String} {name : String} {refusal : LookupError} :
    front ++ [name] <+: namesAll qs → Answered lookup front → lookup name = .error refusal →
    Halts lookup qs (front ++ [name]) (.ofLookup refusal)
  | misapplied {before : List String} {op : Operation} {args : List Query} {name : String}
    {fault : ArrayFault} :
    Occurs (.call op args) before qs → Answered lookup (before ++ namesAll args) →
    Offends lookup op args name fault →
    Halts lookup qs (before ++ namesAll args) (.invalidArrayOperation name fault)

/-- A run over the queries answers all their names, or fails in one of these ways. -/
def Course {α : Type} (lookup : Lookup) (qs : List Query) (run : Traced ResolveError α) : Prop :=
  match run.outcome with
  | .ok _ => run.asked = namesAll qs ∧ Answered lookup run.asked
  | .error e => Halts lookup qs run.asked e

variable {lookup : Lookup} {q : Query} {qs args : List Query} {asked : List String}
  {e : ResolveError}

theorem answered_nil : Answered lookup [] := List.forall_mem_nil _

theorem Answered.append {names more : List String} (h : Answered lookup names)
    (hmore : Answered lookup more) : Answered lookup (names ++ more) :=
  List.forall_mem_append.2 ⟨h, hmore⟩

/-- What a query has before and in it are names of the whole, in their order. -/
theorem Occurs.isPrefix {part : Query} {before : List String} (h : Occurs part before qs) :
    before ++ part.names <+: namesAll qs := by
  induction h with
  | here qs => exact List.prefix_append _ _
  | inCall op qs _ ih => exact ih.trans (List.prefix_append _ _)
  | behind q _ ih =>
    rw [List.append_assoc]
    exact (List.prefix_append_right_inj _).2 ih

theorem Halts.isPrefix (h : Halts lookup qs asked e) : asked <+: namesAll qs := by
  cases h with
  | refused hstart => exact hstart
  | misapplied hoccurs => exact hoccurs.isPrefix

theorem Course.of_ok {α : Type} {run : Traced ResolveError α} {a : α} (h : Course lookup qs run)
    (hrun : run.outcome = .ok a) :
    run.asked = namesAll qs ∧ Answered lookup (namesAll qs) := by
  unfold Course at h
  rw [hrun] at h
  obtain ⟨hasked, hanswered⟩ := h
  exact ⟨hasked, hasked ▸ hanswered⟩

theorem Course.of_error {α : Type} {run : Traced ResolveError α} (h : Course lookup qs run)
    (hrun : run.outcome = .error e) : Halts lookup qs run.asked e := by
  unfold Course at h
  rw [hrun] at h
  exact h

/-! ### One step of a run -/

theorem Halts.first (h : Halts lookup [q] asked e) (qs : List Query) :
    Halts lookup (q :: qs) asked e := by
  cases h with
  | refused hstart hfront hrefusal =>
    refine .refused (hstart.trans ?_) hfront hrefusal
    exact (List.prefix_append_right_inj _).2 List.nil_prefix
  | misapplied hoccurs hanswered hoffends =>
    refine .misapplied ?_ hanswered hoffends
    cases hoccurs with
    | here => exact .here qs
    | inCall op _ h => exact .inCall op qs h
    | behind _ h => cases h

theorem Halts.behind (h : Halts lookup qs asked e) (hq : Answered lookup q.names) :
    Halts lookup (q :: qs) (q.names ++ asked) e := by
  cases h with
  | refused hstart hfront hrefusal =>
    rw [← List.append_assoc]
    refine .refused ?_ (hq.append hfront) hrefusal
    rw [List.append_assoc]
    exact (List.prefix_append_right_inj _).2 hstart
  | misapplied hoccurs hanswered hoffends =>
    rw [← List.append_assoc]
    refine .misapplied (hoccurs.behind q) ?_ hoffends
    rw [List.append_assoc]
    exact hq.append hanswered

theorem Halts.inCall (h : Halts lookup args asked e) (op : Operation) :
    Halts lookup [.call op args] asked e := by
  cases h with
  | refused hstart hfront hrefusal =>
    exact .refused (hstart.trans (List.prefix_append _ _)) hfront hrefusal
  | misapplied hoccurs hanswered hoffends =>
    exact .misapplied (.inCall op [] hoccurs) hanswered hoffends

/-- Only a name stands for an array. -/
theorem array_of_resolveNode {x : Resolved} {array : ArrayTarget}
    (h : (resolveNode lookup q).outcome = .ok x) (harray : x.array = some array) :
    q = .named array.name ∧ lookup array.name = .ok ⟨array.address, .array array.subvariables⟩ := by
  cases q with
  | named name =>
    obtain ⟨⟨address, kind⟩, hm, rfl⟩ := resolveNode_named_ok_iff.1 h
    cases kind <;> cases harray
    exact ⟨rfl, hm⟩
  | address | value =>
    cases h
    cases harray
  | call =>
    obtain ⟨_, _, -, -, rfl⟩ := resolveNode_call_ok_iff.1 h
    cases harray

/-- A call fails behind its arguments only if it offends. -/
theorem offends_of_callResolved {op : Operation} {xs : List Resolved}
    (hargs : (resolveNodes lookup args).outcome = .ok xs) (h : callResolved op xs = .error e) :
    ∃ name fault, e = .invalidArrayOperation name fault ∧ Offends lookup op args name fault := by
  rw [resolveNodes_ok_iff] at hargs
  unfold callResolved at h
  split at h
  · rename_i rule query array rest hrule
    cases hargs with
    | @cons first _ more _ hfirst hmore =>
      obtain ⟨rfl, hlookup⟩ := array_of_resolveNode hfirst rfl
      cases hexpand : expandArray rule op array (rest.map Resolved.query) with
      | ok r =>
        rw [hexpand] at h
        cases h
      | error fault =>
        rw [hexpand] at h
        cases h
        have hrest := forall₂_resolves_iff.2 ⟨_, resolveNodes_ok_iff.2 hmore, rfl⟩
        exact ⟨_, fault, rfl, rule, _, _, more, _, hrule, rfl, hlookup, hrest, hexpand⟩
  · cases h

theorem course_named (name : String) :
    Course lookup [.named name] (resolveNode lookup (.named name)) := by
  rw [resolveNode, resolveName]
  cases h : lookup name with
  | error refusal =>
    have hrun : ((Traced.ask lookup name).mapError ResolveError.ofLookup).outcome =
        .error (.ofLookup refusal) := by
      rw [Traced.mapError, Traced.ask, h]
      rfl
    rw [Traced.bind_of_error hrun]
    change Halts lookup [.named name] ([] ++ [name]) (.ofLookup refusal)
    exact .refused List.prefix_rfl answered_nil h
  | ok m =>
    have hrun : ((Traced.ask lookup name).mapError ResolveError.ofLookup).outcome = .ok m := by
      rw [Traced.mapError, Traced.ask, h]
      rfl
    rw [Traced.bind_of_ok hrun]
    obtain ⟨address, kind⟩ := m
    have hanswered : Answered lookup [name] := List.forall_mem_singleton.2 ⟨_, h⟩
    cases kind <;> exact ⟨rfl, hanswered⟩

theorem course_cons (hq : Course lookup [q] (resolveNode lookup q))
    (hqs : Course lookup qs (resolveNodes lookup qs)) :
    Course lookup (q :: qs) (resolveNodes lookup (q :: qs)) := by
  rw [resolveNodes]
  cases hfirst : (resolveNode lookup q).outcome with
  | error e =>
    rw [Traced.bind_of_error hfirst]
    exact (hq.of_error hfirst).first qs
  | ok x =>
    obtain ⟨hasked, hanswered⟩ := hq.of_ok hfirst
    rw [namesAll_singleton] at hasked hanswered
    rw [Traced.bind_of_ok hfirst, hasked]
    cases hmore : (resolveNodes lookup qs).outcome with
    | error e =>
      rw [Traced.bind_of_error hmore]
      exact (hqs.of_error hmore).behind hanswered
    | ok xs =>
      obtain ⟨hasked', hanswered'⟩ := hqs.of_ok hmore
      rw [Traced.bind_of_ok hmore, hasked', Traced.asked_pure, List.append_nil]
      exact ⟨rfl, hanswered.append hanswered'⟩

theorem course_call (op : Operation) (hargs : Course lookup args (resolveNodes lookup args)) :
    Course lookup [.call op args] (resolveNode lookup (.call op args)) := by
  rw [resolveNode]
  cases hrun : (resolveNodes lookup args).outcome with
  | error e =>
    rw [Traced.bind_of_error hrun]
    exact (hargs.of_error hrun).inCall op
  | ok xs =>
    obtain ⟨hasked, hanswered⟩ := hargs.of_ok hrun
    rw [Traced.bind_of_ok hrun, hasked, Traced.ofExcept_bind_pure, List.append_nil]
    cases hcall : callResolved op xs with
    | ok r => exact ⟨(List.append_nil _).symm, hanswered⟩
    | error e =>
      obtain ⟨name, fault, rfl, hoffends⟩ := offends_of_callResolved hrun hcall
      change Halts lookup [.call op args] ([] ++ namesAll args) _
      exact .misapplied (.here []) hanswered hoffends

/-! ### The whole run -/

mutual

theorem course_resolveNode : ∀ q : Query, Course lookup [q] (resolveNode lookup q)
  | .named name => course_named name
  | .address _ => ⟨rfl, answered_nil⟩
  | .value _ => ⟨rfl, answered_nil⟩
  | .call op args => course_call op (course_resolveNodes args)
termination_by structural q => q

theorem course_resolveNodes : ∀ qs : List Query, Course lookup qs (resolveNodes lookup qs)
  | [] => ⟨rfl, answered_nil⟩
  | q :: qs => course_cons (course_resolveNode q) (course_resolveNodes qs)
termination_by structural qs => qs

end

theorem course_resolve (lookup : Lookup) (q : Query) : Course lookup [q] (q.resolve lookup) := by
  have h : Course lookup [q] (resolveNode lookup q) := course_resolveNode q
  unfold Course
  rw [resolve, Traced.outcome_map, Traced.asked_map]
  cases hrun : (resolveNode lookup q).outcome with
  | ok x =>
    obtain ⟨hasked, hanswered⟩ := h.of_ok hrun
    exact ⟨hasked, hasked ▸ hanswered⟩
  | error e => exact h.of_error hrun

/-- A resolution asks for the names of the query from left to right, each once. It asks for all
of them if it succeeds, up to the one that the look-up refused, or up to the last one in the
call whose rule did not apply. -/
theorem resolve_asks (lookup : Lookup) (q : Query) :
    (q.resolve lookup).asked <+: q.names ∧
      match (q.resolve lookup).outcome with
      | .ok _ => (q.resolve lookup).asked = q.names ∧ Answered lookup q.names
      | .error (.invalidArrayOperation name fault) =>
        Answered lookup (q.resolve lookup).asked ∧ ∃ before op args,
          Occurs (.call op args) before [q] ∧ Offends lookup op args name fault ∧
          (q.resolve lookup).asked = before ++ (call op args).names ∧ (call op args).names ≠ []
      | .error e => ∃ front name refusal, (q.resolve lookup).asked = front ++ [name] ∧
          Answered lookup front ∧ lookup name = .error refusal ∧ e = .ofLookup refusal := by
  have hnames := namesAll_singleton q
  have h := course_resolve lookup q
  generalize q.resolve lookup = run at h ⊢
  obtain ⟨asked, outcome⟩ := run
  cases outcome with
  | ok r =>
    obtain ⟨rfl, hanswered⟩ := h
    rw [hnames] at hanswered ⊢
    exact ⟨List.prefix_rfl, rfl, hanswered⟩
  | error e =>
    have h : Halts lookup [q] asked e := h
    refine ⟨hnames ▸ h.isPrefix, ?_⟩
    cases h with
    | @refused front name refusal _ hfront hrefusal =>
      cases refusal <;> exact ⟨front, name, _, rfl, hfront, hrefusal, rfl⟩
    | @misapplied before op args name fault hoccurs hanswered hoffends =>
      refine ⟨hanswered, before, op, args, hoccurs, hoffends, rfl, ?_⟩
      obtain ⟨_, _, _, _, _, -, rfl, -⟩ := hoffends
      exact List.cons_ne_nil _ _

end Query

end RowFilter
