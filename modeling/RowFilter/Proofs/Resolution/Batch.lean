import RowFilter.Proofs.Resolution.Steps

/-! Batches of queries. A batch resolves its members one by one, each as if it were alone, and
stops at the first that fails. So its answers, its error and the names asked are those of the
members up to there. -/

namespace RowFilter.Query

/-- The names that the queries ask for when each of them is resolved in its turn. -/
def askedBy (lookup : Lookup) (qs : List Query) : List String :=
  qs.flatMap fun q => (q.resolve lookup).asked

/-- How a batch may run: it resolves all its members, or those before one that fails. -/
inductive BatchRun (lookup : Lookup) : List Query → Traced ResolveError (List Query) → Prop
  | done {qs rs : List Query} : List.Forall₂ (Resolves lookup) qs rs →
    BatchRun lookup qs ⟨askedBy lookup qs, .ok rs⟩
  | stopped {front : List Query} {q : Query} (back : List Query) {e : ResolveError} :
    (∀ p ∈ front, ∃ r, Resolves lookup p r) → (q.resolve lookup).outcome = .error e →
    BatchRun lookup (front ++ q :: back) ⟨askedBy lookup (front ++ [q]), .error e⟩

variable {lookup : Lookup} {q r : Query} {qs rs : List Query}
  {run : Traced ResolveError (List Query)}

/-- A member that resolves is asked for first, and its answer stands first. -/
theorem BatchRun.cons (h : Resolves lookup q r) (hrun : BatchRun lookup qs run) :
    BatchRun lookup (q :: qs)
      ⟨(q.resolve lookup).asked ++ run.asked, run.outcome.map (r :: ·)⟩ := by
  cases hrun with
  | done hall => exact .done (.cons h hall)
  | stopped back hfront hfails =>
    exact .stopped back (List.forall_mem_cons.2 ⟨⟨r, h⟩, hfront⟩) hfails

theorem batchRun_resolveAll (lookup : Lookup) (qs : List Query) :
    BatchRun lookup qs (resolveAll lookup qs) := by
  induction qs with
  | nil => exact .done .nil
  | cons q qs ih =>
    rw [resolveAll]
    cases hq : (q.resolve lookup).outcome with
    | error e =>
      have hasked : askedBy lookup ([] ++ [q]) = (q.resolve lookup).asked := List.append_nil _
      rw [Traced.bind_of_error hq, ← hasked]
      exact .stopped qs (List.forall_mem_nil _) hq
    | ok r =>
      have hrun := ih.cons hq
      rw [Traced.bind_of_ok hq]
      cases hqs : (resolveAll lookup qs).outcome with
      | error e =>
        rw [hqs] at hrun
        rw [Traced.bind_of_error hqs]
        exact hrun
      | ok rs =>
        rw [hqs] at hrun
        rw [Traced.bind_of_ok hqs, Traced.asked_pure, List.append_nil]
        exact hrun

theorem resolveAll_ok_iff :
    (resolveAll lookup qs).outcome = .ok rs ↔ List.Forall₂ (Resolves lookup) qs rs :=
  Traced.outcome_each_ok_iff (resolve · lookup) (resolveAll lookup) rfl fun _ _ => rfl

/-- A batch gives the answers that its members give alone, or the error of the first member
that fails alone. It asks for what the members up to there ask for, and for nothing else. -/
theorem resolveAll_members (lookup : Lookup) (qs : List Query) :
    (∀ rs, (resolveAll lookup qs).outcome = .ok rs ↔
      qs.length = rs.length ∧
        ∀ i (hq : i < qs.length) (hr : i < rs.length), Resolves lookup qs[i] rs[i]) ∧
    match (resolveAll lookup qs).outcome with
    | .ok _ => (resolveAll lookup qs).asked = askedBy lookup qs
    | .error e => ∃ k, ∃ hk : k < qs.length, (qs[k].resolve lookup).outcome = .error e ∧
        (∀ i, ∀ hi : i < k, ∃ r, Resolves lookup qs[i] r) ∧
        (resolveAll lookup qs).asked = askedBy lookup (qs.take (k + 1)) := by
  constructor
  · intro rs
    rw [resolveAll_ok_iff, List.forall₂_iff_get]
    rfl
  · have hrun := batchRun_resolveAll lookup qs
    generalize resolveAll lookup qs = run at hrun ⊢
    cases hrun with
    | done => rfl
    | @stopped front q back e hfront hfails =>
      refine ⟨front.length, by simp, by simpa using hfails, fun i hi => ?_, ?_⟩
      · rw [List.getElem_append_left hi]
        exact hfront _ (List.getElem_mem hi)
      · rw [List.take_length_add_append]
        rfl

end RowFilter.Query
