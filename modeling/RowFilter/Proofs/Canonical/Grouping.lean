import Mathlib.Data.List.Forall2
import RowFilter.Proofs.Canonical.Rules

/-! The grouping of chains. A chain whose last operand is a chain of the same connective has
the query of the flat chain, or its rejection: since chains fold to the right, parentheses at
the end leave no trace. The queries of the operands stand one by one along the second
arguments of the whole. -/

namespace RowFilter

namespace Query

/-- Goes into the second argument of the calls of an operation so many times. Gives the first
arguments on the way and the query at its end. -/
def along? (op : Operation) : Nat → Query → Option (List Query)
  | 0, q => some [q]
  | n + 1, .call f [first, rest] =>
    if f = op then (along? op n rest).map (first :: ·) else none
  | _ + 1, _ => none

/-- A fold goes on from the fold of what stands behind. -/
theorem foldRight_append {op : Operation} {back : List Query} {q : Query}
    (h : foldRight op back = some q) (front : List Query) :
    foldRight op (front ++ back) = foldRight op (front ++ [q]) := by
  induction front with
  | nil => exact h
  | cons first front ih =>
    rw [List.cons_append, foldRight, ih, List.cons_append, foldRight]

end Query

namespace Rules

variable {ts : List Tree} {qs : List Query} {q : Query}

/-- The parts of a fold are met in their order. -/
theorem Folds.along? {op : Operation} (h : Folds op qs q) :
    q.along? op (qs.length - 1) = some qs := by
  induction h with
  | single q => rfl
  | @cons first more rest hmore ih =>
    have hpos : 0 < more.length := by cases hmore <;> simp
    obtain ⟨n, hn⟩ := Nat.exists_eq_add_one_of_ne_zero (Nat.ne_of_gt hpos)
    rw [hn, Nat.add_sub_cancel] at ih
    rw [List.length_cons, Nat.add_sub_cancel, hn, Query.along?, if_pos rfl, ih]
    rfl

theorem CanonicalAll.forall₂ (h : CanonicalAll ts qs) :
    List.Forall₂ (fun t q => t.canonical = .ok q) ts qs := by
  induction ts generalizing qs with
  | nil =>
    cases h
    exact .nil
  | cons t ts ih =>
    cases h with
    | cons ht hts => exact .cons (canonical_complete ht) (ih hts)

end Rules

namespace Tree

variable {c : Connective} {ts us : List Tree} {qs : List Query} {q : Query}

theorem canonicalAll_append (ts us : List Tree) :
    canonicalAll (ts ++ us) =
      canonicalAll ts >>= fun qs => canonicalAll us >>= fun rs => pure (qs ++ rs) := by
  induction ts with
  | nil =>
    rw [List.nil_append]
    cases canonicalAll us <;> rfl
  | cons t ts ih =>
    rw [List.cons_append, canonicalAll, ih, canonicalAll]
    cases t.canonical with
    | error e => rfl
    | ok q =>
      cases canonicalAll ts with
      | error e => rfl
      | ok qs => cases canonicalAll us <;> rfl

/-- The first rejection among the operands is that of the chain. -/
theorem canonical_chain_of_error {e : Rejection} (h : canonicalAll ts = .error e) :
    (chain c ts).canonical = .error e := by
  rw [canonical, h]
  rfl

theorem canonical_chain_of_ok (h : canonicalAll ts = .ok qs)
    (hq : Query.foldRight c.operation qs = some q) : (chain c ts).canonical = .ok q := by
  rw [canonical, h]
  simp only [bind, Except.bind, hq]
  rfl

theorem exists_foldRight (hts : ts ≠ []) (h : canonicalAll ts = .ok qs) (op : Operation) :
    ∃ q, Query.foldRight op qs = some q := by
  rw [← Option.ne_none_iff_exists', Ne, Query.foldRight_eq_none_iff]
  rintro rfl
  have hlength := (Rules.canonicalAll_sound h).length_eq
  exact hts (List.length_eq_zero_iff.1 hlength)

/-- Parentheses around the last operands of a chain change neither its query nor its
rejection. -/
theorem canonical_chain_grouped (c : Connective) (front : List Tree) {back : List Tree}
    (hback : back ≠ []) :
    (chain c (front ++ [chain c back])).canonical = (chain c (front ++ back)).canonical := by
  have hgrouped := canonicalAll_append front [chain c back]
  have hflat := canonicalAll_append front back
  rw [canonicalAll, canonicalAll] at hgrouped
  cases hfront : canonicalAll front with
  | error e =>
    rw [hfront] at hgrouped hflat
    rw [canonical_chain_of_error hgrouped, canonical_chain_of_error hflat]
  | ok ps =>
    rw [hfront] at hgrouped hflat
    cases hrest : canonicalAll back with
    | error e =>
      rw [hrest] at hflat
      rw [canonical_chain_of_error hrest] at hgrouped
      rw [canonical_chain_of_error hgrouped, canonical_chain_of_error hflat]
    | ok rs =>
      obtain ⟨r, hr⟩ := exists_foldRight hback hrest c.operation
      rw [hrest] at hflat
      rw [canonical_chain_of_ok hrest hr] at hgrouped
      have hne : front ++ back ≠ [] := by simp [hback]
      obtain ⟨q, hq⟩ := exists_foldRight hne hflat c.operation
      have hsame : Query.foldRight c.operation (ps ++ [r]) = some q :=
        (Query.foldRight_append hr ps).symm.trans hq
      rw [canonical_chain_of_ok hgrouped hsame, canonical_chain_of_ok hflat hq]

/-- The operands of a chain stand in its query in their order: the second arguments lead from
one to the next. -/
theorem along?_of_canonical (h : (chain c ts).canonical = .ok q) :
    ∃ qs, List.Forall₂ (fun t p => t.canonical = .ok p) ts qs ∧
      q.along? c.operation (ts.length - 1) = some qs := by
  cases Rules.canonical_sound h with
  | all hall hfolds | any hall hfolds =>
    exact ⟨_, hall.forall₂, hall.length_eq ▸ hfolds.along?⟩

/-- A chain that ends in a chain of the same connective is the flat chain, for what it is
accepted as and for why it is rejected. Going into the second argument of its query once for
each operand but the last meets the queries of all operands in their order. -/
theorem canonical_regrouped (c : Connective) (front : List Tree) {back : List Tree}
    (hback : back ≠ []) :
    (chain c (front ++ [chain c back])).canonical = (chain c (front ++ back)).canonical ∧
      ∀ q, (chain c (front ++ back)).canonical = .ok q →
        ∃ qs, List.Forall₂ (fun t p => t.canonical = .ok p) (front ++ back) qs ∧
          q.along? c.operation (front.length + back.length - 1) = some qs := by
  refine ⟨canonical_chain_grouped c front hback, fun q hq => ?_⟩
  rw [← List.length_append]
  exact along?_of_canonical hq

/-- `a == 1 or (valid(b) and c < 2 or not d.duplicates())`. -/
theorem canonical_regrouped_mixed :
    let front : List Tree := [.compare (.ident "a") [(.eq, .literal (.int 1))]]
    let back : List Tree := [.chain .and [.call (.ident "valid") [(.positional, .ident "b")],
        .compare (.ident "c") [(.lt, .literal (.int 2))]],
      .not (.call (.attr (.ident "d") "duplicates") [])]
    let q : Query := .call .or [.call .eq [.named "a", .value (.int 1)],
      .call .or [.call .and [.call .isValid [.named "b"], .call .lt [.named "c", .value (.int 2)]],
        .call .not [.call .duplicates [.named "d"]]]]
    back ≠ [] ∧
      (chain .or (front ++ [chain .or back])).canonical = (chain .or (front ++ back)).canonical ∧
      (chain .or (front ++ back)).canonical = .ok q ∧
      ∃ qs, List.Forall₂ (fun t p => t.canonical = .ok p) (front ++ back) qs ∧
        q.along? .or 2 = some qs := by
  intro front back q
  have hback : back ≠ [] := List.cons_ne_nil _ _
  have hflat : (chain .or (front ++ back)).canonical = .ok q := by rfl
  obtain ⟨hsame, hparts⟩ := canonical_regrouped .or front hback
  exact ⟨hback, hsame, hflat, hparts q hflat⟩

end Tree

end RowFilter
