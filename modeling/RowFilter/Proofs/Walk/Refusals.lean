import RowFilter.Proofs.Walk.Grammar

/-! Where a walk stands when it is refused. A choice gives the text back before its last
alternative only, so the cursor stays where that one is refused. For a condition the last
alternatives lead down to a name, and what is taken by then is the gap before it. -/

namespace RowFilter.Grammar

namespace Walk

variable {α β : Type}

/-- Where the walk is refused, `place` of its text is left. -/
def RefusedAt (place : List Char → List Char) (p : Walk α) : Prop :=
  ∀ ⦃c c'⦄, p c = .stopped .refused c' → c'.left = place c.left

def Unrefused (p : Walk α) : Prop := ∀ ⦃c c'⦄, p c ≠ .stopped .refused c'

section

variable {p q : Walk α} {place : List Char → List Char}

theorem unrefused_pure (a : α) : Unrefused (pure a) := fun _ _ h => nomatch h

theorem Unrefused.bind {f : α → Walk β} (h : Unrefused p) (hf : ∀ a, Unrefused (f a)) :
    Unrefused (p >>= f) := by
  intro c c' hc
  simp only [Bind.bind] at hc
  split at hc
  · exact hf _ hc
  · rename_i hstopped
    cases hc
    exact h hstopped

theorem unrefused_span (accepts : Char → Bool) : Unrefused (span accepts) :=
  fun _ _ h => nomatch h

/-- A loop ends where its element is refused. -/
theorem unrefused_many (p : Walk α) : Unrefused (many p) := by
  intro c c' hc
  fun_induction many p c with
  | case1 => cases hc
  | case2 _ _ _ _ _ _ _ hmore ih =>
    cases hc
    exact ih hmore
  | case3 => cases hc
  | case4 => cases hc
  | case5 _ _ _ hwhy =>
    cases hc
    exact hwhy rfl

theorem refusedAt_ofOption (read : List Char → Option (α × List Char)) :
    RefusedAt id (ofOption read) := by
  intro c c' hc
  unfold ofOption at hc
  split at hc
  · cases hc
  · cases hc
    rfl

/-- What follows the part that may be refused never is. -/
theorem RefusedAt.bind {f : α → Walk β} (h : RefusedAt place p) (hf : ∀ a, Unrefused (f a)) :
    RefusedAt place (p >>= f) := by
  intro c c' hc
  simp only [Bind.bind] at hc
  split at hc
  · exact absurd hc (@hf _ _ _)
  · rename_i hstopped
    cases hc
    exact h hstopped

theorem RefusedAt.map (h : RefusedAt place p) (f : α → β) : RefusedAt place (f <$> p) :=
  h.bind fun a => unrefused_pure (f a)

theorem RefusedAt.verify (h : RefusedAt id p) (accepts : α → Bool) :
    RefusedAt id (p.verify accepts) := by
  intro c c' hc
  unfold Walk.verify at hc
  split at hc
  · split at hc
    · cases hc
    · cases hc
      rfl
  · exact h hc

/-- Only the last alternative decides. -/
theorem RefusedAt.orElse (h : RefusedAt place q) (p : Walk α) : RefusedAt place (p.orElse q) := by
  intro c c' hc
  unfold Walk.orElse at hc
  split at hc
  · have hleft := h hc
    exact hleft
  · rename_i hother
    exact absurd hc (hother c')

theorem RefusedAt.afterGap (h : RefusedAt id p) : RefusedAt skipGap (gap >>= fun _ => p) := by
  intro c c' hc
  exact h hc

theorem RefusedAt.nested (h : RefusedAt place p) : RefusedAt place (Walk.nested p) := by
  intro c c' hc
  unfold Walk.nested at hc
  split at hc
  · cases htrip : p c.enter with
    | read a d => simp [htrip, Trip.leave] at hc
    | stopped why d =>
      rw [htrip] at hc
      cases hc
      have hleft := h htrip
      exact hleft
  · cases hc

end

theorem name_refusedAt : RefusedAt id name :=
  (((refusedAt_ofOption (one? isWordStart)).bind fun first =>
    (unrefused_span isWordChar).bind fun more => unrefused_pure (first :: more)).verify _).map _

section

variable (deeper : Deeper)

theorem primary_refusedAt : RefusedAt skipGap (primary deeper) :=
  ((((name_refusedAt.map Tree.ident).orElse _).orElse _).orElse _).afterGap

theorem operand_refusedAt : RefusedAt skipGap (operand deeper) :=
  (primary_refusedAt deeper).bind fun _ => (unrefused_many _).bind fun _ => unrefused_pure _

theorem comparison_refusedAt : RefusedAt skipGap (comparison deeper) :=
  (operand_refusedAt deeper).bind fun _ => (unrefused_many _).bind fun _ => unrefused_pure _

theorem negation_refusedAt : RefusedAt skipGap (negation deeper) :=
  (comparison_refusedAt deeper).orElse _

theorem conjunction_refusedAt : RefusedAt skipGap (conjunction deeper) :=
  (negation_refusedAt deeper).bind fun _ => (unrefused_many _).bind fun _ => unrefused_pure _

theorem disjunction_refusedAt : RefusedAt skipGap (disjunction deeper) :=
  (conjunction_refusedAt deeper).bind fun _ => (unrefused_many _).bind fun _ => unrefused_pure _

end

/-- Where no condition can be read, only the gap before it is taken. -/
theorem item_refusedAt : RefusedAt skipGap limited.item := by
  rw [limited_item_eq.1]
  exact (disjunction_refusedAt limited).nested

end Walk

end RowFilter.Grammar
