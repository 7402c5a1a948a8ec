import Mathlib.Data.List.Forall2
import RowFilter.Proofs.Grammar.Brackets

/-! Two splittings of the same tokens. Phrases that are determined by where they stop
cannot be split in two ways, so lists of such phrases are aligned member by member. -/

namespace RowFilter.Grammar

variable {stop : Token → Prop} {t : Token} {xs xs' r r' : List Token}

/-- The tokens end or go on with a certain one. -/
def StopsAt (stop : Token → Prop) (ts : List Token) : Prop := ∀ t more, ts = t :: more → stop t

/-- Whatever begins with both lists, and stops behind them, begins with the same one. -/
def Determined (stop : Token → Prop) (xs xs' : List Token) : Prop :=
  ∀ r r', xs ++ r = xs' ++ r' → StopsAt stop r → StopsAt stop r' → xs = xs' ∧ r = r'

theorem StopsAt.nil : StopsAt stop [] := by
  rintro _ _ ⟨⟩

theorem StopsAt.cons (h : stop t) : StopsAt stop (t :: xs) := by
  rintro _ _ ⟨⟩
  exact h

theorem StopsAt.append (h : StopsAt stop xs) (hr : StopsAt stop r) : StopsAt stop (xs ++ r) := by
  cases xs with
  | nil => exact hr
  | cons x xs => exact .cons (h x xs rfl)

/-- Lists of which neither goes on with a stop where the other ends are determined. -/
theorem determined_of_ne (hxs : ∀ t more, stop t → xs ≠ xs' ++ t :: more)
    (hxs' : ∀ t more, stop t → xs' ≠ xs ++ t :: more) : Determined stop xs xs' := by
  intro r r' h hr hr'
  rcases List.append_eq_append_iff.1 h with ⟨as, rfl, rfl⟩ | ⟨bs, rfl, rfl⟩
  · cases as with
    | nil => simp
    | cons a as => exact absurd rfl (hxs' a as (hr a _ rfl))
  · cases bs with
    | nil => simp
    | cons b bs => exact absurd rfl (hxs b bs (hr' b _ rfl))

theorem Determined.cons (h : Determined stop xs xs') : Determined stop (t :: xs) (t :: xs') := by
  intro r r' heq hr hr'
  obtain ⟨rfl, rfl⟩ := h r r' (List.cons.inj heq).2 hr hr'
  exact ⟨rfl, rfl⟩

/-- A comma or a closing bracket. -/
def EndsItem (t : Token) : Prop := t.nesting false 0 = none

/-- A flat text is determined by the comma or the closing bracket behind it. -/
theorem Flat.determined (hxs : Flat xs) (hxs' : Flat xs') : Determined EndsItem xs xs' := by
  apply determined_of_ne
  · rintro t more ht rfl
    exact hxs'.not_stop ht hxs
  · rintro t more ht rfl
    exact hxs.not_stop ht hxs'

section

variable {α β : Type} {Q : α → β → Prop} {R : α → List Token → Prop} {f : β → List Token}
  {as : List α} {bs : List β} {ts : List Token}

theorem stopsAt_repeats (h : ∀ a us, R a us → ∃ t more, us = t :: more ∧ stop t)
    (hrep : Repeats R as ts) : StopsAt stop ts := by
  cases hrep with
  | nil => exact .nil
  | cons hR _ =>
    obtain ⟨t, more, rfl, ht⟩ := h _ _ hR
    exact .cons ht

/-- Repeated phrases that start with a stop, against as many texts that do. -/
theorem Repeats.aligned (hab : List.Forall₂ Q as bs) (hrep : Repeats R as ts)
    (h : ts ++ r = bs.flatMap f ++ r') (hr : StopsAt stop r) (hr' : StopsAt stop r')
    (hstart : ∀ a us, R a us → ∃ t more, us = t :: more ∧ stop t)
    (hstart' : ∀ b, ∃ t more, f b = t :: more ∧ stop t)
    (hdet : ∀ b ∈ bs, ∀ a us, Q a b → R a us → Determined stop us (f b)) :
    ∀ b ∈ bs, ∃ a, Q a b ∧ R a (f b) := by
  induction hab generalizing ts with
  | nil => simp
  | @cons a b as bs hQ _ ih =>
    obtain ⟨hb, hbs⟩ := List.forall_mem_cons.1 hdet
    cases hrep with
    | @cons _ _ us vs hR hrep =>
      have hstop : StopsAt stop (bs.flatMap f) :=
        stopsAt_repeats (R := fun b us => us = f b) (fun b us hus => hus ▸ hstart' b)
          (repeats_flatMap fun _ _ => rfl)
      rw [List.flatMap_cons, List.append_assoc, List.append_assoc] at h
      obtain ⟨rfl, hmore⟩ := hb a us hQ hR _ _ h ((stopsAt_repeats hstart hrep).append hr)
        (hstop.append hr')
      exact List.forall_mem_cons.2 ⟨⟨a, hQ, hR⟩, ih hrep hmore hbs⟩

/-- Phrases with a stop between them, against as many texts with it between them. -/
theorem Series.aligned {b : β} (hab : List.Forall₂ Q as (b :: bs)) (hseries : Series t R as ts)
    (h : ts ++ r = (f b ++ bs.flatMap fun b => t :: f b) ++ r') (ht : stop t)
    (hr : StopsAt stop r) (hr' : StopsAt stop r')
    (hdet : ∀ b' ∈ b :: bs, ∀ a us, Q a b' → R a us → Determined stop us (f b')) :
    ∀ b' ∈ b :: bs, ∃ a, Q a b' ∧ R a (f b') := by
  obtain ⟨hb, hbs⟩ := List.forall_mem_cons.1 hdet
  cases hseries with
  | @mk a as us vs hR hmore =>
    cases hab with
    | cons hQ hab =>
      have hstart : ∀ a us, Led t R a us → ∃ u more, us = u :: more ∧ stop u := by
        rintro _ _ ⟨-⟩
        exact ⟨_, _, rfl, ht⟩
      have hstop : StopsAt stop (bs.flatMap fun b => t :: f b) :=
        stopsAt_repeats (R := fun b us => us = t :: f b) (fun b us hus => ⟨_, _, hus, ht⟩)
          (repeats_flatMap fun _ _ => rfl)
      rw [List.append_assoc, List.append_assoc] at h
      obtain ⟨rfl, hrest⟩ := hb a us hQ hR _ _ h ((stopsAt_repeats hstart hmore).append hr)
        (hstop.append hr')
      refine List.forall_mem_cons.2 ⟨⟨a, hQ, hR⟩, fun b hb => ?_⟩
      obtain ⟨a, hQ, hled⟩ := hmore.aligned hab hrest hr hr' hstart (fun b => ⟨_, _, rfl, ht⟩)
        (by
          rintro b hb a _ hQ ⟨hR⟩
          exact (hbs b hb a _ hQ hR).cons) b hb
      cases hled with
      | mk hR => exact ⟨a, hQ, hR⟩

end

end RowFilter.Grammar
