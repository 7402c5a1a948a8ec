import RowFilter.Proofs.Grammar.Congruence

/-! What every reader of the grammar leaves behind: a rest of its text and the level it was
started at. A place where the limit was passed is kept, and a new one is in the text. -/

namespace RowFilter.Grammar

open Reader

/-- How a nesting may change while a text is read. -/
def Carried (cs : List Char) (n m : Nesting) : Prop :=
  m.level = n.level ∧
    (m.past = n.past ∨ n.past = none ∧ ∃ place, place <:+ cs ∧ m.past = some place)

/-- The reader leaves a rest of its text and carries the nesting through. -/
structure Orderly {α : Type} (p : Reader α) : Prop where
  carried (n : Nesting) (cs : List Char) : Carried cs n (p n cs).nesting
  rest {n n' : Nesting} {cs rest : List Char} {a : α} : p n cs = .read a rest n' → rest <:+ cs

variable {α β : Type} {p : Reader α} {cs rest : List Char} {n m k : Nesting} {guard : Guard}

namespace Carried

theorem refl (cs : List Char) (n : Nesting) : Carried cs n n := ⟨rfl, .inl rfl⟩

theorem trans (h : Carried cs n m) (hrest : rest <:+ cs) (hm : Carried rest m k) :
    Carried cs n k := by
  obtain ⟨hlevel, hpast⟩ := h
  obtain ⟨hlevel', hpast'⟩ := hm
  refine ⟨hlevel'.trans hlevel, ?_⟩
  rcases hpast' with hkept | ⟨hnone, place, hplace, hnew⟩
  · rw [hkept]
    exact hpast
  · rcases hpast with hkept | ⟨-, place', -, hsome⟩
    · exact .inr ⟨hkept.symm.trans hnone, place, hplace.trans hrest, hnew⟩
    · rw [hnone] at hsome
      cases hsome

/-- The first place where the limit was passed stays. -/
theorem past_eq {place : List Char} (h : Carried cs n m) (hn : n.past = some place) :
    m.past = some place := by
  rcases h.2 with hkept | ⟨hnone, -⟩
  · exact hkept.trans hn
  · rw [hn] at hnone
    cases hnone

theorem of_none (h : Carried cs n m) (hm : m.past = none) : m = n := by
  obtain ⟨hlevel, hkept | ⟨-, place, -, hsome⟩⟩ := h
  · obtain ⟨level, past⟩ := m
    subst hlevel hkept
    rfl
  · rw [hm] at hsome
    cases hsome

/-- One level deeper and back again. -/
theorem leave (h : Carried cs ⟨n.level + 1, n.past⟩ m) : Carried cs n ⟨m.level - 1, m.past⟩ :=
  ⟨by rw [h.1]; rfl, h.2⟩

end Carried

namespace Reply

variable {r : Reply α} {a : α}

theorem nesting_leave (r : Reply α) : r.leave.nesting = ⟨r.nesting.level - 1, r.nesting.past⟩ := by
  cases r <;> rfl

theorem read_of_leave (h : r.leave = .read a rest n) : ∃ m, r = .read a rest m := by
  cases r with
  | read b mid m =>
    cases h
    exact ⟨m, rfl⟩
  | refused m | halted m => cases h

theorem halted_of_leave (h : r.leave = .halted n) : ∃ m, r = .halted m := by
  cases r with
  | halted m => exact ⟨m, rfl⟩
  | read b mid m | refused m => cases h

end Reply

namespace Orderly

theorem carried_eq {r : Reply α} (h : Orderly p) (hp : p n cs = r) : Carried cs n r.nesting := by
  rw [← hp]
  exact h.carried n cs

theorem bind {f : α → Reader β} (hp : Orderly p) (hf : ∀ a, Orderly (f a)) :
    Orderly (p >>= f) := by
  constructor
  · intro n cs
    cases h : p n cs with
    | read a rest m =>
      rw [bind_of_read h]
      exact (hp.carried_eq h).trans (hp.rest h) ((hf a).carried m rest)
    | refused m =>
      rw [bind_of_refused h]
      exact hp.carried_eq h
    | halted m =>
      rw [bind_of_halted h]
      exact hp.carried_eq h
  · intro n n' cs rest b h
    cases hread : p n cs with
    | read a mid m =>
      rw [bind_of_read hread] at h
      exact ((hf a).rest h).trans (hp.rest hread)
    | refused m =>
      rw [bind_of_refused hread] at h
      cases h
    | halted m =>
      rw [bind_of_halted hread] at h
      cases h

theorem ofOption {read : List Char → Option (α × List Char)} (hread : LeavesSuffix read) :
    Orderly (Reader.ofOption read) := by
  constructor
  · intro n cs
    unfold Reader.ofOption
    cases read cs <;> exact Carried.refl cs n
  · intro n n' cs rest a h
    unfold Reader.ofOption at h
    cases hr : read cs with
    | some found =>
      rw [hr] at h
      cases h
      exact hread _ _ _ hr
    | none =>
      rw [hr] at h
      cases h

theorem optional (hp : Orderly p) : Orderly (Reader.optional p) := by
  constructor
  · intro n cs
    unfold Reader.optional
    cases h : p n cs with
    | read a rest m => exact hp.carried_eq h
    | refused m => exact hp.carried_eq h
    | halted m => exact hp.carried_eq h
  · intro n n' cs rest a h
    unfold Reader.optional at h
    cases hread : p n cs with
    | read a mid m =>
      rw [hread] at h
      cases h
      exact hp.rest hread
    | refused m =>
      rw [hread] at h
      cases h
      exact List.suffix_rfl
    | halted m =>
      rw [hread] at h
      cases h

/-- Readers chosen by the text are orderly if each of them is. -/
theorem chosen {q : List Char → Reader α} (h : ∀ cs, Orderly (q cs)) :
    Orderly fun n cs => q cs n cs :=
  ⟨fun n cs => (h cs).carried n cs, fun {_ _ cs _ _} hread => (h cs).rest hread⟩

theorem many (h : ∀ count, Orderly (Reader.atMost count p)) : Orderly (Reader.many p) :=
  chosen (q := fun cs => Reader.atMost (cs.length + 1) p) fun _ => h _

theorem value (a : α) : Orderly (pure a) := by
  refine ⟨fun n cs => .refl cs n, fun h => ?_⟩
  cases h
  exact List.suffix_rfl

theorem refuse : Orderly (Reader.refuse : Reader α) :=
  ⟨fun n cs => .refl cs n, fun h => by cases h⟩

theorem congruent : Congruent fun _ p _ => Orderly p where
  value := value
  refuse := refuse
  ofOption := ofOption
  bind hp hf := hp.bind hf
  optional hp := hp.optional
  many h := many h

theorem halt : Orderly (Reader.halt : Reader α) :=
  ⟨fun n cs => .refl cs n, fun h => by cases h⟩

theorem nested (hp : Orderly p) : Orderly (Grammar.nested guard p) := by
  have hleave {n n' : Nesting} {cs rest : List Char} {a : α}
      (h : (p n cs).leave = .read a rest n') : rest <:+ cs := by
    obtain ⟨m, hread⟩ := Reply.read_of_leave h
    exact hp.rest hread
  constructor
  · intro n cs
    unfold Grammar.nested
    split
    · rw [Reply.nesting_leave]
      exact (hp.carried _ cs).leave
    · -- the place of this entry is the first one or gives way to an earlier one
      have hpast : some (n.past.getD cs) = n.past ∨
          n.past = none ∧ ∃ place, place <:+ cs ∧ some (n.past.getD cs) = some place := by
        cases n.past with
        | none => exact .inr ⟨rfl, cs, List.suffix_rfl, rfl⟩
        | some place => exact .inl rfl
      cases guard with
      | enforced => exact ⟨rfl, hpast⟩
      | observed =>
        rw [Reply.nesting_leave]
        have hentry : Carried cs n ⟨n.level, some (n.past.getD cs)⟩ := ⟨rfl, hpast⟩
        exact hentry.trans List.suffix_rfl (hp.carried _ cs).leave
  · intro n n' cs rest a h
    unfold Grammar.nested at h
    split at h
    · exact hleave h
    · cases guard with
      | enforced => cases h
      | observed => exact hleave h

/-- Rules over orderly readers are orderly. -/
theorem rules {inner : Inner} (hitem : Orderly inner.item) (hnegand : Orderly inner.negand) :
    Orderly (disjunction inner) ∧ Orderly (negation inner) := by
  have hdisjunction : Orderly (disjunction inner) :=
    congruent.disjunction (J := inner) congruent congruent.descends hitem hnegand
  have hnegation : Orderly (negation inner) :=
    congruent.negation (J := inner) congruent congruent.descends hitem hnegand
  exact ⟨hdisjunction, hnegation⟩

end Orderly

/-- Every sub-expression is read in order, whatever happens inside it. -/
theorem inner_orderly (guard : Guard) (depth : Nat) :
    Orderly (inner guard depth).item ∧ Orderly (inner guard depth).negand := by
  induction depth with
  | zero => exact ⟨Orderly.halt.nested, Orderly.halt.nested⟩
  | succ depth ih =>
    obtain ⟨hdisjunction, hnegation⟩ := Orderly.rules ih.1 ih.2
    exact ⟨hdisjunction.nested, hnegation.nested⟩

end RowFilter.Grammar
