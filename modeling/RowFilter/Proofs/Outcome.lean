/-! When a sequence of steps that may fail succeeds: each step does, and the answer of one
is what the next one starts from. Reading the items of a list with a partial inverse of
`make` succeeds exactly on lists that `make` made. -/

namespace RowFilter.Outcome

variable {ε δ α β γ : Type}

theorem bind_eq_ok_iff {run : Except ε α} {next : α → Except ε β} {b : β} :
    run >>= next = .ok b ↔ ∃ a, run = .ok a ∧ next a = .ok b := by
  cases run <;> simp [bind, Except.bind]

theorem map_eq_ok_iff {run : Except ε α} {f : α → β} {b : β} :
    run.map f = .ok b ↔ ∃ a, run = .ok a ∧ f a = b := by
  cases run <;> simp [Except.map]

theorem mapError_eq_ok_iff {run : Except ε α} {f : ε → δ} {a : α} :
    run.mapError f = .ok a ↔ run = .ok a := by
  cases run with
  | ok b =>
    change Except.ok b = Except.ok a ↔ _
    simp
  | error e =>
    change Except.error (f e) = Except.ok a ↔ _
    simp

theorem pure_eq_ok_iff {a b : α} : (pure a : Except ε α) = .ok b ↔ a = b := by
  simp [pure, Except.pure]

theorem mapM_eq_some_iff {read : α → Option β} {make : β → α}
    (h : ∀ a b, read a = some b ↔ a = make b) (as : List α) (bs : List β) :
    as.mapM read = some bs ↔ as = bs.map make := by
  induction as generalizing bs with
  | nil => cases bs <;> simp
  | cons a as ih =>
    rw [List.mapM_cons]
    simp only [bind, Option.bind_eq_some_iff, ih, h]
    cases bs <;> simp

theorem mapM_eq_ok_iff {read : α → Except ε β} {make : γ → α} {answer : γ → β}
    (h : ∀ a b, read a = .ok b ↔ ∃ c, a = make c ∧ b = answer c) (as : List α) (bs : List β) :
    as.mapM read = .ok bs ↔ ∃ cs : List γ, as = cs.map make ∧ bs = cs.map answer := by
  induction as generalizing bs with
  | nil =>
    rw [List.mapM_nil, pure_eq_ok_iff]
    constructor
    · rintro rfl
      exact ⟨[], rfl, rfl⟩
    · intro hparts
      obtain ⟨cs, hc, rfl⟩ := hparts
      rw [List.map_eq_nil_iff.1 hc.symm]
      rfl
  | cons a as ih =>
    rw [List.mapM_cons]
    simp only [bind_eq_ok_iff, pure_eq_ok_iff, ih, h]
    constructor
    · intro hparts
      obtain ⟨b, ⟨c, rfl, rfl⟩, more, ⟨cs, rfl, rfl⟩, rfl⟩ := hparts
      exact ⟨c :: cs, rfl, rfl⟩
    · intro hparts
      obtain ⟨cs, hc, rfl⟩ := hparts
      cases cs with
      | nil => cases hc
      | cons c cs =>
        obtain ⟨rfl, rfl⟩ := List.cons.inj hc
        exact ⟨_, ⟨c, rfl, rfl⟩, _, ⟨cs, rfl, rfl⟩, rfl⟩

end RowFilter.Outcome
