import RowFilter.Catalog.Basic

/-! Computations that ask for names. Beside its outcome a run keeps every name asked, in
order, up to and including the one that ended it. -/

namespace RowFilter

structure Traced (ε α : Type) where
  asked : List String
  outcome : Except ε α

namespace Traced

variable {ε α β : Type}

instance : Monad (Traced ε) where
  pure a := ⟨[], .ok a⟩
  bind run next := match run.outcome with
    | .error e => ⟨run.asked, .error e⟩
    | .ok a => ⟨run.asked ++ (next a).asked, (next a).outcome⟩

/-- An outcome that needs no name. -/
def ofExcept (outcome : Except ε α) : Traced ε α := ⟨[], outcome⟩

def mapError {δ : Type} (f : ε → δ) (run : Traced ε α) : Traced δ α :=
  ⟨run.asked, run.outcome.mapError f⟩

/-- Asks for one name. -/
def ask (lookup : Lookup) (name : String) : Traced LookupError Metadata :=
  ⟨[name], lookup name⟩

@[simp] theorem asked_pure (a : α) : (pure a : Traced ε α).asked = [] := rfl

@[simp] theorem outcome_pure (a : α) : (pure a : Traced ε α).outcome = .ok a := rfl

theorem bind_of_ok {run : Traced ε α} {a : α} (h : run.outcome = .ok a) (next : α → Traced ε β) :
    run >>= next = ⟨run.asked ++ (next a).asked, (next a).outcome⟩ := by
  simp only [bind, h]

theorem bind_of_error {run : Traced ε α} {e : ε} (h : run.outcome = .error e)
    (next : α → Traced ε β) : run >>= next = ⟨run.asked, .error e⟩ := by
  simp only [bind, h]

end Traced

end RowFilter
