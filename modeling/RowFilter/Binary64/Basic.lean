/-! Double-precision numbers. A finite one is a sign and the rank of its
magnitude: the non-negative finite doubles in increasing order have the ranks
`0, 1, 2, …`, and rank `r` stands for `units r` steps of `2 ^ -1074`, the least
positive double. Equality in the logic tells `0.0` from `-0.0`; `sameNumber` is
the numeric comparison. -/

namespace RowFilter

namespace Binary64

/-- The ranks between two powers of two, `2 ^ 52`. -/
abbrev blockSize : Nat := 4503599627370496

/-- How many magnitudes are finite: 2047 blocks. -/
abbrev finiteCount : Nat := 9218868437227405312

/-- How many steps of `2 ^ -1074` make one. -/
def stepsPerOne : Nat := Nat.pow 2 1074

end Binary64

inductive Binary64 where
  | finite (negative : Bool) (rank : Fin Binary64.finiteCount)
  | infinite (negative : Bool)
  | nan
  deriving DecidableEq

namespace Binary64

def zero (negative : Bool) : Binary64 := .finite negative ⟨0, by decide⟩

def isFinite : Binary64 → Bool
  | .finite _ _ => true
  | _ => false

/-- Equality of numbers: the two zeros agree and a NaN differs from itself. -/
def sameNumber : Binary64 → Binary64 → Bool
  | .finite s a, .finite t b => a == b && (s == t || a.val == 0)
  | .infinite s, .infinite t => s == t
  | _, _ => false

/-- The magnitude of a rank, counted in steps of `2 ^ -1074`. The first two
blocks of ranks are one step apart, and every further block doubles the distance. -/
def units (rank : Nat) : Nat :=
  if rank < blockSize then rank
  else (blockSize + rank % blockSize) * Nat.pow 2 (rank / blockSize - 1)

theorem units_of_lt {rank : Nat} (h : rank < blockSize) : units rank = rank := by
  rw [units, if_pos h]

theorem units_block (block offset : Nat) (h : offset < blockSize) :
    units ((block + 1) * blockSize + offset) = (blockSize + offset) * Nat.pow 2 block := by
  have hq : ((block + 1) * blockSize + offset) / blockSize = block + 1 := by
    unfold blockSize at *; omega
  have hr : ((block + 1) * blockSize + offset) % blockSize = offset := by
    unfold blockSize at *; omega
  have hb : ¬ (block + 1) * blockSize + offset < blockSize := by
    unfold blockSize at *; omega
  rw [units, if_neg hb, hq, hr, Nat.add_sub_cancel]

theorem sameNumber_self {x : Binary64} : sameNumber x x = true ↔ x ≠ .nan := by
  cases x <;> simp [sameNumber]

end Binary64

end RowFilter
