import RowFilter.Binary64.Decimal
import RowFilter.Binary64.Rounding

/-! The shortest decimal that reads back. For one, two, … seventeen digits the two
neighbours of the magnitude on that decimal grid are read back; the first grid with
a hit wins, of two hits the nearer one, and the caller says which way a tie goes.
Seventeen digits always suffice; the exact value stands behind them, so every answer
reads back whatever the grids hold. -/

namespace RowFilter.Binary64

/-- Which of two equally near decimals is taken. -/
inductive Tie where
  | even
  | away
  deriving DecidableEq

def readsBack (rank : Nat) (d : Decimal) : Bool :=
  match ofDecimal false d.significand d.exponent with
  | .finite _ r => r.val == rank
  | _ => false

/-- Every magnitude is a whole number of steps of `10 ^ -1074`. -/
def exactDecimal (rank : Nat) : Decimal := ⟨units rank * Nat.pow 5 1074, -1074⟩

/-- The magnitude in steps of `10 ^ -341`, rounded down: at least 18 digits unless
it is zero. -/
def leadingSteps (rank : Nat) : Nat := units rank * Nat.pow 10 341 / stepsPerOne

/-- Whether the upper one of the neighbours `low` and `low + 1` steps of
`10 ^ (dropped - 341)` is taken. -/
def takesUpper (tie : Tie) (rank low dropped : Nat) : Bool :=
  let magnitude := 2 * units rank * Nat.pow 10 341
  let middle := (2 * low + 1) * Nat.pow 10 dropped * stepsPerOne
  if magnitude = middle then
    match tie with
    | .even => low % 2 == 1
    | .away => true
  else decide (middle < magnitude)

/-- The neighbour with `count` digits that reads back, if there is one. -/
def withDigits? (tie : Tie) (rank count : Nat) : Option Decimal :=
  let steps := leadingSteps rank
  let dropped := digitCount steps - count
  let low := steps / Nat.pow 10 dropped
  let exponent : Int := dropped - 341
  let lower := Decimal.dropZeros count ⟨low, exponent⟩
  let upper := Decimal.dropZeros count ⟨low + 1, exponent⟩
  let nearer := if takesUpper tie rank low dropped then upper else lower
  let farther := if takesUpper tie rank low dropped then lower else upper
  if readsBack rank nearer then some nearer
  else if readsBack rank farther then some farther
  else none

def shortest (tie : Tie) (rank : Nat) : Decimal :=
  if rank = 0 then ⟨0, 0⟩
  else ((List.range 17).findSome? fun fewer => withDigits? tie rank (fewer + 1)).getD
    (exactDecimal rank)

end RowFilter.Binary64
