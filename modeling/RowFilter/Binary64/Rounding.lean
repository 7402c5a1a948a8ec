import RowFilter.Binary64.Basic

/-! Rounding to the nearest double, a half to the even rank. `ofRatio` rounds an
exact quotient and `ofDecimal` a number written in decimal; what lies half a step
above the greatest finite double or further out is infinite. -/

namespace RowFilter.Binary64

/-- The quotient rounded to the nearest whole number, a half to the even one. -/
def divHalfEven (num den : Nat) : Nat :=
  let quotient := num / den
  let double := 2 * (num % den)
  if double < den then quotient
  else if den < double then quotient + 1
  else quotient + quotient % 2

/-- The rank of the double nearest to `num / den`, as if ranks went on for ever.
The quotient in steps is cut to 53 binary digits, and a step of the last digit is
a step of the rank. -/
def nearestRank (num den : Nat) : Nat :=
  let scaled := num * stepsPerOne
  let shift := Nat.log2 (scaled / den) - 52
  shift * blockSize + divHalfEven scaled (den * Nat.pow 2 shift)

def ofRank (negative : Bool) (rank : Nat) : Binary64 :=
  if h : rank < finiteCount then .finite negative ⟨rank, h⟩ else .infinite negative

def ofRatio (negative : Bool) (num den : Nat) : Binary64 :=
  ofRank negative (nearestRank num den)

/-- The double nearest to `significand * 10 ^ exponent`. Exponents far outside the
range of doubles are answered without the power: `10 ^ 311` is beyond the greatest
double, and what is below `10 ^ -399` is below half a step. -/
def ofDecimal (negative : Bool) (significand : Nat) (exponent : Int) : Binary64 :=
  if significand = 0 then zero negative
  else if 310 < exponent then .infinite negative
  else if exponent + 400 + Nat.log2 significand < 0 then zero negative
  else match exponent with
    | .ofNat e => ofRatio negative (significand * Nat.pow 10 e) 1
    | .negSucc e => ofRatio negative significand (Nat.pow 10 (e + 1))

theorem divHalfEven_mul (quotient den : Nat) (h : 0 < den) :
    divHalfEven (quotient * den) den = quotient := by
  simp [divHalfEven, Nat.mul_div_cancel _ h, h]

end RowFilter.Binary64
