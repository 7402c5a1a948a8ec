import RowFilter.Binary64.Rounding

/-! Multiplying and dividing doubles, each result rounded, and the reading of a decimal
that rounds its significand, its power of ten and their product or quotient. The last
may be off the nearest double by a step; `ofDecimal` never is. -/

namespace RowFilter.Binary64

def mulRank (a b : Nat) : Nat := nearestRank (units a * units b) (stepsPerOne * stepsPerOne)

def divRank (a b : Nat) : Nat := nearestRank (units a) (units b)

def powerRank (exponent : Nat) : Nat := nearestRank (Nat.pow 10 exponent) 1

/-- Scales a rank by a power of ten, by at most `10 ^ 308` in one step. Beyond the
greatest finite double there is no answer; a few steps down from any rank lie at zero. -/
def scaleRank? : Nat → Nat → Int → Option Nat
  | 0, _, _ => some 0
  | steps + 1, rank, exponent =>
    if exponent.natAbs ≤ 308 then
      let power := powerRank exponent.natAbs
      if 0 ≤ exponent then
        if mulRank rank power < finiteCount then some (mulRank rank power) else none
      else some (divRank rank power)
    else if rank = 0 then some 0
    else if 0 ≤ exponent then none
    else scaleRank? steps (divRank rank (powerRank 308)) (exponent + 308)

/-- `significand * 10 ^ exponent` for a significand of 64 bits, if it is not too great. -/
def ofScaled? (negative : Bool) (significand : Nat) (exponent : Int) : Option Binary64 :=
  (scaleRank? 4 (nearestRank significand 1) exponent).map (ofRank negative)

end RowFilter.Binary64
