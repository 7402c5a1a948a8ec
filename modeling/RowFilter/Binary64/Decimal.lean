/-! Numbers in decimal: a significand and a power of ten, and the two ways to
write one, positional (`0.0025`) and scientific (`2.5e-3`). -/

namespace RowFilter

/-- Stands for `significand * 10 ^ exponent`. -/
structure Decimal where
  significand : Nat
  exponent : Int
  deriving DecidableEq

/-- How many digits a number has in decimal; zero has one. -/
def digitCount (n : Nat) : Nat := (Nat.toDigits 10 n).length

/-- The last `width` decimal digits of a number, leading zeros included. -/
def fixedDigits : Nat → Nat → List Char
  | 0, _ => []
  | width + 1, n => fixedDigits width (n / 10) ++ [Nat.digitChar (n % 10)]

theorem length_fixedDigits (width n : Nat) : (fixedDigits width n).length = width := by
  induction width generalizing n with
  | zero => rfl
  | succ width ih => simp [fixedDigits, ih]

namespace Decimal

/-- Moves up to `count` trailing zeros of the significand into the exponent. -/
def dropZeros : Nat → Decimal → Decimal
  | 0, d => d
  | count + 1, d =>
    if d.significand ≠ 0 ∧ d.significand % 10 = 0 then
      dropZeros count ⟨d.significand / 10, d.exponent + 1⟩
    else d

/-- The power of ten of the first digit. -/
def order (d : Decimal) : Int := d.exponent + digitCount d.significand - 1

/-- Without an exponent and with at least one digit behind the point. -/
def positional (d : Decimal) : String :=
  match d.exponent with
  | .ofNat e => toString (d.significand * Nat.pow 10 e) ++ ".0"
  | .negSucc e =>
    toString (d.significand / Nat.pow 10 (e + 1)) ++ "." ++
      String.ofList (fixedDigits (e + 1) (d.significand % Nat.pow 10 (e + 1)))

/-- One digit before the point, no point without digits behind it, and a signed
exponent. -/
def scientific (d : Decimal) : String :=
  let mantissa := match Nat.toDigits 10 d.significand with
    | first :: [] => String.ofList [first]
    | first :: more => String.ofList (first :: '.' :: more)
    | [] => ""
  let sign := if d.order < 0 then "-" else "+"
  mantissa ++ "e" ++ sign ++ toString d.order.natAbs

end Decimal

end RowFilter
