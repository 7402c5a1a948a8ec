import RowFilter.Proofs.Binary64.Exact
import RowFilter.Proofs.Grammar.Phrase
import RowFilter.Tree.Render

/-! Numbers and texts as they are rendered. The text of a number is a numeral of the
grammar that stands for this very number, and a quoted text is read back. -/

namespace RowFilter

open Grammar

namespace Numeral

/-- The numeral without its sign. -/
def magnitude (n : Numeral) : Numeral := { n with negative := false }

theorem chars_of_negative (n : Numeral) (h : n.negative = true) :
    n.chars = '-' :: n.magnitude.chars := by
  simp [chars, magnitude, h]

end Numeral

/-- The numeral is well written, sign apart, and stands for the literal. -/
structure Numeral.Denotes (n : Numeral) (l : Literal) : Prop where
  written : n.magnitude.Written
  literal : literalOf n = l

theorem fixedDigits_isDigit (width n : Nat) : ∀ c ∈ fixedDigits width n, c.isDigit = true := by
  induction width generalizing n with
  | zero => simp [fixedDigits]
  | succ width ih =>
    intro c hc
    simp only [fixedDigits, List.mem_append, List.mem_singleton] at hc
    rcases hc with hc | rfl
    · exact ih _ c hc
    · rw [Nat.isDigit_digitChar]
      exact decide_eq_true (Nat.mod_lt _ (by decide))

theorem ofDigitChars_fixedDigits (width n start : Nat) :
    Nat.ofDigitChars 10 (fixedDigits width n) start =
      Nat.pow 10 width * start + n % Nat.pow 10 width := by
  induction width generalizing n with
  | zero => simp [fixedDigits, Nat.mod_one]
  | succ width ih =>
    rw [fixedDigits, Nat.ofDigitChars_append, ih,
      Nat.ofDigitChars_cons_digitChar_of_lt_ten (Nat.mod_lt _ (by decide)), Nat.ofDigitChars_nil,
      Nat.pow_eq, Nat.pow_eq, Nat.pow_succ, Nat.mul_comm (10 ^ width) 10, Nat.mod_mul, Nat.mul_add,
      Nat.mul_assoc]
    omega

theorem toDigits_isDigit (n : Nat) : ∀ c ∈ Nat.toDigits 10 n, c.isDigit = true :=
  fun _ hc => Nat.isDigit_of_mem_toDigits (by decide) (by decide) hc

/-- The digits of a whole number behind its sign. -/
def intNumeral (value : Int) : Numeral :=
  ⟨decide (value < 0), Nat.toDigits 10 value.natAbs, none, none⟩

theorem written_intNumeral (value : Int) : (intNumeral value).magnitude.Written :=
  ⟨rfl, toDigits_isDigit _, by simp [intNumeral, Numeral.magnitude], .inl Nat.toDigits_ne_nil,
    by simp [intNumeral, Numeral.magnitude]⟩

theorem value_intNumeral (value : Int) :
    (if (intNumeral value).negative then -((intNumeral value).significand : Int)
      else (intNumeral value).significand) = value := by
  simp only [intNumeral, Numeral.significand, Option.getD_none, List.append_nil,
    Nat.ofDigitChars_ten_toDigits, decide_eq_true_eq]
  split <;> omega

theorem chars_intNumeral (value : Int) : (toString value).toList = (intNumeral value).chars := by
  cases value with
  | ofNat m =>
    change (toString m).toList = _
    simp [intNumeral, Numeral.chars]
  | negSucc m =>
    change ("-" ++ toString (m + 1)).toList = _
    simp [intNumeral, Numeral.chars, Int.natAbs]

theorem intNumeral_denotes (value : Int64) :
    ∃ n : Numeral, n.Denotes (.int value) ∧ (toString value.toInt).toList = n.chars := by
  refine ⟨intNumeral value.toInt, ⟨written_intNumeral _, ?_⟩, chars_intNumeral _⟩
  simp only [literalOf, Numeral.int64?, value_intNumeral, int64?_toInt]
  rfl

section

variable {negative : Bool} {rank : Fin Binary64.finiteCount}

def signChars (negative : Bool) : List Char := if negative then ['-'] else []

theorem signed_toList (negative : Bool) (text : String) :
    ((if negative then "-" else "") ++ text).toList = signChars negative ++ text.toList := by
  cases negative <;> simp [signChars]

theorem pointed_denotes {whole fraction : List Char} (hwhole : ∀ c ∈ whole, c.isDigit = true)
    (hne : whole ≠ []) (hfraction : ∀ c ∈ fraction, c.isDigit = true)
    (h : Binary64.ofDecimal negative (Nat.ofDigitChars 10 (whole ++ fraction) 0)
      (-fraction.length) = .finite negative rank) :
    Numeral.Denotes ⟨negative, whole, some fraction, none⟩ (.float (.finite negative rank)) := by
  refine ⟨⟨rfl, hwhole, ?_, .inl hne, by simp [Numeral.magnitude]⟩, ?_⟩
  · rintro _ ⟨⟩
    exact hfraction
  · have hvalue : Numeral.toBinary64 ⟨negative, whole, some fraction, none⟩ =
        .finite negative rank := by
      simpa [Numeral.toBinary64, Numeral.significand, Numeral.scale] using h
    simp only [literalOf, hvalue]
    rfl

theorem wholeNumeral_denotes {whole : Nat}
    (h : Binary64.ofDecimal negative (whole * 10) (-1) = .finite negative rank) :
    ∃ n : Numeral, n.Denotes (.float (.finite negative rank)) ∧
      signChars negative ++ (toString whole ++ ".0").toList = n.chars := by
  refine ⟨_, pointed_denotes (toDigits_isDigit whole) Nat.toDigits_ne_nil
    (show ∀ c ∈ ['0'], c.isDigit = true by simp) ?_, by simp [Numeral.chars, signChars]⟩
  rw [← h, Nat.ofDigitChars_append, Nat.ofDigitChars_ten_toDigits]
  simp [Nat.ofDigitChars_cons, Nat.mul_comm]

theorem fractionNumeral_denotes {significand e : Nat}
    (h : Binary64.ofDecimal negative significand (.negSucc e) = .finite negative rank) :
    ∃ n : Numeral, n.Denotes (.float (.finite negative rank)) ∧
      signChars negative ++ (toString (significand / Nat.pow 10 (e + 1)) ++ "." ++
        String.ofList (fixedDigits (e + 1) (significand % Nat.pow 10 (e + 1)))).toList =
          n.chars := by
  refine ⟨_, pointed_denotes (toDigits_isDigit (significand / Nat.pow 10 (e + 1)))
    Nat.toDigits_ne_nil (fixedDigits_isDigit (e + 1) (significand % Nat.pow 10 (e + 1))) ?_,
    by simp [Numeral.chars, signChars]⟩
  have hsignificand : 10 ^ (e + 1) * (significand / 10 ^ (e + 1)) +
      significand % 10 ^ (e + 1) % 10 ^ (e + 1) = significand := by
    rw [Nat.mod_mod, Nat.div_add_mod]
  rw [← h, Nat.ofDigitChars_append, Nat.ofDigitChars_ten_toDigits, ofDigitChars_fixedDigits,
    length_fixedDigits, Nat.pow_eq, hsignificand]
  rfl

/-- The positional text of a decimal that is read as a double is a numeral for this double. -/
theorem positional_denotes {d : Decimal}
    (h : Binary64.ofDecimal negative d.significand d.exponent = .finite negative rank) :
    ∃ n : Numeral, n.Denotes (.float (.finite negative rank)) ∧
      signChars negative ++ d.positional.toList = n.chars := by
  obtain ⟨significand, exponent⟩ := d
  cases exponent with
  | negSucc e => exact fractionNumeral_denotes h
  | ofNat e =>
    refine wholeNumeral_denotes ?_
    by_cases hzero : significand = 0
    · rw [← h, hzero, Nat.zero_mul, Nat.zero_mul, Binary64.ofDecimal_zero,
        Binary64.ofDecimal_zero]
    · exact Binary64.ofDecimal_point h hzero

end

/-- The text of a finite double is a numeral that reads back as this double. -/
theorem floatNumeral_denotes {x : Binary64} (hx : x.isFinite = true) :
    ∃ n : Numeral, n.Denotes (.float x) ∧ x.plainText.toList = n.chars := by
  cases x with
  | nan | infinite => cases hx
  | finite negative rank =>
    simp only [Binary64.plainText, signed_toList]
    by_cases hwhole : Binary64.units rank % Binary64.stepsPerOne = 0
    · have hexact : Binary64.units rank / Binary64.stepsPerOne * Binary64.stepsPerOne =
          Binary64.units rank := Nat.div_mul_cancel (Nat.dvd_of_mod_eq_zero hwhole)
      rw [if_pos hwhole]
      have htext (whole : Nat) : (Decimal.mk whole 0).positional = toString whole ++ ".0" := by
        change toString (whole * Nat.pow 10 0) ++ ".0" = _
        simp
      rw [htext]
      exact wholeNumeral_denotes (Binary64.ofDecimal_whole hexact)
    · rw [if_neg hwhole]
      exact positional_denotes (Binary64.ofDecimal_shortest .away negative rank)

/-- A literal that a source can hold: floats are finite, and what is out of range is the
text of a numeral without a value. -/
def Literal.WellFormed : Literal → Prop
  | .float x => x.isFinite = true
  | .outOfRange text => ∃ n : Numeral, n.Denotes (.outOfRange text)
  | _ => True

def Literal.isNumber : Literal → Bool
  | .int _ | .float _ | .outOfRange _ => true
  | _ => false

/-- What is out of range is kept as written. -/
theorem literalOf_eq_outOfRange_iff {n : Numeral} {text : String} :
    literalOf n = .outOfRange text ↔ n.text = text ∧ (n.isWhole = true → n.int64? = none) ∧
      (n.isWhole = false → n.toBinary64.isFinite = false) := by
  unfold literalOf
  cases hwhole : n.isWhole with
  | true => cases n.int64? <;> simp
  | false => cases n.toBinary64.isFinite <;> simp

/-- The text of a number is a numeral that stands for it. -/
theorem Literal.exists_numeral {l : Literal} (hl : l.WellFormed) (hn : l.isNumber = true) :
    ∃ n : Numeral, n.Denotes l ∧ l.render.toList = n.chars := by
  cases l with
  | int value => exact intNumeral_denotes value
  | float x => exact floatNumeral_denotes hl
  | outOfRange text =>
    obtain ⟨n, hn⟩ := hl
    refine ⟨n, hn, ?_⟩
    rw [Literal.render, ← (literalOf_eq_outOfRange_iff.1 hn.literal).1, Numeral.text,
      String.toList_ofList]
  | str | bool | none => cases hn

/-- What a numeral of the grammar stands for is well formed. -/
theorem literalOf_wellFormed {n : Numeral} (hn : n.magnitude.Written) :
    (literalOf n).WellFormed := by
  have hden : n.Denotes (literalOf n) := ⟨hn, rfl⟩
  cases hl : literalOf n with
  | float x =>
    unfold literalOf at hl
    split at hl
    · split at hl <;> cases hl
    · split at hl
      · rename_i hfinite
        cases hl
        exact hfinite
      · cases hl
  | outOfRange text => exact ⟨n, hl ▸ hden⟩
  | _ => trivial

theorem unescape_escaped (c : Char) (rest : List Char) :
    quotedBody? '"' (escaped c ++ rest) =
      (quotedBody? '"' rest).map fun (body, rest) => (c :: body, rest) := by
  unfold escaped
  split
  all_goals try rfl
  rename_i hbackslash hquote _ _ _ _
  simp only [List.cons_append, List.nil_append]
  rw [quotedBody?.eq_def]
  split
  · rename_i h
    cases h
  · rename_i h
    cases h
    exact absurd rfl hbackslash
  · rename_i h
    cases h
    exact absurd rfl hbackslash
  · rename_i h
    cases h
    rw [if_neg hquote]

/-- A quoted text is read back up to its closing quote. -/
theorem quotedText?_quoted (s : String) (rest : List Char) :
    quotedText? ((quoted s).toList ++ rest) = some (s, rest) := by
  have hbody (cs : List Char) :
      quotedBody? '"' (cs.flatMap escaped ++ '"' :: rest) = some (cs, rest) := by
    induction cs with
    | nil => rfl
    | cons c cs ih => rw [List.flatMap_cons, List.append_assoc, unescape_escaped, ih]; rfl
  have hquoted : (quoted s).toList ++ rest = '"' :: (s.toList.flatMap escaped ++ '"' :: rest) := by
    simp [quoted]
  rw [hquoted, quotedText?, hbody]
  simp

end RowFilter
