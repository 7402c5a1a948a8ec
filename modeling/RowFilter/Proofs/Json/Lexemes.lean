import RowFilter.Json.Basic
import RowFilter.Proofs.Json.Scanning
import RowFilter.Proofs.Rendering.Literals

/-! Texts and numbers in a JSON document. The scanner reads a quoted text back, and the text
of a number is a numeral that stands for it. So neither a text nor a number is mistaken for
another one, whatever follows it in the document. -/

namespace RowFilter

namespace Json

/-- What is written for a character is one of the ways to write it. -/
theorem charText_escaped (c : Char) : CharText c (escaped c) := by
  unfold escaped
  split
  all_goals try exact .short (by simp [shortEscapes])
  rename_i hquote hbackslash _ _ _ _ _
  split
  · have hunit : ((0 * 16 + 0) * 16 + c.toNat / 16) * 16 + c.toNat % 16 = c.toNat := by omega
    have hzero : HexDigit 0 '0' := .lower (by omega)
    have hw := UnitText.mk hzero hzero (.lower (by omega : c.toNat / 16 < 16))
      (.lower (by omega : c.toNat % 16 < 16))
    rw [hunit] at hw
    exact .unit hw
  · rename_i hcontrol
    exact .raw ⟨hquote, hbackslash, Nat.not_lt.1 hcontrol⟩

theorem textOf_quoted (s : String) : TextOf s (quoted s).toList := by
  have hchars (cs : List Char) : CharsText cs (cs.flatMap escaped) := by
    induction cs with
    | nil => exact .nil
    | cons c cs ih => exact .cons (charText_escaped c) ih
  have hquoted : (quoted s).toList = '"' :: (s.toList.flatMap escaped ++ ['"']) := by
    simp [quoted]
  rw [hquoted]
  exact .mk (hchars s.toList)

/-- Two quoted texts at the start of one document are the same text. -/
theorem quoted_append_inj {a b : String} {rest other : List Char}
    (h : (quoted a).toList ++ rest = (quoted b).toList ++ other) : a = b ∧ rest = other :=
  (textOf_quoted a).append_inj (textOf_quoted b) h

/-! ### Numbers -/

/-- What may stand behind a value: nothing, a comma or a closing bracket. -/
def EndsValue (cs : List Char) : Prop := ∀ c more, cs = c :: more → c ∈ [',', ']', '\x7d']

theorem endsValue_nil : EndsValue [] := nofun

theorem endsValue_cons {c : Char} (h : c ∈ [',', ']', '\x7d']) (cs : List Char) :
    EndsValue (c :: cs) := by
  rintro _ _ ⟨⟩
  exact h

end Json

open Json (EndsValue)

namespace Numeral

theorem chars_eq_sign (n : Numeral) : n.chars = signChars n.negative ++ n.magnitude.chars := by
  simp [chars, magnitude, signChars]

/-- A numeral at the start of a document is no other numeral. -/
theorem chars_append_inj {n m : Numeral} (hn : n.magnitude.Written) (hm : m.magnitude.Written)
    {rest other : List Char} (hrest : EndsValue rest) (hother : EndsValue other)
    (h : n.chars ++ rest = m.chars ++ other) : n = m ∧ rest = other := by
  have hread {n : Numeral} (hn : n.magnitude.Written) {rest : List Char} (hrest : EndsValue rest) :
      unsigned? (n.magnitude.chars ++ rest) = some (n.magnitude, rest) := by
    have hword : ∀ c ∈ [',', ']', '\x7d'], Grammar.isWordChar c = false := by
      simp [Grammar.isWordChar]
    refine unsigned?_chars hn (fun c more hc => hword c (hrest c more hc)) ?_
    exact fun _ more hc => absurd (hrest '.' more hc) (by decide)
  have hminus {n : Numeral} (hn : n.magnitude.Written) (rest cs : List Char) :
      n.magnitude.chars ++ rest ≠ '-' :: cs := by
    obtain ⟨c, more, hc, hhead⟩ := hn.head
    rw [hc]
    rintro ⟨⟩
    rcases hhead with hhead | hhead <;> cases hhead
  rw [n.chars_eq_sign, m.chars_eq_sign, List.append_assoc, List.append_assoc] at h
  have hparts : n.negative = m.negative ∧
      n.magnitude.chars ++ rest = m.magnitude.chars ++ other := by
    cases hs : n.negative <;> cases ht : m.negative <;> rw [hs, ht] at h
    · exact ⟨rfl, h⟩
    · exact absurd h (hminus hn _ _)
    · exact absurd h.symm (hminus hm _ _)
    · exact ⟨rfl, List.cons_inj_right _ |>.1 h⟩
  obtain ⟨hsign, hchars⟩ := hparts
  have hfound := hread hn hrest
  rw [hchars, hread hm hother, Option.some.injEq, Prod.mk.injEq] at hfound
  obtain ⟨hmagnitude, hrest⟩ := hfound
  refine ⟨?_, hrest.symm⟩
  obtain ⟨_, _, _, _⟩ := n
  obtain ⟨_, _, _, _⟩ := m
  cases hsign
  cases hmagnitude
  rfl

/-- The number that a numeral stands for. -/
def json (n : Numeral) : Json :=
  if n.isWhole then .int (if n.negative then -(n.significand : Int) else n.significand)
  else .float n.toBinary64

theorem json_of_denotes {n : Numeral} {x : Binary64} (h : n.Denotes (.float x)) :
    n.json = .float x := by
  have hliteral := h.literal
  unfold Grammar.literalOf at hliteral
  unfold json
  split at hliteral
  · split at hliteral <;> cases hliteral
  · rename_i hwhole
    split at hliteral
    · cases hliteral
      rw [if_neg hwhole]
    · cases hliteral

end Numeral

namespace Json

theorem int_numeral (value : Int) :
    ∃ n : Numeral, n.magnitude.Written ∧ n.json = .int value ∧
      (compact (.int value)).toList = n.chars := by
  refine ⟨intNumeral value, written_intNumeral value, ?_, chars_intNumeral value⟩
  rw [Numeral.json, value_intNumeral]
  rfl

end Json

section

variable {negative : Bool} {rank : Fin Binary64.finiteCount}

/-- The digits of a number with an exponent, and no fraction where one digit is enough. -/
def scientificNumeral (negative : Bool) (first : Char) (more : List Char) (order : Int) : Numeral :=
  ⟨negative, [first], if more = [] then none else some more,
    some ⟨false, some (if order < 0 then .minus else .plus), Nat.toDigits 10 order.natAbs⟩⟩

theorem scientificNumeral_fraction (negative : Bool) (first : Char) (more : List Char)
    (order : Int) : (scientificNumeral negative first more order).fraction.getD [] = more := by
  rw [scientificNumeral]
  split
  · rename_i hmore
    exact hmore.symm
  · rfl

theorem scientificNumeral_scale (negative : Bool) (first : Char) (more : List Char)
    (order : Int) : (scientificNumeral negative first more order).scale = order - more.length := by
  rw [Numeral.scale, scientificNumeral_fraction]
  simp only [scientificNumeral, Option.map_some, Option.getD_some, ExponentPart.value,
    Nat.ofDigitChars_ten_toDigits]
  have hplus : some Sign.plus ≠ some .minus := by decide
  by_cases hsign : order < 0
  · rw [if_pos hsign, if_pos rfl]
    omega
  · rw [if_neg hsign, if_neg hplus]
    omega

theorem scientific_chars (negative : Bool) {d : Decimal} {first : Char} {more : List Char}
    (hdigits : Nat.toDigits 10 d.significand = first :: more) :
    signChars negative ++ d.scientific.toList =
      (scientificNumeral negative first more d.order).chars := by
  have htail (order : Int) :
      ("e" ++ (if order < 0 then "-" else "+") ++ toString order.natAbs).toList =
      ExponentPart.chars ⟨false, some (if order < 0 then .minus else .plus),
        Nat.toDigits 10 order.natAbs⟩ := by
    split <;> simp [ExponentPart.chars]
  cases more with
  | nil =>
    simp [Decimal.scientific, hdigits, scientificNumeral, Numeral.chars, signChars, ← htail]
  | cons second more =>
    simp [Decimal.scientific, hdigits, scientificNumeral, Numeral.chars, signChars, ← htail]

/-- The scientific text of a decimal that is read as a double is a numeral for this double. -/
theorem scientific_denotes {d : Decimal}
    (h : Binary64.ofDecimal negative d.significand d.exponent = .finite negative rank) :
    ∃ n : Numeral, n.Denotes (.float (.finite negative rank)) ∧
      signChars negative ++ d.scientific.toList = n.chars := by
  have hisDigit := toDigits_isDigit d.significand
  obtain ⟨first, more, hdigits⟩ :=
    List.exists_cons_of_ne_nil (Nat.toDigits_ne_nil (b := 10) (n := d.significand))
  rw [hdigits, List.forall_mem_cons] at hisDigit
  have hsignificand : (scientificNumeral negative first more d.order).significand =
      d.significand := by
    rw [Numeral.significand, scientificNumeral_fraction]
    change Nat.ofDigitChars 10 (first :: more) 0 = _
    rw [← hdigits, Nat.ofDigitChars_ten_toDigits]
  have hscale : (scientificNumeral negative first more d.order).scale = d.exponent := by
    rw [scientificNumeral_scale, Decimal.order, digitCount, hdigits, List.length_cons]
    omega
  have hvalue : (scientificNumeral negative first more d.order).toBinary64 =
      .finite negative rank := by
    rw [Numeral.toBinary64, hsignificand, hscale]
    exact h
  refine ⟨scientificNumeral negative first more d.order, ⟨⟨rfl, ?_, ?_, ?_, ?_⟩, ?_⟩, ?_⟩
  · exact List.forall_mem_singleton.2 hisDigit.1
  · intro ds hds
    have hmore := scientificNumeral_fraction negative first more d.order
    have hds : (scientificNumeral negative first more d.order).fraction = some ds := hds
    rw [hds, Option.getD_some] at hmore
    exact hmore ▸ hisDigit.2
  · exact .inl (List.cons_ne_nil _ _)
  · rintro _ ⟨⟩
    exact ⟨Nat.toDigits_ne_nil, toDigits_isDigit _⟩
  · have hwhole : (scientificNumeral negative first more d.order).isWhole = false := by
      simp [Numeral.isWhole, scientificNumeral]
    rw [Grammar.literalOf, hvalue, hwhole]
    rfl
  · exact scientific_chars negative hdigits

theorem Json.float_numeral (negative : Bool) (rank : Fin Binary64.finiteCount) :
    ∃ n : Numeral, n.magnitude.Written ∧ n.json = .float (.finite negative rank) ∧
      (compact (.float (.finite negative rank))).toList = n.chars := by
  have hread := Binary64.ofDecimal_shortest .even negative rank
  simp only [compact, floatText, signed_toList]
  split
  · obtain ⟨n, hn, hchars⟩ := positional_denotes hread
    exact ⟨n, hn.written, Numeral.json_of_denotes hn, hchars⟩
  · obtain ⟨n, hn, hchars⟩ := scientific_denotes hread
    exact ⟨n, hn.written, Numeral.json_of_denotes hn, hchars⟩

end

end RowFilter
