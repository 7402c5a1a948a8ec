import Mathlib.Tactic.Tauto
import RowFilter.Grammar.Lexeme

/-! Numerals as texts. What `Numeral.unsigned?` reads is well written and stands in the
text as it is written; a well written numeral is read back wherever no digit, letter or
point goes on with it, and something longer wherever one does. -/

namespace RowFilter

namespace Grammar

/-- No word goes on at the start of the text. -/
def EndsWord (cs : List Char) : Prop := ∀ c more, cs = c :: more → isWordChar c = false

theorem isWordChar_of_isDigit {c : Char} (h : c.isDigit = true) : isWordChar c = true := by
  simp [isWordChar, Char.isAlphanum, h]

end Grammar

open Grammar (EndsWord)

namespace Numeral

/-- A numeral of the grammar, its sign left out. -/
structure Written (n : Numeral) : Prop where
  unsigned : n.negative = false
  whole : ∀ c ∈ n.whole, c.isDigit = true
  fraction : ∀ ds, n.fraction = some ds → ∀ c ∈ ds, c.isDigit = true
  someDigit : n.whole ≠ [] ∨ ∃ ds, n.fraction = some ds ∧ ds ≠ []
  exponent : ∀ e, n.exponent = some e → e.digits ≠ [] ∧ ∀ c ∈ e.digits, c.isDigit = true

variable {cs ds rest : List Char} {n : Numeral} {e : ExponentPart}

theorem digitsOf_append_behindDigits (cs : List Char) : digitsOf cs ++ behindDigits cs = cs :=
  List.takeWhile_append_dropWhile

theorem isDigit_of_mem_digitsOf {c : Char} (h : c ∈ digitsOf cs) : c.isDigit = true :=
  List.all_eq_true.1 (List.all_takeWhile) c h

theorem exponentDigits?_eq_some {capital : Bool} {sign : Option Sign}
    (h : exponentDigits? capital sign cs = some (e, rest)) :
    e.capital = capital ∧ e.sign = sign ∧ e.digits ++ rest = cs ∧ e.digits ≠ [] ∧
      ∀ c ∈ e.digits, c.isDigit = true := by
  unfold exponentDigits? at h
  split at h
  · cases h
  · rename_i hne
    cases h
    exact ⟨rfl, rfl, digitsOf_append_behindDigits cs, hne, fun c hc => isDigit_of_mem_digitsOf hc⟩

theorem exponent?_eq_some (h : exponent? cs = some (e, rest)) :
    cs = e.chars ++ rest ∧ e.digits ≠ [] ∧ ∀ c ∈ e.digits, c.isDigit = true := by
  unfold exponent? at h
  split at h
  case h_7 => cases h
  all_goals
    obtain ⟨hc, hs, hd, hne, hall⟩ := exponentDigits?_eq_some h
    refine ⟨?_, hne, hall⟩
    simp [ExponentPart.chars, hc, hs, hd]

theorem chars_append (n : Numeral) (h : n.negative = false) (rest : List Char) :
    n.chars ++ rest = n.whole ++ ((n.fraction.map ('.' :: ·)).getD [] ++
      ((n.exponent.map ExponentPart.chars).getD [] ++ rest)) := by
  simp [chars, h]

theorem withExponent_eq {whole : List Char} {fraction : Option (List Char)}
    (h : withExponent whole fraction cs = (n, rest)) (hw : ∀ c ∈ whole, c.isDigit = true)
    (hf : ∀ ds, fraction = some ds → ∀ c ∈ ds, c.isDigit = true)
    (hd : whole ≠ [] ∨ ∃ ds, fraction = some ds ∧ ds ≠ []) :
    whole ++ ((fraction.map ('.' :: ·)).getD [] ++ cs) = n.chars ++ rest ∧ n.Written := by
  unfold withExponent at h
  split at h
  · rename_i he
    obtain ⟨hcs, hne, hall⟩ := exponent?_eq_some he
    cases h
    refine ⟨?_, rfl, hw, hf, hd, ?_⟩
    · rw [chars_append _ rfl, hcs]
      rfl
    · rintro _ ⟨⟩
      exact ⟨hne, hall⟩
  · cases h
    refine ⟨?_, rfl, hw, hf, hd, by simp⟩
    rw [chars_append _ rfl]
    rfl

theorem unsigned?_eq_some (h : unsigned? cs = some (n, rest)) :
    cs = n.chars ++ rest ∧ n.Written := by
  have hdigits {cs : List Char} : ∀ ds, some (digitsOf cs) = some ds → ∀ c ∈ ds, c.isDigit = true := by
    rintro _ ⟨⟩ c hc
    exact isDigit_of_mem_digitsOf hc
  have hcs := digitsOf_append_behindDigits cs
  unfold unsigned? at h
  split at h
  · rename_i behind hd hb
    split at h
    · cases h
    · rename_i hne
      obtain ⟨hchars, hn⟩ := withExponent_eq (Option.some.inj h) (by simp) hdigits
        (.inr ⟨_, rfl, hne⟩)
      refine ⟨?_, hn⟩
      rw [← hchars, ← hcs, hd, hb, ← digitsOf_append_behindDigits behind]
      simp [digitsOf_append_behindDigits]
  · cases h
  · rename_i behind hb hne
    obtain ⟨hchars, hn⟩ := withExponent_eq (Option.some.inj h)
      (fun c hc => isDigit_of_mem_digitsOf hc) hdigits (.inl hne)
    refine ⟨?_, hn⟩
    rw [← hchars]
    conv => lhs; rw [← hcs, hb, ← digitsOf_append_behindDigits behind]
    rfl
  · rename_i hne _ _
    obtain ⟨hchars, hn⟩ := withExponent_eq (Option.some.inj h)
      (fun c hc => isDigit_of_mem_digitsOf hc) (by simp) (.inl hne)
    exact ⟨hcs.symm.trans hchars, hn⟩

/-- A numeral starts with a digit or a point. -/
theorem Written.head (hn : n.Written) :
    ∃ c more, n.chars = c :: more ∧ (c.isDigit = true ∨ c = '.') := by
  have hchars := n.chars_append hn.unsigned []
  rw [List.append_nil] at hchars
  rw [hchars]
  cases hw : n.whole with
  | cons c more => exact ⟨c, _, rfl, .inl (hn.whole c (by simp [hw]))⟩
  | nil =>
    obtain ⟨ds, hds, -⟩ := hn.someDigit.resolve_left (by simp [hw])
    rw [hds]
    exact ⟨'.', _, rfl, .inr rfl⟩

theorem Written.mem_chars (hn : n.Written) {c : Char} (hc : c ∈ n.chars) :
    c.isDigit = true ∨ c ∈ ['.', 'e', 'E', '+', '-'] := by
  rw [← List.append_nil n.chars, n.chars_append hn.unsigned, List.append_nil] at hc
  simp only [List.mem_append] at hc
  rcases hc with hc | hc | hc
  · exact .inl (hn.whole c hc)
  · cases hf : n.fraction with
    | none => simp [hf] at hc
    | some ds =>
      rw [hf] at hc
      rcases List.mem_cons.1 hc with rfl | hc
      · exact .inr (by decide)
      · exact .inl (hn.fraction ds hf c hc)
  · cases he : n.exponent with
    | none => simp [he] at hc
    | some e =>
      rw [he] at hc
      have hdigits : c ∈ e.digits → c.isDigit = true := (hn.exponent e he).2 c
      obtain ⟨capital, sign, digits⟩ := e
      rcases sign with _ | _ | _ <;> cases capital <;>
        simp only [ExponentPart.chars, Option.map_some, Option.getD_some, List.mem_cons] at hc <;>
        simp only [List.mem_cons] <;> tauto

/-! ### Behind digits -/

theorem digitsOf_digits_append (hds : ∀ c ∈ ds, c.isDigit = true) (rest : List Char) :
    digitsOf (ds ++ rest) = ds ++ digitsOf rest := by
  rw [digitsOf, List.takeWhile_append_of_pos hds, digitsOf]

theorem behindDigits_digits_append (hds : ∀ c ∈ ds, c.isDigit = true) (rest : List Char) :
    behindDigits (ds ++ rest) = behindDigits rest := by
  rw [behindDigits, List.dropWhile_append_of_pos hds, behindDigits]

theorem behindDigits_length (cs : List Char) : (behindDigits cs).length ≤ cs.length :=
  (List.dropWhile_suffix _).length_le

/-- No digit goes on at the start of the text. -/
def EndsDigits (cs : List Char) : Prop := ∀ c more, cs = c :: more → c.isDigit = false

theorem endsDigits_of_endsWord (h : EndsWord cs) : EndsDigits cs := by
  intro c more hcs
  have hc := h c more hcs
  cases hd : c.isDigit with
  | false => rfl
  | true => exact absurd (Grammar.isWordChar_of_isDigit hd) (by simp [hc])

theorem digitsOf_of_endsDigits (h : EndsDigits cs) : digitsOf cs = [] := by
  cases cs with
  | nil => rfl
  | cons c cs => simp [digitsOf, h c cs rfl]

theorem behindDigits_of_endsDigits (h : EndsDigits cs) : behindDigits cs = cs := by
  cases cs with
  | nil => rfl
  | cons c cs => simp [behindDigits, h c cs rfl]

theorem digitsOf_append (hds : ∀ c ∈ ds, c.isDigit = true) (hrest : EndsDigits rest) :
    digitsOf (ds ++ rest) = ds := by
  rw [digitsOf_digits_append hds, digitsOf_of_endsDigits hrest, List.append_nil]

theorem behindDigits_append (hds : ∀ c ∈ ds, c.isDigit = true) (hrest : EndsDigits rest) :
    behindDigits (ds ++ rest) = rest := by
  rw [behindDigits_digits_append hds, behindDigits_of_endsDigits hrest]

/-- An exponent reaches as far as its digits go on. -/
theorem exponent?_reaches (hne : e.digits ≠ []) (hds : ∀ c ∈ e.digits, c.isDigit = true)
    (rest : List Char) : exponent? (e.chars ++ rest) =
      some (⟨e.capital, e.sign, e.digits ++ digitsOf rest⟩, behindDigits rest) := by
  obtain ⟨capital, sign, digits⟩ := e
  have hread (sign : Option Sign) : exponentDigits? capital sign (digits ++ rest) =
      some (⟨capital, sign, digits ++ digitsOf rest⟩, behindDigits rest) := by
    rw [exponentDigits?, digitsOf_digits_append hds, behindDigits_digits_append hds,
      if_neg (by simp [hne])]
  cases sign with
  | some sign => cases capital <;> cases sign <;> exact hread _
  | none =>
    -- the first digit is no sign
    obtain ⟨d, more, rfl⟩ := List.exists_cons_of_ne_nil hne
    have hd : d.isDigit = true := hds d (List.mem_cons_self ..)
    have hminus : d ≠ '-' := by
      rintro rfl
      cases hd
    have hplus : d ≠ '+' := by
      rintro rfl
      cases hd
    cases capital <;> simpa [ExponentPart.chars, exponent?, hminus, hplus] using hread none

theorem exponent?_chars (hne : e.digits ≠ []) (hds : ∀ c ∈ e.digits, c.isDigit = true)
    (hrest : EndsDigits rest) : exponent? (e.chars ++ rest) = some (e, rest) := by
  rw [exponent?_reaches hne hds, digitsOf_of_endsDigits hrest, behindDigits_of_endsDigits hrest,
    List.append_nil]

theorem exponent?_of_endsWord (h : EndsWord rest) : exponent? rest = none := by
  unfold exponent?
  split <;> first | rfl | exact absurd (h _ _ rfl) (by decide)

/-- Behind a point the digits go on as the fraction. -/
theorem unsigned?_point {whole : List Char} (hwhole : ∀ c ∈ whole, c.isDigit = true)
    (hds : ∀ c ∈ ds, c.isDigit = true) (hsome : whole ≠ [] ∨ ds ≠ []) (rest : List Char) :
    unsigned? (whole ++ '.' :: (ds ++ rest)) =
      some (withExponent whole (some (ds ++ digitsOf rest)) (behindDigits rest)) := by
  have hpoint : EndsDigits ('.' :: (ds ++ rest)) := by
    rintro _ _ ⟨⟩
    rfl
  rw [unsigned?, digitsOf_append hwhole hpoint, behindDigits_append hwhole hpoint]
  cases whole with
  | nil =>
    have hne : ds ≠ [] := by simpa using hsome
    simp only [digitsOf_digits_append hds, behindDigits_digits_append hds]
    rw [if_neg (by simp [hne])]
  | cons d more => simp only [digitsOf_digits_append hds, behindDigits_digits_append hds]

/-- Without a point behind the digits there is no fraction. -/
theorem unsigned?_whole {whole : List Char} (hwhole : ∀ c ∈ whole, c.isDigit = true)
    (hne : whole ≠ []) (hpoint : ∀ more, behindDigits rest ≠ '.' :: more) :
    unsigned? (whole ++ rest) =
      some (withExponent (whole ++ digitsOf rest) none (behindDigits rest)) := by
  unfold unsigned?
  rw [digitsOf_digits_append hwhole, behindDigits_digits_append hwhole]
  split
  · rename_i hnil _
    exact absurd (List.append_eq_nil_iff.1 hnil).1 hne
  · rename_i hnil _
    exact absurd (List.append_eq_nil_iff.1 hnil).1 hne
  · rename_i hbehind _
    exact absurd hbehind (hpoint _)
  · rfl

/-! ### A numeral is read back -/

theorem withExponent_chars (whole : List Char) (fraction : Option (List Char))
    {exponent : Option ExponentPart}
    (hexp : ∀ e, exponent = some e → e.digits ≠ [] ∧ ∀ c ∈ e.digits, c.isDigit = true)
    (hrest : EndsWord rest) :
    withExponent whole fraction ((exponent.map ExponentPart.chars).getD [] ++ rest) =
      (⟨false, whole, fraction, exponent⟩, rest) := by
  cases exponent with
  | none =>
    simp only [Option.map_none, Option.getD_none, List.nil_append]
    rw [withExponent, exponent?_of_endsWord hrest]
  | some e =>
    obtain ⟨hne, hds⟩ := hexp e rfl
    simp only [Option.map_some, Option.getD_some]
    rw [withExponent, exponent?_chars hne hds (endsDigits_of_endsWord hrest)]

/-- An exponent starts with its letter. -/
theorem exponent_head (e : ExponentPart) :
    ∃ c more, e.chars = c :: more ∧ c.isDigit = false ∧ c ≠ '.' := by
  obtain ⟨capital, sign, digits⟩ := e
  rcases sign with _ | _ | _ <;> cases capital <;> exact ⟨_, _, rfl, rfl, by simp⟩

theorem endsDigits_exponent (exponent : Option ExponentPart) (hrest : EndsDigits rest) :
    EndsDigits ((exponent.map ExponentPart.chars).getD [] ++ rest) := by
  cases exponent with
  | none => exact hrest
  | some e =>
    obtain ⟨letter, more, hchars, hletter, -⟩ := exponent_head e
    rw [Option.map_some, Option.getD_some, hchars]
    rintro _ _ ⟨⟩
    exact hletter

/-- A well written numeral is read back. -/
theorem unsigned?_chars (hn : n.Written) (hrest : EndsWord rest)
    (hpoint : n.isWhole = true → ∀ more, rest ≠ '.' :: more) :
    unsigned? (n.chars ++ rest) = some (n, rest) := by
  obtain ⟨negative, whole, fraction, exponent⟩ := n
  obtain ⟨rfl, hw, hf, hd, he⟩ := hn
  rw [chars_append _ rfl]
  have hbehind := endsDigits_exponent exponent (endsDigits_of_endsWord hrest)
  have hread (fraction : Option (List Char)) := withExponent_chars whole fraction he hrest
  cases fraction with
  | some ds =>
    simp only [Option.map_some, Option.getD_some, List.cons_append]
    rw [unsigned?_point hw (hf ds rfl) (by simpa using hd), digitsOf_of_endsDigits hbehind,
      behindDigits_of_endsDigits hbehind, List.append_nil, hread]
  | none =>
    have hpoint (more : List Char) :
        (exponent.map ExponentPart.chars).getD [] ++ rest ≠ '.' :: more := by
      cases exponent with
      | none => exact hpoint rfl more
      | some e =>
        obtain ⟨letter, more, hchars, -, hletter⟩ := exponent_head e
        simp [hchars, hletter]
    simp only [Option.map_none, Option.getD_none, List.nil_append]
    rw [unsigned?_whole hw (by simpa using hd) (by rwa [behindDigits_of_endsDigits hbehind]),
      digitsOf_of_endsDigits hbehind, behindDigits_of_endsDigits hbehind, List.append_nil, hread]

/-! ### A numeral is read at least as far as it is written -/

theorem withExponent_length (whole : List Char) (fraction : Option (List Char)) (cs : List Char) :
    (withExponent whole fraction cs).2.length ≤ cs.length := by
  unfold withExponent
  split
  · rename_i he
    rw [(exponent?_eq_some he).1, List.length_append]
    exact Nat.le_add_left _ _
  · exact Nat.le_refl _

/-- Behind the digits, an exponent that is written is read, or more. -/
theorem withExponent_reaches (whole : List Char) (fraction : Option (List Char))
    {exponent : Option ExponentPart}
    (hexp : ∀ e, exponent = some e → e.digits ≠ [] ∧ ∀ c ∈ e.digits, c.isDigit = true)
    (rest : List Char) :
    (withExponent whole fraction
      (behindDigits ((exponent.map ExponentPart.chars).getD [] ++ rest))).2.length ≤ rest.length := by
  cases exponent with
  | none => exact Nat.le_trans (withExponent_length _ _ _) (behindDigits_length rest)
  | some e =>
    obtain ⟨hne, hds⟩ := hexp e rfl
    obtain ⟨letter, more, hchars, hletter, -⟩ := exponent_head e
    have hends : EndsDigits (e.chars ++ rest) := by
      rw [hchars]
      rintro _ _ ⟨⟩
      exact hletter
    simp only [Option.map_some, Option.getD_some]
    rw [behindDigits_of_endsDigits hends, withExponent, exponent?_reaches hne hds]
    exact behindDigits_length rest

/-- Where a well written numeral stands, one that is no shorter is read. -/
theorem Written.reaches (hn : n.Written) (rest : List Char) :
    ∃ found, unsigned? (n.chars ++ rest) = some found ∧ found.2.length ≤ rest.length := by
  obtain ⟨negative, whole, fraction, exponent⟩ := n
  obtain ⟨rfl, hw, hf, hd, he⟩ := hn
  rw [chars_append _ rfl]
  have hreaches (whole : List Char) (fraction : Option (List Char)) :=
    withExponent_reaches whole fraction he rest
  cases fraction with
  | some ds =>
    simp only [Option.map_some, Option.getD_some, List.cons_append]
    exact ⟨_, unsigned?_point hw (hf ds rfl) (by simpa using hd) _, hreaches _ _⟩
  | none =>
    have hne : whole ≠ [] := by simpa using hd
    simp only [Option.map_none, Option.getD_none, List.nil_append]
    by_cases hpoint : ∃ more,
        behindDigits ((exponent.map ExponentPart.chars).getD [] ++ rest) = '.' :: more
    · -- a point goes on with the numeral only if it has no exponent
      obtain ⟨behind, hbehind⟩ := hpoint
      cases exponent with
      | none =>
        simp only [Option.map_none, Option.getD_none, List.nil_append] at hbehind ⊢
        have hlonger : ∀ c ∈ whole ++ digitsOf rest, c.isDigit = true :=
          List.forall_mem_append.2 ⟨hw, fun c hc => isDigit_of_mem_digitsOf hc⟩
        have hread := unsigned?_point hlonger (List.forall_mem_nil _) (.inl (by simp [hne])) behind
        rw [List.nil_append, ← hbehind, List.append_assoc, digitsOf_append_behindDigits] at hread
        refine ⟨_, hread, ?_⟩
        calc (withExponent _ _ (behindDigits behind)).2.length
          _ ≤ (behindDigits behind).length := withExponent_length _ _ _
          _ ≤ behind.length := behindDigits_length behind
          _ ≤ (behindDigits rest).length := by rw [hbehind]; exact Nat.le_succ _
          _ ≤ rest.length := behindDigits_length rest
      | some e =>
        obtain ⟨letter, more, hchars, hdigit, hletter⟩ := exponent_head e
        rw [Option.map_some, Option.getD_some, hchars, behindDigits_of_endsDigits] at hbehind
        · cases hbehind
          exact absurd rfl hletter
        · rintro _ _ ⟨⟩
          exact hdigit
    · exact ⟨_, unsigned?_whole hw hne (not_exists.1 hpoint), hreaches _ _⟩

end Numeral

end RowFilter
