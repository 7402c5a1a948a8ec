import RowFilter.Json.Scan
import RowFilter.Proofs.Grammar.Numerals
import RowFilter.Proofs.Json.Syntax

/-! The scanners read the syntax. Whatever is well written is read to its end, texts as what
they say, and a value that nobody asks for is passed over whole. -/

namespace RowFilter.Json

open Numeral (EndsDigits digitsOf_append behindDigits_append)

variable {g h w rest : List Char} {c : Char} {n : Nat}

/-! ### Gaps -/

/-- What may follow a value in a document. -/
def Delimited (rest : List Char) : Prop :=
  ∀ c more, rest = c :: more → c ∈ [' ', '\n', '\t', '\r', ',', ']', '\x7d']

/-- The text starts with a sign of its own, so neither a gap nor the end of a list is seen
there. -/
def Opens (w : List Char) : Prop :=
  ∃ c more, w = c :: more ∧ c ∉ [' ', '\n', '\t', '\r'] ∧ c ∉ [']', '\x7d']

theorem isGap_iff (c : Char) : isGap c = true ↔ c ∈ [' ', '\n', '\t', '\r'] := by
  simp [isGap, or_assoc]

theorem skipGap_append (hg : Gap g) (cs : List Char) : skipGap (g ++ cs) = skipGap cs :=
  List.dropWhile_append_of_pos fun c hc => (isGap_iff c).2 (hg c hc)

theorem skipGap_cons (hc : c ∉ [' ', '\n', '\t', '\r']) (cs : List Char) :
    skipGap (c :: cs) = c :: cs :=
  List.dropWhile_cons_of_neg fun hgap => hc ((isGap_iff c).1 hgap)

theorem skipGap_opens (hg : Gap g) (hw : Opens w) : skipGap (g ++ w) = w := by
  obtain ⟨c, more, rfl, hc, -⟩ := hw
  rw [skipGap_append hg, skipGap_cons hc]

theorem Opens.append (hw : Opens w) (cs : List Char) : Opens (w ++ cs) := by
  obtain ⟨c, more, rfl, hc⟩ := hw
  exact ⟨c, more ++ cs, rfl, hc⟩

theorem gap_nil : Gap [] := nofun

theorem skipGap_sign (hg : Gap g) (hc : c ∈ [',', ':', ']', '\x7d']) (cs : List Char) :
    skipGap (g ++ c :: cs) = c :: cs := by
  have hsigns : ∀ c ∈ [',', ':', ']', '\x7d'], c ∉ [' ', '\n', '\t', '\r'] := by simp
  rw [skipGap_append hg, skipGap_cons (hsigns c hc)]

theorem delimited_append (hg : Gap g) (hrest : Delimited rest) : Delimited (g ++ rest) := by
  cases g with
  | nil => exact hrest
  | cons c g =>
    rintro _ _ ⟨⟩
    have hc := hg c List.mem_cons_self
    simp only [List.mem_cons, List.not_mem_nil, or_false] at hc ⊢
    tauto

theorem delimited_sign (hg : Gap g) (hc : c ∈ [',', ']', '\x7d']) (cs : List Char) :
    Delimited (g ++ c :: cs) := by
  refine delimited_append hg ?_
  rintro _ _ ⟨⟩
  simp only [List.mem_cons, List.not_mem_nil, or_false] at hc ⊢
  tauto

/-- Behind a part comes a comma or the end. -/
theorem Upto.delimited {close : Char} {parts : List (List Char)} (hclose : close ∈ [']', '\x7d'])
    (hw : Upto close false parts w) (rest : List Char) : Delimited (w ++ rest) := by
  cases hw with
  | close _ hg =>
    rw [List.append_assoc]
    exact delimited_sign hg (List.mem_cons_of_mem _ hclose) _
  | next hg =>
    rw [List.append_assoc]
    exact delimited_sign hg List.mem_cons_self _

theorem Upto.length_le {close : Char} {first : Bool} {parts : List (List Char)}
    (hw : Upto close first parts w) :
    parts.length ≤ w.length ∧ (first = false → parts.length < w.length) := by
  induction hw with
  | close _ hg => simp
  | first hg _ ih =>
    have := ih.2 rfl
    simp only [List.length_append, List.length_cons]
    exact ⟨by omega, nofun⟩
  | next hg hh _ ih =>
    have := ih.2 rfl
    simp only [List.length_append, List.length_cons]
    omega

/-! ### Texts -/

theorem HexDigit.read (hc : HexDigit n c) : hexDigit? c = some n := by
  have hlower : ∀ n < 16, hexDigit? (Nat.digitChar n) = some n := by decide
  have hupper : ∀ n < 16, hexDigit? (Nat.digitChar n).toUpper = some n := by decide
  cases hc with
  | lower hn => exact hlower n hn
  | upper hn => exact hupper n hn

/-- Behind the letter of an escape its unit is read. -/
theorem UnitText.read (hw : UnitText n w) :
    ∃ digits, w = '\\' :: 'u' :: digits ∧ ∀ rest, hexUnit (digits ++ rest) = .ok (n, rest) := by
  obtain ⟨ha, hb, hc, hd⟩ := hw
  refine ⟨_, rfl, fun rest => ?_⟩
  simp [hexUnit, ha.read, hb.read, hc.read, hd.read]

theorem toNat_not_surrogate (c : Char) :
    (c.toNat < 0xd800 ∨ 0xdfff < c.toNat) ∧ c.toNat < 0x110000 := by
  have hvalid : c.toNat < 0xd800 ∨ 0xdfff < c.toNat ∧ c.toNat < 0x110000 := c.valid
  omega

/-- A unit that is a character stands for it. -/
theorem unitChar_of_unit {cs : List Char} (hunit : hexUnit cs = .ok (c.toNat, rest)) :
    unitChar cs = .ok (c, rest) := by
  have hc := toNat_not_surrogate c
  have htrail : ¬ (0xdc00 ≤ c.toNat ∧ c.toNat ≤ 0xdfff) := by omega
  have hlead : c.toNat < 0xd800 ∨ 0xdbff < c.toNat := by omega
  simp only [unitChar, hunit, bind, Except.bind, if_neg htrail, if_pos hlead]
  rw [Char.ofNat_toNat]
  rfl

/-- Two surrogates stand for the character that they make. -/
theorem unitChar_of_pair {cs more : List Char} {lead trail : Nat}
    (hbig : 0x10000 ≤ c.toNat) (hlead : lead = 0xd800 + (c.toNat - 0x10000) / 0x400)
    (htrail : trail = 0xdc00 + (c.toNat - 0x10000) % 0x400)
    (hfirst : hexUnit cs = .ok (lead, '\\' :: 'u' :: more))
    (hsecond : hexUnit more = .ok (trail, rest)) : unitChar cs = .ok (c, rest) := by
  have hc := toNat_not_surrogate c
  have hone : ¬ (0xdc00 ≤ lead ∧ lead ≤ 0xdfff) := by omega
  have htwo : ¬ (lead < 0xd800 ∨ 0xdbff < lead) := by omega
  have hthree : ¬ (trail < 0xdc00 ∨ 0xdfff < trail) := by omega
  have hvalue : 0x10000 + (lead - 0xd800) * 0x400 + (trail - 0xdc00) = c.toNat := by omega
  simp only [unitChar, hfirst, hsecond, bind, Except.bind, if_neg hone, if_neg htwo,
    if_neg hthree, hvalue]
  rw [Char.ofNat_toNat]
  rfl

theorem shortEscape?_of_mem {letter : Char} (hc : (letter, c) ∈ shortEscapes) :
    letter ≠ 'u' ∧ shortEscape? letter = some c := by
  have hall : ∀ escape ∈ shortEscapes, escape.1 ≠ 'u' ∧ shortEscape? escape.1 = some escape.2 := by
    simp [shortEscapes, shortEscape?]
  exact hall (letter, c) hc

/-- A character that is not raw is read behind its backslash. -/
theorem CharText.escaped (hw : CharText c w) (hraw : ¬ (IsRaw c ∧ w = [c])) :
    ∃ escape, w = '\\' :: escape ∧ ∀ rest, escapedChar (escape ++ rest) = .ok (c, rest) := by
  cases hw with
  | raw hc => exact absurd ⟨hc, rfl⟩ hraw
  | @short letter hc =>
    obtain ⟨hu, hshort⟩ := shortEscape?_of_mem hc
    refine ⟨[letter], rfl, fun rest => ?_⟩
    rw [List.singleton_append, escapedChar, hshort]
    exact hu
  | unit hw =>
    obtain ⟨digits, rfl, hread⟩ := hw.read
    exact ⟨'u' :: digits, rfl, fun rest => unitChar_of_unit (hread rest)⟩
  | pair hbig hlead htrail =>
    obtain ⟨lead, rfl, hread⟩ := hlead.read
    obtain ⟨trail, rfl, hnext⟩ := htrail.read
    refine ⟨'u' :: (lead ++ '\\' :: 'u' :: trail), rfl, fun rest => ?_⟩
    have hfirst := hread ('\\' :: 'u' :: (trail ++ rest))
    rw [List.cons_append, List.append_assoc]
    exact unitChar_of_pair hbig rfl rfl hfirst (hnext rest)

/-- A character is read back from any of the ways to write it. -/
theorem textBody_charText (hw : CharText c w) (fuel : Nat) (rest : List Char) :
    textBody (fuel + 1) (w ++ rest) =
      (textBody fuel rest).map fun (body, rest) => (c :: body, rest) := by
  by_cases hraw : IsRaw c ∧ w = [c]
  · obtain ⟨⟨hquote, hbackslash, hcontrol⟩, rfl⟩ := hraw
    rw [List.singleton_append, textBody, if_neg (Nat.not_lt.2 hcontrol)]
    · rfl
    · exact hquote
    · exact hbackslash
  · obtain ⟨escape, rfl, hread⟩ := hw.escaped hraw
    simp only [List.cons_append, textBody, hread]
    rfl

theorem CharText.ne_nil (hw : CharText c w) : w ≠ [] := by
  by_cases hraw : IsRaw c ∧ w = [c]
  · simp [hraw.2]
  · obtain ⟨escape, rfl, -⟩ := hw.escaped hraw
    exact List.cons_ne_nil _ _

theorem CharsText.length_le {cs : List Char} (hw : CharsText cs w) : cs.length ≤ w.length := by
  induction hw with
  | nil => exact Nat.le_refl 0
  | cons hc _ ih =>
    have := List.length_pos_of_ne_nil hc.ne_nil
    rw [List.length_cons, List.length_append]
    omega

theorem textBody_charsText {cs : List Char} (hw : CharsText cs w) (rest : List Char) :
    ∀ fuel, cs.length < fuel → textBody fuel (w ++ '"' :: rest) = .ok (cs, rest) := by
  induction hw with
  | nil =>
    intro fuel hfuel
    obtain ⟨fuel, rfl⟩ := Nat.exists_eq_add_one_of_ne_zero (Nat.ne_of_gt hfuel)
    rfl
  | cons hc _ ih =>
    intro fuel hfuel
    obtain ⟨fuel, rfl⟩ :=
      Nat.exists_eq_add_one_of_ne_zero (Nat.ne_of_gt (Nat.zero_lt_of_lt hfuel))
    rw [List.append_assoc, textBody_charText hc, ih fuel (Nat.lt_of_succ_lt_succ hfuel)]
    rfl

/-- A string is read back from every text of it. -/
theorem TextOf.read {s : String} (hw : TextOf s w) :
    ∃ body, w = '"' :: body ∧ ∀ rest, textRest (body ++ rest) = .ok (s, rest) := by
  obtain ⟨hbody⟩ := hw
  refine ⟨_, rfl, fun rest => ?_⟩
  have hlength := hbody.length_le
  rw [List.append_assoc, List.singleton_append, textRest, textBody_charsText hbody]
  · simp [bind, Except.bind, pure, Except.pure]
  · rw [List.length_append, List.length_cons]
    omega

/-- What stands at the start of a document is the text of no other string. -/
theorem TextOf.append_inj {a b : String} {v other : List Char} (ha : TextOf a v) (hb : TextOf b w)
    (h : v ++ rest = w ++ other) : a = b ∧ rest = other := by
  obtain ⟨v, rfl, hread⟩ := ha.read
  obtain ⟨w, rfl, hread'⟩ := hb.read
  rw [List.cons_append, List.cons_append, List.cons_inj_right] at h
  have hfound := hread rest
  rw [h, hread', Except.ok.injEq, Prod.mk.injEq] at hfound
  exact ⟨hfound.1.symm, hfound.2.symm⟩

theorem skipTextBody_mark (hw : Mark w) (fuel : Nat) (rest : List Char) :
    skipTextBody (fuel + 1) (w ++ rest) = skipTextBody fuel rest := by
  cases hw with
  | raw hc =>
    obtain ⟨hquote, hbackslash, hcontrol⟩ := hc
    rw [List.singleton_append, skipTextBody, if_neg (Nat.not_lt.2 hcontrol)]
    · exact hquote
    · exact hbackslash
  | @short escape hc =>
    obtain ⟨hu, hshort⟩ := shortEscape?_of_mem hc
    have hskip : skipEscape (escape.1 :: rest) = .ok rest := by
      rw [skipEscape, hshort]
      · rfl
      · exact hu
    simp only [List.cons_append, List.nil_append, skipTextBody, hskip]
    rfl
  | unit hw =>
    obtain ⟨digits, rfl, hread⟩ := hw.read
    simp only [List.cons_append, skipTextBody, skipEscape, hread]
    rfl

theorem Mark.ne_nil (hw : Mark w) : w ≠ [] := by
  cases hw with
  | raw | short => exact List.cons_ne_nil _ _
  | unit hw =>
    obtain ⟨digits, rfl, -⟩ := hw.read
    exact List.cons_ne_nil _ _

theorem skipTextBody_marks {marks : List (List Char)} (hmarks : ∀ mark ∈ marks, Mark mark)
    (rest : List Char) :
    ∀ fuel, marks.length < fuel → skipTextBody fuel (marks.flatten ++ '"' :: rest) = .ok rest := by
  induction marks with
  | nil =>
    intro fuel hfuel
    obtain ⟨fuel, rfl⟩ := Nat.exists_eq_add_one_of_ne_zero (Nat.ne_of_gt hfuel)
    rfl
  | cons mark marks ih =>
    obtain ⟨hmark, hmarks⟩ := List.forall_mem_cons.1 hmarks
    intro fuel hfuel
    obtain ⟨fuel, rfl⟩ :=
      Nat.exists_eq_add_one_of_ne_zero (Nat.ne_of_gt (Nat.zero_lt_of_lt hfuel))
    rw [List.flatten_cons, List.append_assoc, skipTextBody_mark hmark]
    exact ih hmarks fuel (Nat.lt_of_succ_lt_succ hfuel)

theorem AnyText.read (hw : AnyText w) :
    ∃ body, w = '"' :: body ∧ ∀ rest, skipTextRest (body ++ rest) = .ok rest := by
  obtain @⟨marks, hmarks⟩ := hw
  refine ⟨_, rfl, fun rest => ?_⟩
  have hlength : marks.length ≤ marks.flatten.length := by
    clear rest
    induction marks with
    | nil => exact Nat.le_refl 0
    | cons mark marks ih =>
      obtain ⟨hmark, hmarks⟩ := List.forall_mem_cons.1 hmarks
      have := ih hmarks
      have := List.length_pos_of_ne_nil hmark.ne_nil
      rw [List.flatten_cons, List.length_append, List.length_cons]
      omega
  rw [List.append_assoc, List.singleton_append, skipTextRest]
  refine skipTextBody_marks hmarks rest _ ?_
  rw [List.length_append, List.length_cons]
  omega

/-! ### Numbers -/

theorem Delimited.endsDigits (hrest : Delimited rest) : EndsDigits rest := by
  have hall : ∀ c ∈ [' ', '\n', '\t', '\r', ',', ']', '\x7d'], c.isDigit = false := by simp
  exact fun c more hc => hall c (hrest c more hc)

theorem someDigits_digits {ds : List Char} (hds : Digits ds) (hrest : EndsDigits rest) :
    someDigits (ds ++ rest) = .ok (ds, rest) := by
  obtain ⟨hne, hds⟩ := hds
  obtain ⟨c, more, rfl⟩ := List.exists_cons_of_ne_nil hne
  have htake := digitsOf_append hds hrest
  have hdrop := behindDigits_append hds hrest
  rw [Numeral.digitsOf] at htake
  rw [Numeral.behindDigits] at hdrop
  rw [someDigits, htake, hdrop]

theorem WholeText.read (hw : WholeText w) (hrest : EndsDigits rest) :
    wholeDigits (w ++ rest) = .ok (w, rest) := by
  have hds : Digits w := by
    cases hw with
    | zero => exact ⟨List.cons_ne_nil _ _, by simp⟩
    | digits _ hds => exact hds
  have htake := digitsOf_append hds.2 hrest
  have hdrop := behindDigits_append hds.2 hrest
  rw [Numeral.digitsOf] at htake
  rw [Numeral.behindDigits] at hdrop
  rw [wholeDigits, htake, hdrop]
  -- a digit and a zero before others are told apart only once the digits are known
  cases hw with
  | zero => rfl
  | @digits c ds hc _ =>
    split
    · contradiction
    · contradiction
    · rename_i heq
      cases heq
      exact absurd rfl hc
    · rfl

theorem FractionText.read (hw : FractionText w) (hrest : EndsDigits rest)
    (hpoint : ∀ more, rest ≠ '.' :: more) :
    ∃ found, fractionPart (w ++ rest) = .ok (found, rest) := by
  cases hw with
  | none =>
    refine ⟨.none, ?_⟩
    rw [List.nil_append, fractionPart]
    exact hpoint
  | @point ds hds =>
    refine ⟨some ds, ?_⟩
    rw [List.cons_append, fractionPart, someDigits_digits hds hrest]
    rfl

theorem exponentDigits_digits {ds : List Char} (negative : Bool) (hds : Digits ds)
    (hrest : EndsDigits rest) :
    ∃ found, exponentDigits negative (ds ++ rest) = .ok (found, rest) := by
  rw [exponentDigits, someDigits_digits hds hrest]
  exact ⟨_, rfl⟩

theorem behindLetter_digits {sign ds : List Char} (hsign : sign ∈ [[], ['+'], ['-']])
    (hds : Digits ds) (hrest : EndsDigits rest) :
    ∃ found, behindLetter (sign ++ (ds ++ rest)) = .ok (found, rest) := by
  simp only [List.mem_cons, List.not_mem_nil, or_false] at hsign
  rcases hsign with rfl | rfl | rfl
  · obtain ⟨c, more, hc⟩ := List.exists_cons_of_ne_nil hds.1
    have hdigit : c.isDigit = true := hds.2 c (by simp [hc])
    rw [List.nil_append, behindLetter]
    · exact exponentDigits_digits false hds hrest
    · rintro cs hcs
      rw [hc, List.cons_append, List.cons.injEq] at hcs
      exact absurd (hcs.1 ▸ hdigit) (by decide)
    · rintro cs hcs
      rw [hc, List.cons_append, List.cons.injEq] at hcs
      exact absurd (hcs.1 ▸ hdigit) (by decide)
  · exact exponentDigits_digits false hds hrest
  · exact exponentDigits_digits true hds hrest

theorem ExponentText.read (hw : ExponentText w) (hrest : EndsDigits rest)
    (hletter : ∀ c more, rest = c :: more → c ∉ ['e', 'E']) :
    ∃ found, exponentPart (w ++ rest) = .ok (found, rest) := by
  cases hw with
  | none =>
    refine ⟨.none, ?_⟩
    rw [List.nil_append, exponentPart]
    · exact fun more hmore => hletter _ more hmore (by simp)
    · exact fun more hmore => hletter _ more hmore (by simp)
  | @letter c sign ds hc hsign hds =>
    have hread := behindLetter_digits hsign hds hrest
    rw [← List.append_assoc] at hread
    simp only [List.mem_cons, List.not_mem_nil, or_false] at hc
    rcases hc with rfl | rfl
    · exact hread
    · exact hread

theorem MagnitudeText.read (hw : MagnitudeText w) (hrest : Delimited rest) :
    skipNumberRest (w ++ rest) = .ok rest := by
  obtain @⟨whole, fraction, exponent, hwhole, hfraction, hexponent⟩ := hw
  have hsigns : ∀ c more, rest = c :: more → c ∉ ['.', 'e', 'E'] := by
    intro c more hc
    have hc := hrest c more hc
    simp only [List.mem_cons, List.not_mem_nil, or_false] at hc
    rcases hc with rfl | rfl | rfl | rfl | rfl | rfl | rfl <;> decide
  have hends := hrest.endsDigits
  obtain ⟨value, hvalue⟩ := hexponent.read hends fun c more hc hmem =>
    hsigns c more hc (List.mem_cons_of_mem _ hmem)
  have hbehind : EndsDigits (exponent ++ rest) ∧ ∀ more, exponent ++ rest ≠ '.' :: more := by
    cases hexponent with
    | none => exact ⟨hends, fun more hmore => hsigns _ more hmore (by simp)⟩
    | letter hc =>
      simp only [List.mem_cons, List.not_mem_nil, or_false] at hc
      rcases hc with rfl | rfl
      · exact ⟨by rintro _ _ ⟨⟩; rfl, nofun⟩
      · exact ⟨by rintro _ _ ⟨⟩; rfl, nofun⟩
  obtain ⟨places, hplaces⟩ := hfraction.read hbehind.1 hbehind.2
  have hfirst : EndsDigits (fraction ++ (exponent ++ rest)) := by
    cases hfraction with
    | none => exact hbehind.1
    | point => rintro _ _ ⟨⟩; rfl
  rw [List.append_assoc, List.append_assoc, skipNumberRest, hwhole.read hfirst]
  simp only [bind, Except.bind, hplaces, hvalue]
  rfl

end RowFilter.Json
