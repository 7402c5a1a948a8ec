import RowFilter.Proofs.Grammar.Congruence
import RowFilter.Proofs.Walk.Rules

/-! Numerals and quoted texts in parts. A reader takes them whole; here they are the digits,
points and exponents, or the quotes and pieces, that a walk meets one after the other. -/

namespace RowFilter.Grammar

open Walk (isPlain)
open Numeral (digitsOf behindDigits exponent? exponentDigits? unsigned? withExponent)

theorem someWhile?_suffix {accepts : Char → Bool} {cs chars rest : List Char}
    (h : someWhile? accepts cs = some (chars, rest)) :
    rest <:+ cs ∧ rest.length < cs.length := by
  unfold someWhile? at h
  split at h
  · cases h
  · rename_i hne
    cases h
    have hpos := List.length_pos_iff.2 hne
    have hlength := congrArg List.length (List.takeWhile_append_dropWhile (p := accepts) (l := cs))
    rw [List.length_append] at hlength
    exact ⟨List.dropWhile_suffix accepts, by omega⟩

section

variable {cs whole rest : List Char} {fraction : Option (List Char)} {n : Nesting}

theorem someWhile?_isDigit (cs : List Char) : someWhile? Char.isDigit cs =
    if digitsOf cs = [] then none else some (digitsOf cs, behindDigits cs) := rfl

theorem behindDigits_of_digitsOf (h : digitsOf cs = []) : behindDigits cs = cs := by
  have hcs := Numeral.digitsOf_append_behindDigits cs
  rwa [h, List.nil_append] at hcs

theorem exponentDigits?_eq (capital : Bool) (sign : Option Sign) (cs : List Char) :
    exponentDigits? capital sign cs =
      (someWhile? Char.isDigit cs).map fun found => (⟨capital, sign, found.1⟩, found.2) := by
  rw [someWhile?_isDigit, exponentDigits?]
  split <;> rfl

/-- An exponent is a letter, a sign perhaps, and digits. -/
theorem exponent?_letter {letter : Char} (h : letter = 'e' ∨ letter = 'E') :
    exponent? (letter :: cs) = match one? (fun c => c == '+' || c == '-') cs with
      | some (sign, rest) =>
        exponentDigits? (letter == 'E') (some (if sign == '-' then .minus else .plus)) rest
      | none => exponentDigits? (letter == 'E') none cs := by
  cases cs with
  | nil => rcases h with rfl | rfl <;> rfl
  | cons c cs =>
    by_cases hminus : c = '-'
    · subst hminus
      rcases h with rfl | rfl <;> rfl
    · by_cases hplus : c = '+'
      · subst hplus
        rcases h with rfl | rfl <;> rfl
      · rcases h with rfl | rfl <;> simp [exponent?, one?, hminus, hplus]

/-- The fraction that comes next, if a point does, and what follows it. -/
def fractionOf : List Char → Option (List Char) × List Char
  | '.' :: cs => (some (digitsOf cs), behindDigits cs)
  | cs => (none, cs)

theorem unsigned?_of_digits (h : someWhile? Char.isDigit cs = some (whole, rest)) :
    unsigned? cs = some (withExponent whole (fractionOf rest).1 (fractionOf rest).2) := by
  rw [someWhile?_isDigit] at h
  split at h
  · cases h
  · rename_i hne
    cases h
    unfold unsigned?
    split
    · exact absurd ‹digitsOf cs = []› hne
    · exact absurd ‹digitsOf cs = []› hne
    · rename_i hpoint _
      rw [hpoint]
      rfl
    · rename_i hother _
      unfold fractionOf
      split
      · rename_i hpoint
        exact absurd hpoint (hother _)
      · rfl

/-- A numeral that starts with its point. -/
def pointed? : List Char → Option (Numeral × List Char)
  | '.' :: cs => (someWhile? Char.isDigit cs).map fun found =>
    withExponent [] (some found.1) found.2
  | _ => none

theorem unsigned?_of_none (h : someWhile? Char.isDigit cs = none) :
    unsigned? cs = pointed? cs := by
  rw [someWhile?_isDigit] at h
  split at h
  · rename_i hnil
    unfold unsigned?
    rw [hnil, behindDigits_of_digitsOf hnil]
    cases cs with
    | nil => rfl
    | cons c cs =>
      by_cases hc : c = '.'
      · subst hc
        rw [pointed?, someWhile?_isDigit]
        simp only
        split <;> rfl
      · simp [pointed?, hc]
  · cases h

/-- Reading a point and the digits behind it, if there are any. -/
theorem optional_fraction (n : Nesting) (cs : List Char) :
    ∃ found, Reader.optional (Grammar.symbol "." >>= fun _ =>
        Reader.optional (Reader.ofOption (someWhile? Char.isDigit))) n cs =
          .read found (fractionOf cs).2 n ∧ found.map (·.getD []) = (fractionOf cs).1 := by
  cases cs with
  | nil => exact ⟨none, rfl, rfl⟩
  | cons c cs =>
    by_cases hc : c = '.'
    · subst hc
      by_cases hd : digitsOf cs = []
      · refine ⟨some none, ?_, ?_⟩
        · simp [Reader.optional, Reader.ofOption, Grammar.symbol, Bind.bind, someWhile?_isDigit,
            dropSymbol?, fractionOf, hd, behindDigits_of_digitsOf hd]
        · simp [fractionOf, hd]
      · refine ⟨some (some (digitsOf cs)), ?_, rfl⟩
        simp [Reader.optional, Reader.ofOption, Grammar.symbol, Bind.bind, someWhile?_isDigit,
          dropSymbol?, fractionOf, hd]
    · refine ⟨none, ?_, ?_⟩
      · simp [Reader.optional, Reader.ofOption, Grammar.symbol, Bind.bind, dropSymbol?, fractionOf,
          hc, Ne.symm hc]
      · simp [fractionOf, hc]

theorem optional_exponent (n : Nesting) (cs : List Char) :
    (Reader.optional (Reader.ofOption exponent?) >>= fun exponent =>
      pure (⟨false, whole, fraction, exponent⟩ : Numeral)) n cs =
        .read (withExponent whole fraction cs).1 (withExponent whole fraction cs).2 n := by
  simp only [Reader.optional, Reader.ofOption, Bind.bind, withExponent]
  cases exponent? cs <;> rfl

theorem point_digits (n : Nesting) (cs : List Char) :
    (Grammar.symbol "." >>= fun _ => Reader.ofOption (someWhile? Char.isDigit) >>= fun fraction =>
      Reader.optional (Reader.ofOption exponent?) >>= fun exponent =>
        pure (⟨false, [], some fraction, exponent⟩ : Numeral)) n cs =
          Reader.ofOption pointed? n cs := by
  cases cs with
  | nil => rfl
  | cons c cs =>
    by_cases hc : c = '.'
    · subst hc
      have hpoint : Grammar.symbol "." n ('.' :: cs) = .read () cs n := rfl
      rw [bind_of_read hpoint]
      cases hd : someWhile? Char.isDigit cs with
      | none =>
        have hdigits : Reader.ofOption (someWhile? Char.isDigit) n cs = .refused n := by
          rw [Reader.ofOption, hd]
        rw [bind_of_refused hdigits, Reader.ofOption, pointed?, hd]
        rfl
      | some found =>
        have hdigits : Reader.ofOption (someWhile? Char.isDigit) n cs = .read found.1 found.2 n := by
          rw [Reader.ofOption, hd]
        rw [bind_of_read hdigits, optional_exponent, Reader.ofOption, pointed?, hd]
        rfl
    · simp [pointed?, Reader.ofOption, Grammar.symbol, Bind.bind, dropSymbol?, hc, Ne.symm hc]

end

section

variable {quote c : Char} {cs chars rest : List Char} {n : Nesting}

/-- One piece of a quoted text: the plain characters that come, or the one that a backslash
and the next character stand for. -/
def piece? (quote : Char) : List Char → Option (List Char × List Char)
  | '\\' :: c :: cs => some ([unescape c], cs)
  | cs => someWhile? (isPlain quote) cs

theorem piece?_of_ne (hc : c ≠ '\\') :
    piece? quote (c :: cs) = someWhile? (isPlain quote) (c :: cs) := by
  simp [piece?, hc]

theorem someWhile?_backslash : someWhile? (isPlain quote) ('\\' :: cs) = none := by
  simp [someWhile?, isPlain]

/-- A quoted body starts with all the plain characters that come. -/
theorem quotedBody?_plain (quote : Char) (cs : List Char) :
    quotedBody? quote cs = (quotedBody? quote (cs.dropWhile (isPlain quote))).map fun found =>
      (cs.takeWhile (isPlain quote) ++ found.1, found.2) := by
  induction cs with
  | nil => rfl
  | cons c cs ih =>
    cases hc : isPlain quote c with
    | true =>
      have hne : c ≠ quote ∧ c ≠ '\\' := by simpa [isPlain] using hc
      have hfirst : quotedBody? quote (c :: cs) =
          (quotedBody? quote cs).map fun found => (c :: found.1, found.2) := by
        rw [quotedBody?.eq_def]
        simp [hne]
      rw [hfirst, List.dropWhile_cons_of_pos hc, List.takeWhile_cons_of_pos hc, ih, Option.map_map]
      rfl
    | false =>
      rw [List.dropWhile_cons_of_neg (by simp [hc]), List.takeWhile_cons_of_neg (by simp [hc])]
      simp

theorem quotedBody?_of_piece (h : piece? quote cs = some (chars, rest)) :
    quotedBody? quote cs =
      (quotedBody? quote rest).map fun found => (chars ++ found.1, found.2) := by
  unfold piece? at h
  split at h
  · cases h
    rfl
  · unfold someWhile? at h
    split at h
    · cases h
    · cases h
      exact quotedBody?_plain quote cs

/-- Where no piece comes, the closing quote does, or the body never ends. -/
theorem quotedBody?_of_none (hquote : quote ≠ '\\') (h : piece? quote cs = none) :
    quotedBody? quote cs = (one? (· == quote) cs).map fun found => ([], found.2) := by
  cases cs with
  | nil => rfl
  | cons c cs =>
    by_cases hc : c = '\\'
    · subst hc
      cases cs with
      | nil => simp [quotedBody?, one?, Ne.symm hquote]
      | cons d cs => cases h
    · rw [piece?_of_ne hc] at h
      have hclosing : c = quote := by
        by_contra hne
        have hplain : isPlain quote c = true := by simp [isPlain, hne, hc]
        simp [someWhile?, hplain] at h
      subst hclosing
      rw [quotedBody?.eq_def]
      simp [one?, hc]

theorem piece?_length (h : piece? quote cs = some (chars, rest)) : rest.length < cs.length := by
  unfold piece? at h
  split at h
  · cases h
    simp only [List.length_cons]
    omega
  · exact (someWhile?_suffix h).2

/-- Reading pieces until none comes, and the closing quote, reads the body. -/
theorem pieces_closing {α : Type} (hquote : quote ≠ '\\') {count : Nat} (f : List Char → α)
    (hcount : cs.length < count) :
    (Reader.atMost count (Reader.ofOption (piece? quote)) >>= fun pieces =>
      Reader.ofOption (one? (· == quote)) >>= fun _ => pure (f pieces.flatten)) n cs =
        (f <$> Reader.ofOption (quotedBody? quote)) n cs := by
  induction count generalizing cs f with
  | zero => exact absurd hcount (Nat.not_lt_zero _)
  | succ count ih =>
    simp only [Reader.atMost, Reader.ofOption, Bind.bind, Functor.map] at ih ⊢
    cases hpiece : piece? quote cs with
    | none =>
      simp only [quotedBody?_of_none hquote hpiece]
      cases one? (· == quote) cs <;> rfl
    | some found =>
      obtain ⟨chars, rest⟩ := found
      have hshorter := piece?_length hpiece
      -- what is read behind the first piece, with that piece in front of it
      have hmore := ih (fun body => f (chars ++ body)) (show rest.length < count by omega)
      simp only [quotedBody?_of_piece hpiece]
      generalize Reader.atMost count _ n rest = more, quotedBody? quote rest = body at hmore ⊢
      cases more <;> cases body <;> exact hmore

end

end RowFilter.Grammar
