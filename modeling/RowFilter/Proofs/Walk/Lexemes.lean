import RowFilter.Proofs.Grammar.Completeness
import RowFilter.Proofs.Walk.Parts
import RowFilter.Proofs.Walk.Retraces

/-! Walks over the lexemes. Character by character a word, a numeral or a quoted text comes
out as it is read at once. -/

namespace RowFilter.Grammar

open Walk (isPlain)
open Numeral (exponent? unsigned?)

namespace Retraces

variable {α : Type} {level k : Nat} {p q : Walk α} {r r' : Reader α}

theorem congr (h : Retraces level k p q r) (hr : ∀ n cs, r n cs = r' n cs) :
    Retraces level k p q r' := by
  rw [← funext₂ hr]
  exact h

theorem one (accepts : Char → Bool) :
    Retraces level 1 (Walk.one accepts) (Walk.one accepts) (Reader.ofOption (one? accepts)) := by
  apply ofOption
  intro cs c rest h
  unfold one? at h
  split at h
  · split at h
    · cases h
      exact ⟨List.suffix_cons _ _, Nat.le_refl _⟩
    · cases h
  · cases h

theorem span (accepts : Char → Bool) : Retraces level 0 (Walk.span accepts) (Walk.span accepts)
    (Reader.ofOption fun cs => some (cs.takeWhile accepts, cs.dropWhile accepts)) := by
  apply ofOption
  rintro cs _ _ ⟨⟩
  exact ⟨List.dropWhile_suffix accepts, (List.dropWhile_suffix accepts).length_le⟩

theorem spanSome (accepts : Char → Bool) : Retraces level 1 (Walk.spanSome accepts)
    (Walk.spanSome accepts) (Reader.ofOption (someWhile? accepts)) := by
  apply ofOption
  intro cs chars rest h
  exact someWhile?_suffix h

theorem symbol {s : String} (hs : s.toList ≠ []) :
    Retraces level 1 (Walk.symbol s) (Walk.symbol s) (Grammar.symbol s) :=
  ofOption fun h => ⟨leavesSuffix_symbol _ _ _ h, takes_symbol hs _ _ _ h⟩

theorem gap : Retraces level 0 Walk.gap Walk.gap Grammar.gap :=
  ((span isGap).bind fun _ => value ()).congr fun _ _ => rfl

theorem letters : Retraces level 1 Walk.letters Walk.letters (Reader.ofOption word?) := by
  have h := (@one level isWordStart).bind fun first =>
    (span isWordChar).bind fun more => value (first :: more)
  refine h.congr fun n cs => ?_
  cases cs with
  | nil => rfl
  | cons c cs =>
    simp only [Reader.ofOption, one?, word?, Bind.bind]
    cases isWordStart c <;> rfl

theorem word (w : String) : Retraces level 1 (Walk.word w) (Walk.word w) (Grammar.word w) := by
  refine ((letters.verify _).bind fun _ => value ()).congr fun n cs => ?_
  simp only [Reader.ofOption, Grammar.word, dropWord?, Bind.bind]
  cases word? cs with
  | none => rfl
  | some found =>
    obtain ⟨v, rest⟩ := found
    by_cases hv : String.ofList v = w
    · simp only [hv, decide_true, if_true]
      rfl
    · simp only [hv, decide_false, if_false, Bool.false_eq_true]
      rfl

theorem name : Retraces level 1 Walk.name Walk.name Grammar.name := by
  refine ((letters.verify _).map String.ofList).congr fun n cs => ?_
  simp only [Reader.ofOption, Grammar.name, name?, Functor.map, Bind.bind]
  cases word? cs with
  | none => rfl
  | some found =>
    obtain ⟨w, rest⟩ := found
    simp only
    cases reserved.contains (String.ofList w) <;> rfl

theorem comma : Retraces level 1 Walk.comma Walk.comma Grammar.comma :=
  (gap.bind fun _ => (symbol (by decide)).bind fun _ => gap).mono (by decide)

theorem lastComma : Retraces level 0 (Walk.optional Walk.lastComma) (Walk.optional Walk.lastComma)
    (Reader.optional Grammar.lastComma) :=
  (gap.bind fun _ => symbol (by decide)).optional

theorem assign : Retraces level 1 Walk.assign Walk.assign Grammar.assign := by
  refine ((symbol (by decide)).bind fun _ => unlessNext _).congr fun n cs => ?_
  cases cs with
  | nil => rfl
  | cons c cs =>
    by_cases hc : c = '='
    · subst hc
      cases cs with
      | nil => rfl
      | cons d cs =>
        by_cases hd : d = '='
        · subst hd
          rfl
        · simp [Grammar.symbol, Grammar.assign, Reader.ofOption, Bind.bind, dropSymbol?, hd,
            Ne.symm hd]
    · simp [Grammar.symbol, Grammar.assign, Reader.ofOption, Bind.bind, dropSymbol?, hc, Ne.symm hc]

theorem relation : Retraces level 1 Walk.relation Walk.relation Grammar.relation := by
  have sign {s : String} (hs : s.toList ≠ []) (r : Relation) :
      Retraces level 1 (do Walk.symbol s; pure r : Walk Relation) (do Walk.symbol s; pure r)
        (do Grammar.symbol s; pure r) :=
    (symbol hs).bind fun _ => value r
  have one (w : String) (r : Relation) :
      Retraces level 1 (do Walk.word w; pure r : Walk Relation) (do Walk.word w; pure r)
        (do Grammar.word w; pure r) :=
    (word w).bind fun _ => value r
  have two (v w : String) (r : Relation) :
      Retraces level 1 (do Walk.word v; Walk.gap; Walk.word w; pure r : Walk Relation)
        (do Walk.word v; Walk.gap; Walk.word w; pure r)
        (do Grammar.word v; Grammar.gap; Grammar.word w; pure r) :=
    ((word v).bind fun _ => gap.bind fun _ => one w r).mono (by decide)
  exact (sign (by decide) _).orElse ((sign (by decide) _).orElse ((sign (by decide) _).orElse
    ((sign (by decide) _).orElse ((sign (by decide) _).orElse ((sign (by decide) _).orElse
      ((two _ _ _).orElse ((one _ _).orElse ((two _ _ _).orElse (one _ _).last))))))))

theorem digits : Retraces level 1 Walk.digits Walk.digits
    (Reader.ofOption (someWhile? Char.isDigit)) :=
  spanSome Char.isDigit

theorem exponent :
    Retraces level 1 Walk.exponent Walk.exponent (Reader.ofOption exponent?) := by
  have h := (@one level fun c => c == 'e' || c == 'E').bind fun letter =>
    (one fun c => c == '+' || c == '-').optional.bind fun sign => digits.bind fun digits =>
      value (⟨letter == 'E', sign.map fun c => if c == '-' then .minus else .plus, digits⟩ :
        ExponentPart)
  refine (h.congr fun n cs => ?_).mono (by decide)
  cases cs with
  | nil => rfl
  | cons c cs =>
    by_cases hc : c = 'e' ∨ c = 'E'
    · simp only [Reader.ofOption, Reader.optional, Bind.bind, exponent?_letter hc]
      rw [one?, if_pos (by simpa using hc)]
      simp only
      cases one? (fun c => c == '+' || c == '-') cs with
      | none =>
        simp only [exponentDigits?_eq]
        cases someWhile? Char.isDigit cs <;> rfl
      | some found =>
        simp only [exponentDigits?_eq]
        cases someWhile? Char.isDigit found.2 <;> rfl
    · rw [not_or] at hc
      simp [Reader.ofOption, Bind.bind, one?, exponent?, hc]

theorem unsigned :
    Retraces level 1 Walk.unsigned Walk.unsigned (Reader.ofOption unsigned?) := by
  have pointed := (@symbol level "." (by decide)).bind fun _ =>
    digits.optional
  have numeral (whole : List Char) (fraction : Option (List Char)) :=
    (@exponent level).optional.bind fun exponent =>
      value (⟨false, whole, fraction, exponent⟩ : Numeral)
  have whole := (@digits level).bind fun whole => pointed.optional.bind fun fraction =>
    numeral whole (fraction.map (·.getD []))
  have point := (@symbol level "." (by decide)).bind fun _ =>
    digits.bind fun fraction => numeral [] (some fraction)
  refine ((whole.mono (by decide)).orElse (point.mono (by decide)).last).congr fun n cs => ?_
  simp only [Reader.firstOf]
  cases h : someWhile? Char.isDigit cs with
  | some found =>
    obtain ⟨optional, hfraction, hfound⟩ := optional_fraction n found.2
    have hdigits : Reader.ofOption (someWhile? Char.isDigit) n cs = .read found.1 found.2 n := by
      rw [Reader.ofOption, h]
    rw [bind_of_read hdigits, bind_of_read hfraction, optional_exponent, hfound, Reader.ofOption,
      unsigned?_of_digits h]
  | none =>
    have hdigits : Reader.ofOption (someWhile? Char.isDigit) n cs = .refused n := by
      rw [Reader.ofOption, h]
    simp only [bind_of_refused hdigits, point_digits, Reader.ofOption, unsigned?_of_none h]
    cases pointed? cs <;> rfl

theorem number : Retraces level 1 Walk.number Walk.number
    (literalOf <$> Reader.ofOption numeral?) := by
  have sign := ((@symbol level "-" (by decide)).bind fun _ => gap).optional
  have h := sign.bind fun sign => unsigned.bind fun n =>
    value (literalOf { n with negative := sign.isSome })
  refine h.congr fun n cs => ?_
  by_cases hc : ∃ behind, cs = '-' :: behind
  · obtain ⟨behind, rfl⟩ := hc
    have hsign : Reader.optional (Grammar.symbol "-" >>= fun _ => Grammar.gap) n ('-' :: behind) =
        .read (some ()) (skipGap behind) n := rfl
    rw [bind_of_read hsign]
    simp only [Functor.map, Bind.bind, Reader.ofOption, numeral?]
    cases unsigned? (skipGap behind) <;> rfl
  · have hsign : Reader.optional (Grammar.symbol "-" >>= fun _ => Grammar.gap) n cs =
        .read none cs n := by
      cases cs with
      | nil => rfl
      | cons c cs =>
        have hc : '-' ≠ c := fun h => hc ⟨cs, by rw [h]⟩
        simp [Reader.optional, Reader.ofOption, Grammar.symbol, Bind.bind, dropSymbol?, hc]
    have hnumeral := numeral?_eq_unsigned? fun behind hcs => hc ⟨behind, hcs⟩
    rw [bind_of_read hsign]
    simp only [Functor.map, Bind.bind, Reader.ofOption, hnumeral]
    cases h : unsigned? cs with
    | none => rfl
    | some found =>
      have hsame : { found.1 with negative := false } = found.1 := by
        rw [← (Numeral.unsigned?_eq_some h).2.unsigned]
      change Reply.read (literalOf { found.1 with negative := false }) found.2 n = _
      rw [hsame]
      rfl

theorem piece (quote : Char) : Retraces level 1 (Walk.piece quote) (Walk.piece quote)
    (Reader.ofOption (piece? quote)) := by
  have plain := @spanSome level (isPlain quote)
  have escaped := (@symbol level "\\" (by decide)).bind fun _ =>
    (one fun _ => true).bind fun c => value [unescape c]
  refine (plain.orElse (escaped.mono (by decide)).last).congr fun n cs => ?_
  cases cs with
  | nil => rfl
  | cons c cs =>
    by_cases hc : c = '\\'
    · subst hc
      cases cs <;> simp [Reader.firstOf, Reader.refuse, Reader.ofOption, Grammar.symbol, Bind.bind,
        dropSymbol?, someWhile?_backslash, one?, piece?]
      rfl
    · simp only [Reader.firstOf, Reader.ofOption, piece?_of_ne hc]
      cases someWhile? (isPlain quote) (c :: cs) with
      | some found => rfl
      | none => simp [Reader.refuse, Grammar.symbol, Reader.ofOption, Bind.bind, dropSymbol?, Ne.symm hc]

/-- All that stands before the closing quote or the end of the text. -/
theorem body (quote : Char) : Retraces level 0 (Walk.body quote) (Walk.body quote)
    (List.flatten <$> Reader.many (Reader.ofOption (piece? quote))) :=
  (piece quote).many.map List.flatten

theorem quoted {quote : Char} (hquote : quote ≠ '\\') :
    Retraces level 1 (Walk.quoted quote) (Walk.quoted quote)
      (Reader.ofOption (one? (· == quote)) >>= fun _ =>
        (fun body => Literal.str (String.ofList body)) <$> Reader.ofOption (quotedBody? quote)) := by
  have h := (@one level (· == quote)).bind fun _ => (body quote).bind fun body =>
    (one (· == quote)).bind fun _ => value (Literal.str (String.ofList body))
  refine (h.congr fun n cs => ?_).mono (by decide)
  cases hopen : Reader.ofOption (one? (· == quote)) n cs with
  | refused m => rw [bind_of_refused hopen, bind_of_refused hopen]
  | halted m => rw [bind_of_halted hopen, bind_of_halted hopen]
  | read c rest m =>
    rw [bind_of_read hopen, bind_of_read hopen, ← pieces_closing hquote _ (Nat.lt_succ_self _)]
    simp only [Reader.many, Bind.bind, Functor.map]
    generalize Reader.atMost _ _ m rest = pieces
    cases pieces <;> rfl

theorem quotedText : Retraces level 1 Walk.quotedText Walk.quotedText
    (.str <$> Reader.ofOption quotedText?) := by
  refine ((quoted (by decide)).orElse (quoted (by decide)).last).congr fun n cs => ?_
  cases cs with
  | nil => rfl
  | cons c cs =>
    by_cases hdouble : c = '"'
    · subst hdouble
      have hopen : Reader.ofOption (one? (· == '"')) n ('"' :: cs) = .read '"' cs n := rfl
      simp only [Reader.firstOf, bind_of_read hopen]
      simp only [Functor.map, Bind.bind, Reader.ofOption, quotedText?]
      cases quotedBody? '"' cs <;> rfl
    · have hclosed : Reader.ofOption (one? (· == '"')) n (c :: cs) = .refused n := by
        simp [Reader.ofOption, one?, hdouble]
      simp only [Reader.firstOf, bind_of_refused hclosed]
      by_cases hsingle : c = '\''
      · subst hsingle
        have hopen : Reader.ofOption (one? (· == '\'')) n ('\'' :: cs) = .read '\'' cs n := rfl
        simp only [bind_of_read hopen]
        simp only [Functor.map, Reader.ofOption, quotedText?]
        cases quotedBody? '\'' cs <;> rfl
      · have hclosed : Reader.ofOption (one? (· == '\'')) n (c :: cs) = .refused n := by
          simp [Reader.ofOption, one?, hsingle]
        simp only [bind_of_refused hclosed]
        simp [Functor.map, Reader.ofOption, quotedText?, Reader.refuse, hdouble, hsingle]

theorem literal : Retraces level 1 Walk.literal Walk.literal Grammar.literal := by
  have one (w : String) (l : Literal) :
      Retraces level 1 (do Walk.word w; pure l : Walk Literal) (do Walk.word w; pure l)
        (do Grammar.word w; pure l) :=
    (word w).bind fun _ => value l
  exact (one _ _).orElse ((one _ _).orElse ((one _ _).orElse (number.orElse quotedText.last)))

end Retraces

end RowFilter.Grammar
