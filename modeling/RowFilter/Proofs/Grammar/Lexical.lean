import RowFilter.Proofs.Grammar.Token

/-! The tokens of a text, apart from how they are read: each is the longest lexeme that
comes, and only blanks of the grammar stand before it. -/

namespace RowFilter.Grammar

open Text

/-- A text and the characters that say it between two quotes. -/
inductive Quoted (quote : Char) : List Char → List Char → Prop
  | nil : Quoted quote [] []
  | plain {c : Char} {body chars : List Char} : c ≠ quote → c ≠ '\\' →
    Quoted quote body chars → Quoted quote (c :: body) (c :: chars)
  | escaped (c : Char) {body chars : List Char} :
    Quoted quote body chars → Quoted quote (unescape c :: body) ('\\' :: c :: chars)

/-- A token and the characters that say it. -/
inductive Lexeme : Token → List Char → Prop
  | word {w : String} : IsWord w → Lexeme (.word w) w.toList
  | number {n : Numeral} : n.Written → Lexeme (.number n) n.chars
  | text {quote : Char} {body chars : List Char} : quote = '"' ∨ quote = '\'' →
    Quoted quote body chars → Lexeme (.text (String.ofList body)) (quote :: (chars ++ [quote]))
  | symbol {s : String} : s ∈ symbols → Lexeme (.symbol s) s.toList

/-- No other lexeme at the start of the text is longer. -/
def Longest (chars rest : List Char) : Prop :=
  ∀ t more, Lexeme t more → more <+: chars ++ rest → more.length ≤ chars.length

/-- The text consists of the tokens and of the blanks before them. -/
inductive Written : List Token → List Char → Prop
  | nil : Written [] []
  | cons {t : Token} {ts : List Token} {blanks chars rest : List Char} :
    (∀ c ∈ blanks, c = ' ' ∨ c = '\t' ∨ c = '\r' ∨ c = '\n') → Lexeme t chars →
    Longest chars rest → Written ts rest → Written (t :: ts) (blanks ++ chars ++ rest)

section

variable {cs rest more : List Char} {t u : Token} {ts us : List Token}

theorem quotedBody?_eq_some_iff {quote : Char} (hquote : quote ≠ '\\') {body : List Char} :
    quotedBody? quote cs = some (body, rest) ↔
      ∃ chars, Quoted quote body chars ∧ cs = chars ++ quote :: rest := by
  constructor
  · intro h
    fun_induction quotedBody? quote cs generalizing body with
    | case1 => cases h
    | case2 => cases h
    | case3 c cs ih =>
      obtain ⟨⟨body, _⟩, hr, ⟨⟩⟩ := Option.map_eq_some_iff.1 h
      obtain ⟨chars, hchars, rfl⟩ := ih hr
      exact ⟨_, hchars.escaped c, rfl⟩
    | case4 =>
      cases h
      exact ⟨[], .nil, rfl⟩
    | case5 c cs hlast hmore hc ih =>
      obtain ⟨⟨body, _⟩, hr, ⟨⟩⟩ := Option.map_eq_some_iff.1 h
      obtain ⟨chars, hchars, rfl⟩ := ih hr
      refine ⟨_, .plain hc ?_ hchars, rfl⟩
      rintro rfl
      cases chars <;> exact hmore _ _ rfl rfl
  · intro h
    obtain ⟨chars, hchars, rfl⟩ := h
    induction hchars with
    | nil => simp [quotedBody?, hquote]
    | plain hc hslash _ ih => simp [quotedBody?, hc, hslash, ih]
    | escaped c _ ih => simp [quotedBody?, ih]

theorem quotedText?_quote {quote : Char} (hquote : quote = '"' ∨ quote = '\'') :
    quotedText? (quote :: cs) =
      (quotedBody? quote cs).map fun (body, rest) => (String.ofList body, rest) := by
  rcases hquote with rfl | rfl <;> rfl

theorem lexeme_of_quotedText? {s : String} (h : quotedText? cs = some (s, rest)) :
    ∃ chars, cs = chars ++ rest ∧ Lexeme (.text s) chars := by
  have hquote : ∃ quote behind, cs = quote :: behind ∧ (quote = '"' ∨ quote = '\'') := by
    unfold quotedText? at h
    split at h
    · exact ⟨_, _, rfl, .inl rfl⟩
    · exact ⟨_, _, rfl, .inr rfl⟩
    · cases h
  obtain ⟨quote, behind, rfl, hquote⟩ := hquote
  rw [quotedText?_quote hquote] at h
  obtain ⟨⟨body, _⟩, hbody, ⟨⟩⟩ := Option.map_eq_some_iff.1 h
  have hslash : quote ≠ '\\' := by rcases hquote with rfl | rfl <;> decide
  obtain ⟨chars, hchars, rfl⟩ := (quotedBody?_eq_some_iff hslash).1 hbody
  exact ⟨_, by simp, .text hquote hchars⟩

theorem Lexeme.text_head {s : String} {chars : List Char} (h : Lexeme (.text s) chars) :
    ∃ quote more, chars = quote :: more ∧ (quote = '"' ∨ quote = '\'') := by
  cases h with
  | text hquote _ => exact ⟨_, _, rfl, hquote⟩

/-- A text between quotes is read wherever it stands. -/
theorem Lexeme.text_reads {s : String} {chars : List Char} (h : Lexeme (.text s) chars)
    (rest : List Char) : lexeme? (chars ++ rest) = some (.text s, rest) := by
  cases h with
  | @text quote body chars hquote hchars =>
    have hslash : quote ≠ '\\' := by rcases hquote with rfl | rfl <;> decide
    apply quotedText?_eq_some_iff.1
    rw [List.cons_append, List.append_assoc, List.singleton_append, quotedText?_quote hquote,
      (quotedBody?_eq_some_iff hslash).2 ⟨chars, hchars, rfl⟩]
    rfl

/-- What is read is a lexeme. -/
theorem lexeme_of_lexeme? (h : lexeme? cs = some (t, rest)) :
    ∃ chars, cs = chars ++ rest ∧ Lexeme t chars := by
  rcases lexeme?_eq_some h with ⟨w, rfl, hw⟩ | ⟨n, rfl, hn⟩ | ⟨s, rfl, hs⟩ | ⟨s, hs, rfl, hcs⟩
  · have hword := isWord_of_lexeme? h
    have hlexeme := Lexeme.word hword
    rw [String.toList_ofList] at hlexeme
    exact ⟨w, (word?_eq_some hw).1, hlexeme⟩
  · obtain ⟨hcs, hn⟩ := Numeral.unsigned?_eq_some hn
    exact ⟨n.chars, hcs, .number hn⟩
  · exact lexeme_of_quotedText? hs
  · exact ⟨_, hcs, .symbol hs⟩

theorem joins_long {s : String} (hs : s.length ≠ 1) : joins s rest = false := by
  unfold joins
  split
  all_goals first | rfl | exact absurd rfl hs

/-- A word reaches as far as its letters go on. -/
theorem word?_letters {c : Char} {chars : List Char} (hc : isWordStart c = true)
    (hchars : ∀ d ∈ chars, isWordChar d = true) (rest : List Char) :
    word? (c :: (chars ++ rest)) =
      some (c :: (chars ++ rest.takeWhile isWordChar), rest.dropWhile isWordChar) := by
  rw [word?, if_pos hc, List.takeWhile_append_of_pos hchars, List.dropWhile_append_of_pos hchars]

/-- Where a lexeme stands, one that is no shorter is read. -/
theorem Lexeme.reaches (h : Lexeme t more) (rest : List Char) :
    ∃ found, lexeme? (more ++ rest) = some found ∧ found.2.length ≤ rest.length := by
  have hnumber {n : Numeral} (hn : n.Written) (rest : List Char) :
      ∃ found, lexeme? (n.chars ++ rest) = some found ∧ found.2.length ≤ rest.length := by
    obtain ⟨⟨m, behind⟩, hread, hlength⟩ := hn.reaches rest
    exact ⟨_, unsigned?_eq_some_iff.1 hread, hlength⟩
  have hsymbol {s : String} (hs : s ∈ symbols) (rest : List Char) (hj : joins s rest = false) :
      ∃ found, lexeme? (s.toList ++ rest) = some found ∧ found.2.length ≤ rest.length :=
    ⟨_, lexeme?_symbol hs hj, Nat.le_refl _⟩
  cases h with
  | number hn => exact hnumber hn rest
  | word hw =>
    obtain ⟨c, chars, hchars, hc, hmore⟩ := hw
    rw [hchars]
    exact ⟨_, word?_eq_some_iff.1 (word?_letters hc hmore rest), (List.dropWhile_suffix _).length_le⟩
  | text hquote hchars =>
    exact ⟨_, Lexeme.text_reads (.text hquote hchars) rest, Nat.le_refl _⟩
  | @symbol s hs =>
    cases hj : joins s rest with
    | false => exact hsymbol hs rest hj
    | true =>
      -- the symbol is the start of a numeral or of a longer symbol
      have hlonger : ∃ c behind, rest = c :: behind ∧
          ∃ found, lexeme? (s.toList ++ c :: behind) = some found ∧
            found.2.length ≤ behind.length := by
        unfold joins at hj
        split at hj
        · rename_i c behind
          have hpoint : (⟨false, [], some [c], none⟩ : Numeral).Written :=
            ⟨rfl, by simp, by simpa using hj, .inr ⟨_, rfl, by simp⟩, by simp⟩
          exact ⟨c, behind, rfl, hnumber hpoint behind⟩
        · obtain rfl := beq_iff_eq.1 hj
          exact ⟨_, _, rfl, hsymbol (show "**" ∈ symbols by decide) _ (joins_long (by decide))⟩
        · obtain rfl := beq_iff_eq.1 hj
          exact ⟨_, _, rfl, hsymbol (show "<=" ∈ symbols by decide) _ (joins_long (by decide))⟩
        · obtain rfl := beq_iff_eq.1 hj
          exact ⟨_, _, rfl, hsymbol (show ">=" ∈ symbols by decide) _ (joins_long (by decide))⟩
        · obtain rfl := beq_iff_eq.1 hj
          exact ⟨_, _, rfl, hsymbol (show "==" ∈ symbols by decide) _ (joins_long (by decide))⟩
        · cases hj
      obtain ⟨c, behind, rfl, found, hread, hlength⟩ := hlonger
      exact ⟨found, hread, Nat.le_succ_of_le hlength⟩

/-- A lexeme that is the whole text is read as what it is. -/
theorem Lexeme.read (h : Lexeme t more) : lexeme? more = some (t, []) := by
  cases h with
  | @word w hw =>
    obtain ⟨c, chars, hchars, hc, hmore⟩ := hw
    have hread := word?_letters hc hmore []
    simp only [List.append_nil, List.takeWhile_nil, List.dropWhile_nil] at hread
    have hw : String.ofList (c :: chars) = w := by rw [← hchars, String.ofList_toList]
    rw [hchars, ← hw]
    exact word?_eq_some_iff.1 hread
  | @number n hn =>
    have hread : Numeral.unsigned? (n.chars ++ []) = some (n, []) :=
      Numeral.unsigned?_chars hn (by simp [EndsWord]) (by simp)
    rw [List.append_nil] at hread
    exact unsigned?_eq_some_iff.1 hread
  | text hquote hchars =>
    have hread := Lexeme.text_reads (.text hquote hchars) []
    rwa [List.append_nil] at hread
  | @symbol s hs =>
    have hend : joins s [] = false := by
      unfold joins
      split <;> simp_all
    have hread := lexeme?_symbol hs hend
    rwa [List.append_nil] at hread

/-- Reading takes the longest lexeme. -/
theorem lexeme?_eq_some_iff : lexeme? cs = some (t, rest) ↔
    ∃ chars, cs = chars ++ rest ∧ Lexeme t chars ∧ Longest chars rest := by
  have hlongest {t : Token} {chars rest : List Char} (h : lexeme? (chars ++ rest) = some (t, rest)) :
      Longest chars rest := by
    intro u more hu hprefix
    obtain ⟨behind, hbehind⟩ := hprefix
    obtain ⟨⟨v, r⟩, hfound, hlength⟩ := hu.reaches behind
    rw [hbehind, h] at hfound
    cases hfound
    have := congrArg List.length hbehind
    simp only [List.length_append] at this hlength
    omega
  constructor
  · intro h
    obtain ⟨chars, rfl, ht⟩ := lexeme_of_lexeme? h
    exact ⟨chars, rfl, ht, hlongest h⟩
  · intro h
    obtain ⟨chars, rfl, ht, hmax⟩ := h
    obtain ⟨⟨u, behind⟩, hread, hlength⟩ := ht.reaches rest
    obtain ⟨chars', hsplit, hu⟩ := lexeme_of_lexeme? hread
    have hle := hmax u chars' hu ⟨behind, hsplit.symm⟩
    have hsum := congrArg List.length hsplit
    simp only [List.length_append] at hsum hlength
    obtain ⟨rfl, rfl⟩ := List.append_inj hsplit (by omega)
    cases ht.read.symm.trans hu.read
    exact hread

theorem written_iff_spells : Written ts cs ↔ Spells ts cs [] := by
  constructor
  · intro h
    induction h with
    | nil => exact .nil []
    | @cons t ts blanks chars rest hblanks ht hlongest _ ih =>
      have hread := lexeme?_eq_some_iff.2 ⟨chars, rfl, ht, hlongest⟩
      have hgap : ∀ c ∈ blanks, isGap c = true := fun c hc => by
        rcases hblanks c hc with rfl | rfl | rfl | rfl <;> rfl
      refine .cons ?_ ih
      have hskip := skipGap_of_lexeme? hread
      rw [skipGap] at hskip
      rw [next?, List.append_assoc, skipGap, List.dropWhile_append_of_pos hgap, hskip, hread]
  · intro h
    generalize hrest : ([] : List Char) = rest at h
    induction h with
    | nil => exact hrest ▸ .nil
    | @cons cs mid rest t ts hnext _ ih =>
      obtain ⟨chars, hchars, ht, hlongest⟩ := lexeme?_eq_some_iff.1 hnext
      have hcs : cs = cs.takeWhile isGap ++ chars ++ mid := by
        rw [List.append_assoc, ← hchars]
        exact List.takeWhile_append_dropWhile.symm
      rw [hcs]
      refine .cons (fun c hc => ?_) ht hlongest (ih hrest)
      have hgap := List.all_eq_true.1 List.all_takeWhile c hc
      simpa only [isGap, Bool.or_eq_true, beq_iff_eq, or_assoc] using hgap

theorem isBlank_eq_false_of_isWordChar {c : Char} (h : isWordChar c = true) :
    isBlank c = false := by
  have hclass : isWordStart c = true ∨ c.isDigit = true := by
    simp only [isWordChar, Char.isAlphanum, Bool.or_eq_true] at h
    simp only [isWordStart, Bool.or_eq_true]
    tauto
  rcases hclass with hstart | hdigit
  · exact isBlank_eq_false_of_isWordStart hstart
  · exact isBlank_eq_false_of_isDigit hdigit

theorem isBlank_eq_false_of_written {n : Numeral} (hn : n.Written) :
    ∀ c ∈ n.chars, isBlank c = false := by
  intro c hc
  rcases hn.mem_chars hc with hdigit | hsign
  · exact isBlank_eq_false_of_isDigit hdigit
  · simp only [List.mem_cons, List.not_mem_nil, or_false] at hsign
    rcases hsign with rfl | rfl | rfl | rfl | rfl <;> rfl

theorem exists_last {chars : List Char} (hne : chars ≠ []) (h : ∀ c ∈ chars, isBlank c = false) :
    ∃ front c, chars = front ++ [c] ∧ isBlank c = false := by
  obtain ⟨front, c, rfl⟩ := (List.eq_nil_or_concat chars).resolve_left hne
  exact ⟨front, c, by simp, h c (by simp)⟩

/-- No lexeme ends with a blank. -/
theorem Lexeme.last {chars : List Char} (h : Lexeme t chars) :
    ∃ front c, chars = front ++ [c] ∧ isBlank c = false := by
  cases h with
  | word hw =>
    obtain ⟨c, more, hchars, hc, hmore⟩ := hw
    rw [hchars]
    exact exists_last (List.cons_ne_nil c more) (List.forall_mem_cons.2
      ⟨isBlank_eq_false_of_isWordStart hc, fun d hd => isBlank_eq_false_of_isWordChar (hmore d hd)⟩)
  | number hn =>
    obtain ⟨c, more, hchars, -⟩ := hn.head
    exact exists_last (by simp [hchars]) (isBlank_eq_false_of_written hn)
  | @text quote body chars hquote _ =>
    refine ⟨quote :: chars, quote, rfl, ?_⟩
    rcases hquote with rfl | rfl <;> rfl
  | @symbol s hs =>
    have hall : (symbols.all fun s => !s.toList.isEmpty &&
        s.toList.all fun c => !isBlank c) = true := by decide
    have hs := List.all_eq_true.1 hall s hs
    simp only [Bool.and_eq_true, Bool.not_eq_true', List.isEmpty_eq_false_iff,
      List.all_eq_true] at hs
    exact exists_last hs.1 hs.2

theorem Spells.suffix (h : Spells ts cs rest) : rest <:+ cs := by
  induction h with
  | nil => exact List.suffix_rfl
  | @cons cs mid rest t ts hnext _ ih =>
    obtain ⟨chars, hchars, -⟩ := lexeme?_eq_some_iff.1 hnext
    have hmid : mid <:+ skipGap cs := ⟨chars, hchars.symm⟩
    exact ih.trans (hmid.trans (List.dropWhile_suffix isGap))

/-- A text has one way to be written in tokens. -/
theorem Written.unique (h : Written ts cs) (h' : Written us cs) : ts = us :=
  ((written_iff_spells.1 h).unique (written_iff_spells.1 h') rfl rfl).1

end

end RowFilter.Grammar
