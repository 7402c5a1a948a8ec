import RowFilter.Proofs.Grammar.Locality
import RowFilter.Proofs.Grammar.Places

/-! Spacing. A token ends where a blank of the grammar stands outside quoted texts, so a text
spells its tokens on the two sides of such a blank. Exchanging a run of these blanks for
another one changes neither side, and the source is read as the same tree. -/

namespace RowFilter

open Text

namespace Grammar

/-- What is open behind some characters: nothing, or a quoted text, in which a backslash takes
the next character along. -/
inductive Quotation where
  | closed
  | within (quote : Char)
  | escaping (quote : Char)
  deriving DecidableEq

def Quotation.after : Quotation → Char → Quotation
  | .closed, c => if c = '"' ∨ c = '\'' then .within c else .closed
  | .within quote, c =>
    if c = '\\' then .escaping quote else if c = quote then .closed else .within quote
  | .escaping quote, _ => .within quote

/-- Behind the characters no quoted text is open. -/
def Outside (cs : List Char) : Prop := cs.foldl Quotation.after .closed = .closed

instance (cs : List Char) : Decidable (Outside cs) := inferInstanceAs (Decidable (_ = _))

/-- One or more blanks of the grammar and nothing else. -/
def IsGap (blanks : List Char) : Prop := blanks ≠ [] ∧ ∀ c ∈ blanks, isGap c = true

/-- The texts differ in one run of blanks, which stands outside quoted texts. -/
inductive Respaced : List Char → List Char → Prop
  | mk {front blanks blanks' : List Char} (behind : List Char) : Outside front → IsGap blanks →
    IsGap blanks' → Respaced (front ++ (blanks ++ behind)) (front ++ (blanks' ++ behind))

theorem Respaced.symm {cs ds : List Char} (h : Respaced cs ds) : Respaced ds cs := by
  obtain ⟨behind, hout, hblanks, hblanks'⟩ := h
  exact .mk behind hout hblanks' hblanks

section

variable {cs ds front behind chars blanks rest : List Char} {c : Char} {t : Token}
variable {ts : List Token}

theorem outside_of_unquoted (h : ∀ c ∈ cs, c ≠ '"' ∧ c ≠ '\'') : Outside cs := by
  induction cs with
  | nil => rfl
  | cons c cs ih =>
    obtain ⟨hc, hcs⟩ := List.forall_mem_cons.1 h
    have hafter : Quotation.after .closed c = .closed := by simp [Quotation.after, hc]
    rw [Outside, List.foldl_cons, hafter]
    exact ih hcs

theorem Outside.append_iff (h : Outside cs) : Outside (cs ++ ds) ↔ Outside ds := by
  rw [Outside, List.foldl_append, h, Outside]

/-- Blanks at the start open nothing. -/
theorem Outside.dropWhile {blank : Char → Bool} (h : Outside cs)
    (hblank : ∀ c, blank c = true → isBlank c = true) : Outside (cs.dropWhile blank) := by
  have hfront : Outside (cs.takeWhile blank) := by
    refine outside_of_unquoted fun c hc => ?_
    have hc := hblank c (List.all_eq_true.1 List.all_takeWhile c hc)
    constructor <;> rintro rfl <;> cases hc
  rw [← List.takeWhile_append_dropWhile (p := blank) (l := cs)] at h
  exact hfront.append_iff.1 h

/-- The inside of a quoted text leaves it open. -/
theorem Quoted.within {quote : Char} {body : List Char} (h : Quoted quote body chars) :
    chars.foldl Quotation.after (.within quote) = .within quote := by
  induction h with
  | nil => rfl
  | plain hquote hslash _ ih =>
    rw [List.foldl_cons, Quotation.after, if_neg hslash, if_neg hquote]
    exact ih
  | escaped c _ ih => exact ih

theorem Quoted.front_ne_closed {quote : Char} {body : List Char}
    (h : Quoted quote body (front ++ behind)) :
    front.foldl Quotation.after (.within quote) ≠ .closed := by
  generalize hchars : front ++ behind = chars at h
  induction h generalizing front with
  | nil =>
    obtain ⟨rfl, -⟩ := List.append_eq_nil_iff.1 hchars
    simp
  | plain hquote hslash _ ih =>
    cases front with
    | nil => simp
    | cons d front =>
      obtain ⟨rfl, hrest⟩ := List.cons.inj hchars
      rw [List.foldl_cons, Quotation.after, if_neg hslash, if_neg hquote]
      exact ih hrest
  | escaped c _ ih =>
    match front with
    | [] => simp
    | [d] =>
      obtain ⟨rfl, -⟩ := List.cons.inj hchars
      simp [Quotation.after]
    | d :: e :: front =>
      obtain ⟨rfl, hmore⟩ := List.cons.inj hchars
      obtain ⟨rfl, hrest⟩ := List.cons.inj hmore
      have hopen := ih hrest
      exact hopen

theorem after_quote {quote : Char} (h : quote = '"' ∨ quote = '\'') :
    Quotation.after .closed quote = .within quote := by
  rw [Quotation.after, if_pos h]

/-- Behind a whole token nothing is open. -/
theorem Lexeme.outside (h : Lexeme t chars) : Outside chars := by
  by_cases htext : ∃ s, t = .text s
  · obtain ⟨s, rfl⟩ := htext
    cases h with
    | @text quote body chars hquote hchars =>
      have hslash : quote ≠ '\\' := by rcases hquote with rfl | rfl <;> decide
      rw [Outside, List.foldl_cons, after_quote hquote, List.foldl_append, hchars.within]
      simp [Quotation.after, hslash]
  · refine outside_of_unquoted fun c hc => ?_
    have hplain := h.plain (fun s hs => htext ⟨s, hs⟩) hc
    exact ⟨hplain.1, hplain.2.1⟩

/-- A quoted text is open from its first character to its last. -/
theorem Lexeme.not_outside {s : String} (h : Lexeme (.text s) (front ++ c :: behind))
    (hfront : front ≠ []) : ¬ Outside front := by
  intro hout
  generalize hwhole : front ++ c :: behind = whole at h
  cases h with
  | @text quote body chars hquote hchars =>
    obtain ⟨d, front, rfl⟩ := List.exists_cons_of_ne_nil hfront
    obtain ⟨rfl, -⟩ := List.cons.inj hwhole
    have hmore : front ++ c :: behind = chars ++ [d] := (List.cons.inj hwhole).2
    rw [Outside, List.foldl_cons, after_quote hquote] at hout
    -- the closing quote is behind the front, so the front is a part of the inside
    have hlast : front <+: chars ++ [d] := ⟨c :: behind, hmore⟩
    have hlength := congrArg List.length hmore
    simp only [List.length_append, List.length_cons, List.length_nil] at hlength
    obtain ⟨inside, rfl⟩ := List.prefix_of_prefix_length_le hlast (List.prefix_append _ _) (by omega)
    exact hchars.front_ne_closed hout

/-- A token that starts before a blank outside quoted texts ends before it. -/
theorem lexeme?_before_gap (hout : Outside front) (hne : front ≠ []) (hc : isGap c = true)
    (h : lexeme? (front ++ c :: behind) = some (t, rest)) :
    ∃ mid, rest = mid ++ c :: behind ∧ lexeme? front = some (t, mid) ∧ Outside mid := by
  obtain ⟨chars, hchars, ht, -⟩ := lexeme?_eq_some_iff.1 h
  have hmid : ∃ mid, front = chars ++ mid ∧ rest = mid ++ c :: behind := by
    rcases List.append_eq_append_iff.1 hchars with ⟨more, hmore, hrest⟩ | ⟨mid, hmid, hrest⟩
    · cases more with
      | nil => exact ⟨[], by simpa using hmore.symm, by simpa using hrest.symm⟩
      | cons d more =>
        exfalso
        obtain ⟨rfl, -⟩ := List.cons.inj hrest
        rw [hmore] at ht
        by_cases htext : ∃ s, t = .text s
        · obtain ⟨s, rfl⟩ := htext
          exact ht.not_outside hne hout
        · have hplain := ht.plain (fun s hs => htext ⟨s, hs⟩) (show c ∈ front ++ c :: more by simp)
          rw [hplain.2.2.1] at hc
          cases hc
    · exact ⟨mid, hmid, hrest⟩
  obtain ⟨mid, rfl, rfl⟩ := hmid
  exact ⟨mid, rfl, lexeme?_cut h, ht.outside.append_iff.1 hout⟩

theorem skipGap_append_of_nil (h : skipGap cs = []) : skipGap (cs ++ ds) = skipGap ds := by
  rw [skipGap, List.dropWhile_append, ← skipGap, h]
  rfl

/-- What a text spells is spelled on the two sides of a blank outside quoted texts. -/
theorem Spells.sides (hout : Outside front) (hc : isGap c = true)
    (h : Spells ts (front ++ c :: behind) []) :
    ∃ us vs blanks, ts = us ++ vs ∧ Spells us front blanks ∧ skipGap blanks = [] ∧
      Spells vs behind [] := by
  induction ts generalizing front with
  | nil =>
    generalize hwhole : front ++ c :: behind = whole at h
    cases h
    simp at hwhole
  | cons t ts ih =>
    obtain ⟨mid, hnext, hmore⟩ := h.head
    by_cases hfront : skipGap front = []
    · -- the first token stands behind the blank
      have hskip : skipGap (front ++ c :: behind) = skipGap behind := by
        rw [skipGap_append_of_nil hfront, skipGap, List.dropWhile_cons_of_pos hc, skipGap]
      refine ⟨[], t :: ts, front, rfl, .nil front, hfront, .cons ?_ hmore⟩
      rw [next?, ← hskip]
      exact hnext
    · rw [next?, skipGap, List.dropWhile_append, ← skipGap, if_neg (by simpa using hfront)] at hnext
      obtain ⟨mid, rfl, hread, hmid⟩ := lexeme?_before_gap
        (hout.dropWhile fun _ => isBlank_of_isGap) hfront hc hnext
      obtain ⟨us, vs, blanks, rfl, hus, hblanks, hvs⟩ := ih hmid hmore
      exact ⟨t :: us, vs, blanks, rfl, .cons hread hus, hblanks, hvs⟩

theorem skipGap_gap (h : ∀ c ∈ blanks, isGap c = true) : skipGap (blanks ++ cs) = skipGap cs :=
  List.dropWhile_append_of_pos h

/-- Other blanks in the place of some do not change what a text spells. -/
theorem Spells.respaced {blanks' : List Char} (hout : Outside front) (hblanks : IsGap blanks)
    (hblanks' : IsGap blanks') (hbehind : behind ≠ [])
    (h : Spells ts (front ++ (blanks ++ behind)) []) :
    Spells ts (front ++ (blanks' ++ behind)) [] := by
  obtain ⟨hne, hgap⟩ := hblanks
  obtain ⟨hne', hgap'⟩ := hblanks'
  obtain ⟨c, more, rfl⟩ := List.exists_cons_of_ne_nil hne
  obtain ⟨d, more', rfl⟩ := List.exists_cons_of_ne_nil hne'
  obtain ⟨hc, hgap⟩ := List.forall_mem_cons.1 hgap
  rw [List.cons_append] at h
  obtain ⟨us, vs, last, rfl, hus, hlast, hvs⟩ := h.sides hout hc
  have hvs_ne : vs ≠ [] := by
    rintro rfl
    generalize hwhole : more ++ behind = whole at hvs
    cases hvs
    exact hbehind (List.append_eq_nil_iff.1 hwhole).2
  have hquiet : Quiet (d :: more' ++ behind) := quiet_gap (List.forall_mem_cons.1 hgap').1 _
  refine (hus.append_quiet hquiet).append ?_
  rw [← Spells.skipGap_iff hvs_ne, skipGap_append_of_nil hlast, skipGap_gap hgap']
  rwa [← Spells.skipGap_iff hvs_ne, skipGap_gap hgap] at hvs

theorem IsGap.isBlank (h : IsGap blanks) : ∀ c ∈ blanks, isBlank c = true :=
  fun c hc => isBlank_of_isGap (h.2 c hc)

end

end Grammar

namespace Tree

open Grammar

variable {source source' : String} {t : Tree}

theorem parse_of_trim_eq (h : trim source.toList = trim source'.toList) :
    parse source = parse source' := by
  rw [parse, parseUnder, h, parse, parseUnder]

theorem parse_of_respaced (h : Respaced source.toList source'.toList) (hparse : parse source = .ok t) :
    parse source' = .ok t := by
  generalize hcs : source.toList = cs at h
  generalize hds : source'.toList = ds at h
  obtain @⟨front, blanks, blanks', behind, hout, hblanks, hblanks'⟩ := h
  have hagree (h : trim (front ++ (blanks ++ behind)) = trim (front ++ (blanks' ++ behind))) :
      parse source' = .ok t := by
    rw [← hparse]
    exact parse_of_trim_eq (by rw [hcs, hds, h])
  by_cases hfront : dropBlanks front = []
  · have hfront := dropBlanks_eq_nil_iff.1 hfront
    apply hagree
    rw [trim_blank_append hfront, trim_blank_append hblanks.isBlank, trim_blank_append hfront,
      trim_blank_append hblanks'.isBlank]
  by_cases hbehind : dropBlanksEnd behind = []
  · have hbehind := dropBlanksEnd_eq_nil_iff.1 hbehind
    apply hagree
    rw [← List.append_assoc, trim_append_blank _ hbehind, trim_append_blank _ hblanks.isBlank,
      ← List.append_assoc, trim_append_blank _ hbehind, trim_append_blank _ hblanks'.isBlank]
  obtain ⟨ts, rest, hsentence, hspells, hrest⟩ := parse_eq_ok_iff.1 hparse
  obtain rfl := eq_nil_of_suffix_trim hspells.suffix hrest
  refine parse_eq_ok_iff.2 ⟨ts, [], hsentence, ?_, rfl⟩
  rw [hcs, trim_between hfront blanks hbehind] at hspells
  rw [hds, trim_between hfront blanks' hbehind]
  exact hspells.respaced (hout.dropWhile fun _ => id) hblanks hblanks' hbehind

/-- A source is read as the same tree whichever blanks of the grammar, one at least, stand in
a place for them outside quoted texts. -/
theorem parse_respaced (h : Respaced source.toList source'.toList) :
    parse source = .ok t ↔ parse source' = .ok t :=
  ⟨parse_of_respaced h, parse_of_respaced h.symm⟩

/-- A line break inside `not in`, behind a text that holds a quote and two spaces. -/
theorem respaced_notIn :
    Respaced "'it\\'s  so' not in a".toList "'it\\'s  so' not \r\n\tin a".toList ∧
    Tree.parse "'it\\'s  so' not in a" =
      .ok (.compare (.literal (.str "it's  so")) [(.notIn, .ident "a")]) ∧
    Tree.parse "'it\\'s  so' not \r\n\tin a" =
      .ok (.compare (.literal (.str "it's  so")) [(.notIn, .ident "a")]) := by
  have hrespaced : Respaced "'it\\'s  so' not in a".toList "'it\\'s  so' not \r\n\tin a".toList :=
    @Respaced.mk "'it\\'s  so' not".toList [' '] [' ', '\r', '\n', '\t'] "in a".toList (by decide)
      ⟨by simp, by simp [isGap]⟩ ⟨by simp, by simp [isGap]⟩
  have hparse : Tree.parse "'it\\'s  so' not in a" =
      .ok (.compare (.literal (.str "it's  so")) [(.notIn, .ident "a")]) := by cbv
  exact ⟨hrespaced, hparse, (parse_respaced hrespaced).1 hparse⟩

end Tree

end RowFilter
