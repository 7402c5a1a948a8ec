import RowFilter.Proofs.Rendering.Lexing

/-! The pieces of a well formed tree are separated: spaces, commas and brackets stand where
two tokens would otherwise run together. -/

namespace RowFilter

open Text Grammar

/-- The pieces end with a token, and every token ends before what follows it. -/
structure Readable (ps : List Piece) : Prop where
  inked : Inked ps
  separated : ∀ rest, EndsWord rest → Separated ps rest

/-- The text starts like an expression, neither with a blank nor so that it would lengthen
the sign before it. -/
def Leads (cs : List Char) : Prop :=
  ∃ c more, cs = c :: more ∧ c ≠ '=' ∧ c ≠ '*' ∧ isBlank c = false

structure Legible (ps : List Piece) : Prop extends Readable ps where
  leads : Leads (layout ps)

/-- The pieces may follow others. -/
structure Trailing (ps : List Piece) : Prop where
  inked : ps = [] ∨ Inked ps
  ends : ∀ rest, EndsWord rest → EndsWord (layout ps ++ rest)
  separated : ∀ rest, EndsWord rest → Separated ps rest

section

variable {ps qs : List Piece} {rest : List Char} {c : Char} {t : Token} {s w : String}

theorem endsWord_cons (h : isWordChar c = false) : EndsWord (c :: rest) := by
  rintro _ _ ⟨⟩
  exact h

theorem Leads.append {cs : List Char} (h : Leads cs) : Leads (cs ++ rest) := by
  obtain ⟨c, more, rfl, hc⟩ := h
  exact ⟨c, more ++ rest, rfl, hc⟩

theorem Trailing.nil : Trailing [] := ⟨.inl rfl, fun _ h => h, fun _ _ => trivial⟩

theorem Trailing.append (hps : Trailing ps) (hqs : Trailing qs) : Trailing (ps ++ qs) where
  inked := by
    rcases hqs.inked with rfl | h
    · rw [List.append_nil]
      exact hps.inked
    · exact .inr h.append
  ends rest h := by
    rw [layout_append, List.append_assoc]
    exact hps.ends _ (hqs.ends rest h)
  separated rest h := along_append.2 ⟨hps.separated _ (hqs.ends rest h), hqs.separated rest h⟩

theorem Readable.append (hps : Readable ps) (hqs : Trailing qs) : Readable (ps ++ qs) where
  inked := by
    rcases hqs.inked with rfl | h
    · rw [List.append_nil]
      exact hps.inked
    · exact h.append
  separated rest h := along_append.2 ⟨hps.separated _ (hqs.ends rest h), hqs.separated rest h⟩

theorem Legible.append (hps : Legible ps) (hqs : Trailing qs) : Legible (ps ++ qs) where
  toReadable := hps.toReadable.append hqs
  leads := by
    rw [layout_append]
    exact hps.leads.append

theorem trailing_flatMap {α : Type} {xs : List α} {f : α → List Piece}
    (h : ∀ x ∈ xs, Trailing (f x)) : Trailing (xs.flatMap f) := by
  induction xs with
  | nil => exact .nil
  | cons x xs ih =>
    obtain ⟨hx, hxs⟩ := List.forall_mem_cons.1 h
    exact hx.append (ih hxs)

/-- A symbol before separated pieces. -/
theorem separated_symbol (hs : s ∈ symbols) (hj : joins s (layout ps ++ rest) = false)
    (h : Separated ps rest) : Separated (.token (.symbol s) :: ps) rest := ⟨⟨hs, hj⟩, h⟩

theorem separated_word (hw : IsWord w) (hends : EndsWord (layout ps ++ rest))
    (h : Separated ps rest) : Separated (.token (.word w) :: ps) rest := ⟨⟨hw, hends⟩, h⟩

theorem Inked.cons (h : Inked ps) {p : Piece} : Inked (p :: ps) := by
  obtain ⟨front, t, rfl⟩ := h
  exact ⟨p :: front, t, rfl⟩

theorem inked_single : Inked [.token t] := ⟨[], t, rfl⟩

/-- A closing bracket may follow anything. -/
theorem trailing_closing (hs : s ∈ [")", "]"]) : Trailing [.token (.symbol s)] where
  inked := .inr inked_single
  ends rest _ := by
    simp only [List.mem_cons, List.not_mem_nil, or_false] at hs
    rcases hs with rfl | rfl <;> exact endsWord_cons rfl
  separated rest _ := by
    simp only [List.mem_cons, List.not_mem_nil, or_false] at hs
    rcases hs with rfl | rfl
    · exact separated_symbol (by decide) rfl trivial
    · exact separated_symbol (by decide) rfl trivial

theorem trailing_comma (h : Trailing ps) : Trailing (.token (.symbol ",") :: ps) where
  inked := by
    rcases h.inked with rfl | h
    · exact .inr inked_single
    · exact .inr h.cons
  ends _ _ := endsWord_cons rfl
  separated rest hrest := separated_symbol (by decide) rfl (h.separated rest hrest)

theorem trailing_commaIf (comma : Bool) (h : Trailing ps) :
    Trailing ((commaIf comma).map .token ++ ps) := by
  cases comma with
  | false => exact h
  | true => exact trailing_comma h

/-- Pieces behind a space may follow anything. -/
theorem trailing_space (h : Readable ps) : Trailing (.space :: ps) where
  inked := .inr h.inked.cons
  ends _ _ := endsWord_cons rfl
  separated := h.separated

theorem trailing_commaSpace (h : Readable ps) : Trailing (Tree.commaSpace ++ ps) :=
  trailing_comma (trailing_space h)

/-- What stands in brackets: nothing or readable pieces, and what closes them. -/
theorem readable_content (hps : ps = [] ∨ Readable ps) (hqs : Trailing qs) (hinked : Inked qs) :
    Readable (ps ++ qs) := by
  rcases hps with rfl | hps
  · exact ⟨hinked, hqs.separated⟩
  · exact hps.append hqs

theorem legible_opening (hs : s ∈ ["(", "["]) (h : Readable ps) :
    Legible (.token (.symbol s) :: ps) where
  inked := h.inked.cons
  separated rest hrest := by
    simp only [List.mem_cons, List.not_mem_nil, or_false] at hs
    rcases hs with rfl | rfl <;>
      exact separated_symbol (by decide) rfl (h.separated rest hrest)
  leads := by
    simp only [List.mem_cons, List.not_mem_nil, or_false] at hs
    rcases hs with rfl | rfl <;> exact ⟨_, _, rfl, by decide, by decide, rfl⟩

theorem trailing_opening (h : Readable ps) : Trailing (.token (.symbol "(") :: ps) where
  inked := .inr h.inked.cons
  ends _ _ := endsWord_cons rfl
  separated := (legible_opening (by decide) h).separated

/-- Readable pieces with separators that may follow each of them. -/
theorem readable_joined {separator : List Piece} {xs : List (List Piece)} (hne : xs ≠ [])
    (h : ∀ x ∈ xs, Readable x) (hsep : ∀ x, Readable x → Trailing (separator ++ x)) :
    Readable (joined separator xs) := by
  obtain ⟨x, xs, rfl⟩ := List.exists_cons_of_ne_nil hne
  obtain ⟨hx, hxs⟩ := List.forall_mem_cons.1 h
  exact hx.append (trailing_flatMap fun y hy => hsep y (hxs y hy))

theorem Legible.joined {separator : List Piece} {xs : List (List Piece)} (hne : xs ≠ [])
    (h : ∀ x ∈ xs, Legible x) (hsep : ∀ x, Readable x → Trailing (separator ++ x)) :
    Legible (joined separator xs) := by
  obtain ⟨x, xs, rfl⟩ := List.exists_cons_of_ne_nil hne
  obtain ⟨hx, hxs⟩ := List.forall_mem_cons.1 h
  exact hx.append (trailing_flatMap fun y hy => hsep y (hxs y hy).toReadable)

theorem leads_of_isWord {cs : List Char} (hw : IsWord w) : Leads (w.toList ++ cs) := by
  obtain ⟨c, more, hchars, hc, -⟩ := hw
  refine ⟨c, more ++ cs, by rw [hchars]; rfl, ?_, ?_, isBlank_eq_false_of_isWordStart hc⟩
  · rintro rfl
    cases hc
  · rintro rfl
    cases hc

theorem leads_of_written {n : Numeral} {cs : List Char} (hn : n.Written) :
    Leads (n.chars ++ cs) := by
  obtain ⟨c, more, hchars, hc⟩ := hn.head
  refine ⟨c, more ++ cs, by rw [hchars]; rfl, ?_, ?_, ?_⟩
  · rintro rfl
    rcases hc with hc | hc <;> cases hc
  · rintro rfl
    rcases hc with hc | hc <;> cases hc
  · rcases hc with hc | rfl
    · exact isBlank_eq_false_of_isDigit hc
    · rfl

theorem legible_word (hw : IsWord w) : Legible [.token (.word w)] where
  inked := inked_single
  separated _ hrest := separated_word hw hrest trivial
  leads := leads_of_isWord hw

theorem Grammar.LiteralPhrase.legible {l : Literal} {ts : List Token} (h : LiteralPhrase l ts) :
    Legible (ts.map .token) := by
  cases h with
  | true => exact legible_word (isWord_of_all rfl rfl rfl)
  | false => exact legible_word (isWord_of_all rfl rfl rfl)
  | none => exact legible_word (isWord_of_all rfl rfl rfl)
  | number hn =>
    exact ⟨⟨inked_single, fun _ hrest => ⟨⟨hn, hrest⟩, trivial⟩⟩, leads_of_written hn⟩
  | negative hn =>
    exact ⟨⟨inked_single.cons, fun _ hrest =>
      separated_symbol (by decide) rfl ⟨⟨hn, hrest⟩, trivial⟩⟩,
      '-', _, rfl, by decide, by decide, rfl⟩
  | text s =>
    have hleads : Leads (layout [.token (.text s)]) := by
      refine ⟨'"', s.toList.flatMap escaped ++ ['"'], ?_, by decide, by decide, rfl⟩
      simp [layout, Piece.chars, Token.chars, quoted]
    exact ⟨⟨inked_single, fun _ _ => ⟨⟨trivial, trivial⟩, trivial⟩⟩, hleads⟩

theorem separated_relation (r : Relation) : Separated r.pieces (' ' :: rest) := by
  have hnot : IsWord "not" := isWord_of_all rfl rfl rfl
  have hin : IsWord "in" := isWord_of_all rfl rfl rfl
  have his : IsWord "is" := isWord_of_all rfl rfl rfl
  have hends {cs : List Char} : EndsWord (' ' :: cs) := endsWord_cons rfl
  cases r with
  | isIn => exact separated_word hin hends trivial
  | is => exact separated_word his hends trivial
  | notIn => exact separated_word hnot hends (separated_word hin hends trivial)
  | isNot => exact separated_word his hends (separated_word hnot hends trivial)
  | _ => exact separated_symbol (by decide) rfl trivial

theorem separated_connective (c : Connective) :
    Separated [.token (connectiveToken c)] (' ' :: rest) := by
  cases c with
  | and => exact separated_word (isWord_of_all rfl rfl rfl) (endsWord_cons rfl) trivial
  | or => exact separated_word (isWord_of_all rfl rfl rfl) (endsWord_cons rfl) trivial

theorem trailing_spaced (hps : ∀ rest, Separated ps (' ' :: rest)) (hqs : Readable qs) :
    Trailing (Tree.spaced ps ++ qs) where
  inked := .inr hqs.inked.append
  ends _ _ := endsWord_cons rfl
  separated rest hrest := by
    have hall : Separated (ps ++ (.space :: qs)) rest :=
      along_append.2 ⟨hps _, hqs.separated rest hrest⟩
    simpa [Tree.spaced, Separated, Along] using hall

theorem trailing_attr {name : String} (h : IsWord name) :
    Trailing [.token (.symbol "."), .token (.word name)] where
  inked := .inr inked_single.cons
  ends _ _ := endsWord_cons rfl
  separated rest hrest := by
    refine separated_symbol (by decide) ?_ (separated_word h hrest trivial)
    obtain ⟨c, more, hchars, hc, -⟩ := h
    rw [layout_cons, chars_word, hchars]
    change c.isDigit = false
    rw [← Bool.not_eq_true]
    intro hdigit
    simp [isWordStart_eq_false_of_isDigit hdigit] at hc

/-- Neither sign before the value of an argument is lengthened by it. -/
theorem readable_argument {p : Passing} (hp : ∀ name, p = .keyword name → IsName name)
    (h : Legible ps) : Readable (p.tokens.map .token ++ ps) where
  inked := h.inked.append
  separated rest hrest := by
    obtain ⟨c, more, hchars, heq, hstar, -⟩ := h.leads
    have hps := h.separated rest hrest
    cases p with
    | positional => exact hps
    | keyword name =>
      refine separated_word (hp name rfl).word (endsWord_cons rfl) (separated_symbol (by decide) ?_ hps)
      change joins "=" (layout ps ++ rest) = false
      rw [hchars]
      simpa [joins] using Ne.symm heq
    | starred =>
      refine separated_symbol (by decide) ?_ hps
      change joins "*" (layout ps ++ rest) = false
      rw [hchars]
      simpa [joins] using Ne.symm hstar
    | doubleStarred => exact separated_symbol (by decide) rfl hps

theorem legible_grouped (loose : Bool) (h : Legible ps) : Legible (Tree.grouped loose ps) := by
  cases loose with
  | false => exact h
  | true =>
    exact legible_opening (by decide) (h.toReadable.append (trailing_closing (by decide)))

end

namespace Tree

/-- The pieces of a well formed tree are separated. -/
theorem legible_pieces {t : Tree} (ht : t.WellFormed) : Legible t.pieces := by
  induction t using Tree.induct with
  | node t ih =>
    obtain ⟨hnode, hchildren⟩ := wellFormed_iff.1 ht
    have ih (u : Tree) (hu : u ∈ t.children) : Legible u.pieces := ih u hu (hchildren u hu)
    have ihOperand (u : Tree) (hu : u ∈ t.children) : Legible u.piecesInOperand :=
      legible_grouped _ (ih u hu)
    have hitems {α : Type} {xs : List α} {f : α → List Piece} (h : ∀ x ∈ xs, Readable (f x)) :
        joined commaSpace (xs.map f) = [] ∨ Readable (joined commaSpace (xs.map f)) := by
      by_cases hne : xs = []
      · exact .inl (by rw [hne]; rfl)
      · exact .inr (readable_joined (by simpa using hne) (List.forall_mem_map.2 h)
          fun _ => trailing_commaSpace)
    cases t with
    | chain c operands =>
      have hne : operands ≠ [] := by
        rintro rfl
        exact absurd hnode (by simp [NodeWellFormed])
      rw [pieces, operandPieces_eq_map]
      exact .joined (by simpa using hne) (List.forall_mem_map.2 ihOperand)
        fun _ => trailing_spaced fun _ => separated_connective c
    | not operand =>
      have hoperand := ihOperand operand (by simp [children])
      exact (legible_word (isWord_of_all rfl rfl rfl)).append (trailing_space hoperand.toReadable)
    | compare left steps =>
      rw [pieces, stepPieces_eq_flatMap]
      refine (ihOperand left (by simp [children])).append (trailing_flatMap fun s hs => ?_)
      have hoperand := ihOperand s.2 (mem_children_of_step hs)
      exact trailing_spaced (fun _ => separated_relation s.1) hoperand.toReadable
    | ident name => exact legible_word hnode.word
    | literal l => exact (Literal.phrase_tokens hnode).legible
    | list items =>
      rw [pieces, itemPieces_eq_map]
      exact legible_opening (by decide) (readable_content (hitems fun u hu => (ih u hu).toReadable)
        (trailing_closing (by decide)) inked_single)
    | tuple items =>
      rw [pieces, itemPieces_eq_map]
      exact legible_opening (by decide) (readable_content (hitems fun u hu => (ih u hu).toReadable)
        (trailing_commaIf _ (trailing_closing (by decide))) inked_single.append)
    | attr base name => exact (ih base (by simp [children])).append (trailing_attr hnode.word)
    | call callee args =>
      have hargs : ∀ a ∈ args, Readable (a.1.tokens.map .token ++ a.2.pieces) := by
        rintro ⟨p, u⟩ ha
        refine readable_argument ?_ (ih u (mem_children_of_arg ha))
        rintro name rfl
        exact hnode name u ha
      rw [pieces, argPieces_eq_map]
      exact (ih callee (by simp [children])).append (trailing_opening
        (readable_content (hitems hargs) (trailing_closing (by decide)) inked_single))

end Tree

end RowFilter
