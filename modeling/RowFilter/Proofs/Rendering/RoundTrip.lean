import Mathlib
import RowFilter.Proofs.Grammar.Lexical
import RowFilter.Proofs.Rendering.Clipping
import RowFilter.Proofs.Rendering.Legibility
import RowFilter.Proofs.Rendering.Necessity

/-! Reading a rendered text again. The rendered text of a tree that was read from a source
is read as the same tree if and only if the tree is faithful. Otherwise the base of an
attribute or a call is regrouped, a point goes to the numeral before it, or the parentheses
that the rendering adds pass the limit of nesting. -/

namespace RowFilter

open Text Grammar

namespace Grammar

/-- A whole sentence is one level deep. -/
theorem sentence_iff {t : Tree} {ts : List Token} :
    Sentence t ts ↔ Disjunction (phrases (maxNesting - 1)) t ts := Iff.rfl

/-- No token ends with a blank. -/
theorem Token.Valid.last {t : Token} (ht : t.Valid) :
    ∃ front c, t.chars = front ++ [c] ∧ isBlank c = false := by
  cases t with
  | word w => exact (Lexeme.word ht).last
  | number n => exact (Lexeme.number ht).last
  | text s => exact ⟨'"' :: s.toList.flatMap escaped, '"', by simp [Token.chars, quoted], rfl⟩
  | symbol s => exact (Lexeme.symbol ht).last

end Grammar

namespace Tree

variable {t u : Tree}

/-- The rendered text neither starts nor ends with a blank. -/
theorem trim_render (ht : t.WellFormed) : trim t.render.toList = t.render.toList := by
  have hlegible := legible_pieces ht
  rw [← layout_pieces ht]
  obtain ⟨c, more, hchars, -, -, hc⟩ := hlegible.leads
  refine (trim_eq_self_iff (by simp [hchars])).2 ⟨⟨c, more, hchars, hc⟩, ?_⟩
  obtain ⟨front, s, hpieces⟩ := hlegible.inked
  have hseparated := hlegible.separated [] (by simp [EndsWord])
  rw [hpieces] at hseparated ⊢
  obtain ⟨-, ⟨hvalid, -⟩, -⟩ := along_append.1 hseparated
  obtain ⟨before, c, hchars, hc⟩ := hvalid.last
  refine ⟨layout front ++ before, c, ?_, hc⟩
  rw [layout_append, List.append_assoc, ← hchars]
  simp [Piece.chars]

theorem spells_render (ht : t.WellFormed) (hclear : Clear t.pieces) :
    Spells t.tokens (trim t.render.toList) [] := by
  have hlegible := legible_pieces ht
  have hspells := spells_tokensOf (.inr hlegible.inked)
    (hlegible.separated [] (by simp [EndsWord])) hclear
  rwa [trim_render ht, ← layout_pieces ht, ← List.append_nil (layout t.pieces)]

/-- A faithful tree is read from its rendered text. -/
theorem parse_render (ht : t.WellFormed) (h : t.Faithful) : Tree.parse t.render = .ok t := by
  have hsentence : Sentence t t.tokens :=
    sentence_iff.2 (sentential ht h.tight _ (Nat.le_sub_one_of_lt h.shallow)).1
  have hclear := (clear_pieces ht h.tight).2 h.apart
  exact Tree.parse_eq_ok_iff.2 ⟨t.tokens, [], hsentence, spells_render ht hclear, rfl⟩

/-- Where a numeral is clipped, the tokens read tell of another tree. -/
theorem clear_of_spells {ts : List Token} {rest : List Char} (ht : t.WellFormed)
    (hfeatures : Grammar.features ts = t.features) (hspells : Spells ts (trim t.render.toList) rest)
    (hrest : next? rest = none) : Clear t.pieces := by
  refine Classical.byContradiction fun hclear => ?_
  have hlegible := legible_pieces ht
  obtain ⟨front, n, m, mid, more, htokens, hn, hm, hclipped⟩ := spells_of_clipped
    (.inr hlegible.inked) (hlegible.separated [] (by simp [EndsWord])) hclear
  rw [List.append_nil, layout_pieces ht, ← trim_render ht] at hclipped
  obtain ⟨vs, rfl, -⟩ := hclipped.goes_on hspells hrest
  have hprinted : Grammar.features t.tokens = t.features :=
    compositional_features.tokens ht
  rw [Tree.tokens, htokens, ← hfeatures] at hprinted
  simp only [features_append, features_cons, List.append_assoc, List.append_cancel_left_eq,
    Token.features, hn, hm] at hprinted
  cases hprinted

/-- A tree that is read from its rendered text, up to the signs of zeros, is faithful. -/
theorem faithful_of_parse_render (ht : t.WellFormed) (h : Tree.parse t.render = .ok u)
    (hu : u.Alike t) : t.Faithful := by
  obtain ⟨ts, rest, hsentence, hspells, hblank⟩ := Tree.parse_eq_ok_iff.1 h
  have hrest := next?_eq_none_of_blank hblank
  have hfeatures : Grammar.features ts = t.features := by
    rw [← hu.features]
    exact (compositional_features.sentences maxNesting).1 u ts hsentence
  have hclear := clear_of_spells ht hfeatures hspells hrest
  obtain ⟨rfl, -⟩ := hspells.unique (spells_render ht hclear) hrest rfl
  obtain ⟨htight, hcost⟩ := fitsAsRead ht _ u hu (sentence_iff.1 hsentence)
  exact ⟨htight, (clear_pieces ht htight).1 hclear, Nat.lt_of_le_pred (by decide) hcost⟩

/-- The rendered text of a tree that was read is read as the same tree again if and only if
the tree is faithful. -/
theorem parse_render_iff {source : String} (h : Tree.parse source = .ok t) :
    (∃ u, Tree.parse t.render = .ok u ∧ u.same t = true) ↔ t.Faithful := by
  have ht := wellFormed_of_parse h
  constructor
  · intro hagain
    obtain ⟨u, hparse, hu⟩ := hagain
    exact faithful_of_parse_render ht hparse hu
  · intro hfaithful
    exact ⟨t, parse_render ht hfaithful, alike_self ht⟩

theorem faithful_call :
    Tree.parse "f(x, k=y)" =
      .ok (.call (.ident "f") [(.positional, .ident "x"), (.keyword "k", .ident "y")]) ∧
    Faithful (.call (.ident "f") [(.positional, .ident "x"), (.keyword "k", .ident "y")]) := by
  have hparse : Tree.parse "f(x, k=y)" =
      .ok (.call (.ident "f") [(.positional, .ident "x"), (.keyword "k", .ident "y")]) := by cbv
  have hrender : render
      (.call (.ident "f") [(.positional, .ident "x"), (.keyword "k", .ident "y")]) =
        "f(x, k=y)" := by rfl
  refine ⟨hparse, (parse_render_iff hparse).1 ⟨_, ?_, alike_self (wellFormed_of_parse hparse)⟩⟩
  rw [hrender, hparse]

/-- The rendered text has no parentheses around the base of an attribute, so the attribute
is read as one of the last operand. -/
theorem chain_base_is_regrouped :
    Tree.parse "(a and b).x" = .ok (.attr (.chain .and [.ident "a", .ident "b"]) "x") ∧
    render (.attr (.chain .and [.ident "a", .ident "b"]) "x") = "a and b.x" ∧
    ¬ ∃ u, Tree.parse "a and b.x" = .ok u ∧
      u.same (.attr (.chain .and [.ident "a", .ident "b"]) "x") = true := by
  refine ⟨by cbv, by cbv, ?_⟩
  intro h
  obtain ⟨u, hparse, hsame⟩ := h
  have hread : Tree.parse "a and b.x" =
      .ok (.chain .and [.ident "a", .attr (.ident "b") "x"]) := by cbv
  cases hread.symm.trans hparse
  cases hsame

end Tree

end RowFilter
