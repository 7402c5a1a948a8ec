import RowFilter.Proofs.Rendering.Tokens

/-! Reading the pieces of a rendered text. Each token of it ends before what follows, so
the text spells these tokens, with one exception: a point behind a whole numeral is taken
for the point of a fraction. -/

namespace RowFilter

open Grammar

namespace Grammar

variable {t : Token} {cs rest : List Char} {n : Numeral} {w s : String}

def Token.Valid : Token → Prop
  | .word w => IsWord w
  | .number n => n.Written
  | .text _ => True
  | .symbol s => s ∈ symbols

/-- The token does not go on in the text behind it, the point of a numeral apart. -/
def Token.EndsBefore : Token → List Char → Prop
  | .word _, cs => EndsWord cs
  | .number _, cs => EndsWord cs
  | .text _, _ => True
  | .symbol s, cs => joins s cs = false

def StartsPoint (cs : List Char) : Prop := ∃ more, cs = '.' :: more

/-- The token is a whole numeral, and the text behind it starts with a point. -/
def Token.Clipped : Token → List Char → Prop
  | .number n, cs => n.isWhole = true ∧ StartsPoint cs
  | _, _ => False

theorem word?_append (hw : IsWord w) (hcs : EndsWord cs) :
    word? (w.toList ++ cs) = some (w.toList, cs) := by
  obtain ⟨c, more, hchars, hc, hmore⟩ := hw
  have hread : cs.takeWhile isWordChar = [] ∧ cs.dropWhile isWordChar = cs := by
    cases cs with
    | nil => exact ⟨rfl, rfl⟩
    | cons d cs => simp [hcs d cs rfl]
  rw [hchars, List.cons_append, word?, if_pos hc, List.takeWhile_append_of_pos hmore,
    List.dropWhile_append_of_pos hmore, hread.1, hread.2, List.append_nil]

/-- A token that ends before the text behind it is read as it is. -/
theorem lexeme?_chars (ht : t.Valid) (hends : t.EndsBefore cs) (hclip : ¬ t.Clipped cs) :
    lexeme? (t.chars ++ cs) = some (t, cs) := by
  cases t with
  | word w =>
    have hread := word?_eq_some_iff.1 (word?_append ht hends)
    rwa [String.ofList_toList] at hread
  | number n =>
    refine unsigned?_eq_some_iff.1 (Numeral.unsigned?_chars ht hends fun hwhole more hcs => ?_)
    exact hclip ⟨hwhole, more, hcs⟩
  | text s => exact quotedText?_eq_some_iff.1 (quotedText?_quoted s cs)
  | symbol s => exact lexeme?_symbol ht hends

/-- With a point behind it, a whole numeral is read as one with a fraction. -/
theorem lexeme?_clipped (ht : t.Valid) (hclip : t.Clipped cs) :
    ∃ n m mid, t = .number n ∧ n.isWhole = true ∧ m.isWhole = false ∧
      lexeme? (t.chars ++ cs) = some (.number m, mid) := by
  cases t with
  | number n =>
    obtain ⟨hwhole, more, rfl⟩ := hclip
    obtain ⟨negative, whole, fraction, exponent⟩ := n
    obtain ⟨rfl, hdigits, -, hsome, -⟩ := ht
    obtain ⟨rfl, rfl⟩ : fraction = none ∧ exponent = none := by
      simpa [Numeral.isWhole] using hwhole
    have hne : whole ≠ [] := by simpa using hsome
    have hread := Numeral.unsigned?_point hdigits (List.forall_mem_nil _) (.inl hne) more
    rw [List.nil_append, List.nil_append] at hread
    obtain ⟨⟨m, mid⟩, hm⟩ : ∃ found, found = Numeral.withExponent whole
      (some (Numeral.digitsOf more)) (Numeral.behindDigits more) := ⟨_, rfl⟩
    refine ⟨_, m, mid, rfl, hwhole, ?_, ?_⟩
    · unfold Numeral.withExponent at hm
      split at hm <;> cases hm <;> rfl
    · rw [← unsigned?_eq_some_iff, hm, ← hread]
      simp [Token.chars, Numeral.chars]
  | _ => exact hclip.elim

end Grammar

/-- The property holds of each token and the text behind it. -/
def Along (p : Token → List Char → Prop) : List Piece → List Char → Prop
  | [], _ => True
  | .space :: ps, rest => Along p ps rest
  | .token t :: ps, rest => p t (layout ps ++ rest) ∧ Along p ps rest

/-- Every token ends before the text behind it. -/
def Separated : List Piece → List Char → Prop := Along fun t cs => t.Valid ∧ t.EndsBefore cs

def Unclipped : List Piece → List Char → Prop := Along fun t cs => ¬ t.Clipped cs

/-- The last piece is a token. -/
def Inked (ps : List Piece) : Prop := ∃ front t, ps = front ++ [.token t]

section

variable {p : Token → List Char → Prop} {ps qs : List Piece} {rest : List Char}

theorem along_append : Along p (ps ++ qs) rest ↔ Along p ps (layout qs ++ rest) ∧ Along p qs rest := by
  induction ps with
  | nil => simp [Along]
  | cons piece ps ih => cases piece <;> simp [Along, ih, and_assoc]

theorem Inked.append (h : Inked qs) : Inked (ps ++ qs) := by
  obtain ⟨front, t, rfl⟩ := h
  exact ⟨ps ++ front, t, by simp⟩

theorem Inked.tail {piece : Piece} (h : Inked (piece :: ps)) : ps = [] ∨ Inked ps := by
  obtain ⟨front, t, h⟩ := h
  cases front with
  | nil => exact .inl (List.cons.inj h).2
  | cons q front => exact .inr ⟨front, t, (List.cons.inj h).2⟩

theorem Inked.tail_of_space (h : Inked (.space :: ps)) : Inked ps := by
  rcases h.tail with rfl | h'
  · obtain ⟨front, t, h⟩ := h
    cases front <;> simp at h
  · exact h'

theorem Inked.tokensOf_ne_nil (h : Inked ps) : tokensOf ps ≠ [] := by
  obtain ⟨front, t, rfl⟩ := h
  simp

theorem spells_space {ts : List Token} {cs : List Char} (hne : ts ≠ []) (h : Spells ts cs rest) :
    Spells ts (' ' :: cs) rest := by
  have hgap : skipGap (' ' :: cs) = skipGap cs := rfl
  rw [← Spells.skipGap_iff hne, hgap]
  exact (Spells.skipGap_iff hne).2 h

/-- Pieces that are separated and unclipped spell their tokens. -/
theorem spells_tokensOf (hps : ps = [] ∨ Inked ps) (hsep : Separated ps rest)
    (hclip : Unclipped ps rest) : Spells (tokensOf ps) (layout ps ++ rest) rest := by
  induction ps with
  | nil => exact .nil rest
  | cons piece ps ih =>
    have hinked : Inked (piece :: ps) := hps.resolve_left (by simp)
    cases piece with
    | space =>
      have htail := hinked.tail_of_space
      exact spells_space htail.tokensOf_ne_nil (ih (.inr htail) hsep hclip)
    | token t =>
      obtain ⟨⟨hvalid, hends⟩, hsep⟩ := hsep
      obtain ⟨hclip, hrest⟩ := hclip
      rw [layout_cons, List.append_assoc]
      exact .cons (next?_of_lexeme? (lexeme?_chars hvalid hends hclip)) (ih hinked.tail hsep hrest)

/-- At the first clipped numeral another one is read. -/
theorem spells_of_clipped (hps : ps = [] ∨ Inked ps) (hsep : Separated ps rest)
    (hclip : ¬ Unclipped ps rest) : ∃ front n m mid more,
      tokensOf ps = front ++ .number n :: more ∧ n.isWhole = true ∧ m.isWhole = false ∧
      Spells (front ++ [.number m]) (layout ps ++ rest) mid := by
  induction ps with
  | nil => exact absurd trivial hclip
  | cons piece ps ih =>
    have hinked : Inked (piece :: ps) := hps.resolve_left (by simp)
    cases piece with
    | space =>
      obtain ⟨front, n, m, mid, more, htokens, hn, hm, hspells⟩ :=
        ih (.inr hinked.tail_of_space) hsep hclip
      exact ⟨front, n, m, mid, more, htokens, hn, hm, spells_space (by simp) hspells⟩
    | token t =>
      obtain ⟨⟨hvalid, hends⟩, hsep⟩ := hsep
      rw [layout_cons, List.append_assoc]
      by_cases hhere : t.Clipped (layout ps ++ rest)
      · obtain ⟨n, m, mid, rfl, hn, hm, hread⟩ := lexeme?_clipped hvalid hhere
        exact ⟨[], n, m, mid, tokensOf ps, rfl, hn, hm, .single (next?_of_lexeme? hread)⟩
      · obtain ⟨front, n, m, mid, more, htokens, hn, hm, hspells⟩ :=
          ih hinked.tail hsep fun hmore => hclip ⟨hhere, hmore⟩
        refine ⟨t :: front, n, m, mid, more, ?_, hn, hm, ?_⟩
        · simp [htokens]
        · exact .cons (next?_of_lexeme? (lexeme?_chars hvalid hends hhere)) hspells

end

end RowFilter
