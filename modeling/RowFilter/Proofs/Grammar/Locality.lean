import RowFilter.Proofs.Grammar.Lexical

/-! Reading does not depend on what follows a blank of the grammar or a closing parenthesis.
Behind such a character no token of the text before it goes on, so a text spells the same
tokens alone and in front of it. -/

namespace RowFilter.Grammar

/-- The text ends here, or with a character that no token before it takes. -/
def Quiet (cs : List Char) : Prop := ∀ c more, cs = c :: more → isGap c = true ∨ c = ')'

/-- Whatever quiet text follows, the characters spell the tokens. -/
def Locally (ts : List Token) (cs : List Char) : Prop :=
  ∀ tail, Quiet tail → Spells ts (cs ++ tail) tail

section

variable {cs rest tail chars : List Char} {t u : Token} {ts us : List Token}

theorem quiet_nil : Quiet [] := nofun

theorem quiet_gap {c : Char} (hc : isGap c = true) (cs : List Char) : Quiet (c :: cs) := by
  rintro _ _ ⟨⟩
  exact .inl hc

theorem quiet_closing (cs : List Char) : Quiet (')' :: cs) := by
  rintro _ _ ⟨⟩
  exact .inr rfl

/-- Other lexemes have no quote and no blank, and one that has a closing parenthesis has
nothing else. -/
theorem Lexeme.plain (h : Lexeme t chars) (ht : ∀ s, t ≠ .text s) {c : Char} (hc : c ∈ chars) :
    c ≠ '"' ∧ c ≠ '\'' ∧ isGap c = false ∧ (c = ')' → chars = [')']) := by
  cases h with
  | text => exact absurd rfl (ht _)
  | @symbol s hs =>
    have hall : (symbols.all fun s => s.toList == [')'] || s.toList.all fun c =>
        c != '"' && c != '\'' && !isGap c && c != ')') = true := by decide
    have hs := List.all_eq_true.1 hall s hs
    simp only [Bool.or_eq_true, beq_iff_eq, List.all_eq_true, Bool.and_eq_true, bne_iff_ne,
      Bool.not_eq_true'] at hs
    rcases hs with hclosing | hother
    · rw [hclosing, List.mem_singleton] at hc
      subst hc
      exact ⟨by decide, by decide, rfl, fun _ => hclosing⟩
    · obtain ⟨⟨⟨hdouble, hsingle⟩, hgap⟩, hclosing⟩ := hother c hc
      exact ⟨hdouble, hsingle, hgap, fun h => absurd h hclosing⟩
  | word hw =>
    obtain ⟨d, more, hchars, hd, hmore⟩ := hw
    have hword : isWordChar c = true := by
      rw [hchars] at hc
      rcases List.mem_cons.1 hc with rfl | hc
      · simp only [isWordStart, Bool.or_eq_true] at hd
        rcases hd with hd | hd <;> simp [isWordChar, Char.isAlphanum, hd]
      · exact hmore c hc
    refine ⟨?_, ?_, isGap_eq_false (isBlank_eq_false_of_isWordChar hword), ?_⟩ <;>
      rintro rfl <;> cases hword
  | number hn =>
    have hgap := isGap_eq_false (isBlank_eq_false_of_written hn c hc)
    rcases hn.mem_chars hc with hdigit | hsign
    · refine ⟨?_, ?_, hgap, ?_⟩ <;> rintro rfl <;> cases hdigit
    · simp only [List.mem_cons, List.not_mem_nil, or_false] at hsign
      rcases hsign with rfl | rfl | rfl | rfl | rfl <;> simp [hgap]

theorem Lexeme.ne_nil (h : Lexeme t chars) : chars ≠ [] := by
  rintro rfl
  have hread := lexeme?_length h.read
  simp at hread

/-- Only a quoted text goes on behind a blank or a closing parenthesis. -/
theorem Lexeme.quoted {front behind : List Char} {c : Char}
    (h : Lexeme t (front ++ c :: behind)) (hne : front ≠ []) (hc : isGap c = true ∨ c = ')') :
    ∃ quote more, front = quote :: more ∧ (quote = '"' ∨ quote = '\'') := by
  obtain ⟨d, front, rfl⟩ := List.exists_cons_of_ne_nil hne
  by_cases htext : ∃ s, t = .text s
  · obtain ⟨s, rfl⟩ := htext
    obtain ⟨quote, more, hmore, hquote⟩ := h.text_head
    cases hmore
    exact ⟨d, front, rfl, hquote⟩
  · have hplain := h.plain (fun s hs => htext ⟨s, hs⟩) (show c ∈ d :: front ++ c :: behind by simp)
    rcases hc with hgap | rfl
    · rw [hplain.2.2.1] at hgap
      cases hgap
    · have hlength := congrArg List.length (hplain.2.2.2 rfl)
      simp at hlength

/-- Quiet text behind a lexeme does not change what is read. -/
theorem lexeme?_append (h : lexeme? cs = some (t, rest)) (htail : Quiet tail) :
    lexeme? (cs ++ tail) = some (t, rest ++ tail) := by
  obtain ⟨chars, rfl, ht, hlongest⟩ := lexeme?_eq_some_iff.1 h
  rw [List.append_assoc]
  by_cases htext : ∃ s, t = .text s
  · obtain ⟨s, rfl⟩ := htext
    exact ht.text_reads _
  refine lexeme?_eq_some_iff.2 ⟨chars, rfl, ht, fun u more hu hmore => ?_⟩
  rw [← List.append_assoc] at hmore
  by_cases hle : more.length ≤ (chars ++ rest).length
  · exact hlongest u more hu (List.prefix_of_prefix_length_le hmore (List.prefix_append _ _) hle)
  -- a longer lexeme takes the first character of the tail, so it would have to be quoted
  exfalso
  obtain ⟨behind, rfl⟩ := List.prefix_of_prefix_length_le (List.prefix_append _ _) hmore (by omega)
  have hne : behind ≠ [] := by
    intro hnil
    simp [hnil] at hle
  obtain ⟨d, behind, rfl⟩ := List.exists_cons_of_ne_nil hne
  obtain ⟨rest', htail'⟩ := (List.prefix_append_right_inj _).1 hmore
  have hfront : chars ++ rest ≠ [] := by simp [ht.ne_nil]
  obtain ⟨quote, inside, hinside, hquote⟩ := hu.quoted hfront (htail d _ htail'.symm)
  obtain ⟨c, chars, rfl⟩ := List.exists_cons_of_ne_nil ht.ne_nil
  cases hinside
  have hfirst := ht.plain (fun s hs => htext ⟨s, hs⟩) (List.mem_cons_self ..)
  rcases hquote with rfl | rfl
  · exact hfirst.1 rfl
  · exact hfirst.2.1 rfl

theorem next?_append (h : next? cs = some (t, rest)) (htail : Quiet tail) :
    next? (cs ++ tail) = some (t, rest ++ tail) := by
  have hne : skipGap cs ≠ [] := by
    intro hnil
    rw [next?, hnil] at h
    cases h
  have hgap : skipGap (cs ++ tail) = skipGap cs ++ tail := by
    rw [skipGap, List.dropWhile_append, ← skipGap, if_neg (by simpa using hne)]
  rw [next?, hgap]
  exact lexeme?_append h htail

/-- What a text spells it spells in front of a quiet one. -/
theorem Spells.append_quiet (h : Spells ts cs rest) (htail : Quiet tail) :
    Spells ts (cs ++ tail) (rest ++ tail) := by
  induction h with
  | nil => exact .nil _
  | cons hnext _ ih => exact .cons (next?_append hnext htail) ih

theorem Spells.locally (h : Spells ts cs []) : Locally ts cs :=
  fun _ htail => h.append_quiet htail

namespace Locally

theorem word {w : String} (hw : IsWord w) : Locally [.word w] w.toList := by
  intro tail htail
  obtain ⟨c, more, hchars, hc, hmore⟩ := hw
  have hread : lexeme? w.toList = some (.word w, []) := (Lexeme.word ⟨c, more, hchars, hc, hmore⟩).read
  exact Spells.single (next?_append (next?_of_lexeme? hread) htail)

/-- A space between two texts separates what they spell. -/
theorem spaced {cs ds : List Char} (h : Locally ts cs) (h' : Locally us ds) (hne : us ≠ []) :
    Locally (ts ++ us) (cs ++ ' ' :: ds) := by
  intro tail htail
  have hgap : skipGap (' ' :: (ds ++ tail)) = skipGap (ds ++ tail) := rfl
  have hbehind : Spells us (' ' :: (ds ++ tail)) tail := by
    rw [← Spells.skipGap_iff hne, hgap]
    exact (Spells.skipGap_iff hne).2 (h' tail htail)
  rw [List.append_assoc, List.cons_append]
  exact (h _ (quiet_gap rfl _)).append hbehind

theorem grouped (h : Locally ts cs) :
    Locally (.symbol "(" :: (ts ++ [.symbol ")"])) ('(' :: (cs ++ [')'])) := by
  intro tail _
  have hopen : next? ('(' :: (cs ++ [')'] ++ tail)) = some (.symbol "(", cs ++ [')'] ++ tail) :=
    next?_of_lexeme? (lexeme?_symbol (show "(" ∈ symbols by decide) rfl)
  have hclose : next? (')' :: tail) = some (.symbol ")", tail) :=
    next?_of_lexeme? (lexeme?_symbol (show ")" ∈ symbols by decide) rfl)
  rw [List.append_assoc] at hopen
  rw [List.cons_append, List.append_assoc]
  exact .cons hopen ((h _ (quiet_closing tail)).append (Spells.single hclose))

end Locally

end

end RowFilter.Grammar
