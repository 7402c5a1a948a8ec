import Mathlib
import RowFilter.Proofs.Grammar.Lexical
import RowFilter.Proofs.Grammar.Orderly
import RowFilter.Proofs.Grammar.Sentence

/-! Where parsing fails. Every fault is placed at the start of a rest of the trimmed text.
Trailing input is placed at a character that is no blank, and the text before it is accepted:
no token read before the place looks beyond it, so cutting the text there changes nothing. -/

namespace RowFilter

open Text

namespace Grammar

variable {cs rest tail : List Char} {t : Token} {ts : List Token}

/-- A token is read as before when the text is cut somewhere behind it. -/
theorem lexeme?_cut (h : lexeme? (cs ++ tail) = some (t, rest ++ tail)) :
    lexeme? cs = some (t, rest) := by
  obtain ⟨chars, hchars, ht, hlongest⟩ := lexeme?_eq_some_iff.1 h
  rw [← List.append_assoc] at hchars
  refine lexeme?_eq_some_iff.2 ⟨chars, List.append_cancel_right hchars, ht, fun u more hu hmore => ?_⟩
  refine hlongest u more hu ?_
  rw [← List.append_assoc]
  exact hmore.trans (List.prefix_append _ _)

theorem next?_cut (h : next? (cs ++ tail) = some (t, rest ++ tail)) :
    next? cs = some (t, rest) := by
  rw [next?, skipGap, List.dropWhile_append] at h
  split at h
  · -- the gap would reach into the part that is cut off, and the token would stand in it
    have hlength := lexeme?_length h
    have htail := (List.dropWhile_suffix (l := tail) isGap).length_le
    rw [List.length_append] at hlength
    omega
  · exact lexeme?_cut h

/-- What a text spells up to a rest it spells when the rest is cut off. -/
theorem Spells.cut (h : Spells ts (cs ++ tail) tail) : Spells ts cs [] := by
  generalize htext : cs ++ tail = text at h
  induction h generalizing cs with
  | nil =>
    rw [List.append_left_eq_self.1 htext]
    exact .nil []
  | @cons text mid tail t ts hnext hmore ih =>
    obtain ⟨rest, rfl⟩ := hmore.suffix
    subst htext
    exact .cons (next?_cut hnext) (ih rfl)

/-- A text does not end with a blank if it spells its tokens to the end. -/
theorem Spells.last (h : Spells ts cs []) (hne : ts ≠ []) :
    ∃ front c, cs = front ++ [c] ∧ isBlank c = false := by
  induction written_iff_spells.2 h with
  | nil => exact absurd rfl hne
  | @cons t ts blanks chars rest _ ht _ hrest ih =>
    by_cases hts : ts = []
    · subst hts
      cases hrest
      obtain ⟨front, c, rfl, hc⟩ := ht.last
      exact ⟨blanks ++ front, c, by simp, hc⟩
    · obtain ⟨front, c, rfl, hc⟩ := ih (written_iff_spells.1 hrest) hts
      exact ⟨blanks ++ chars ++ front, c, by simp, hc⟩

end Grammar

open Grammar

theorem Fault.text_inj {f g : Fault} : f.text = g.text ↔ f = g := by
  cases f <;> cases g <;> simp [Fault.text]

namespace Tree

variable {source : String} {t : Tree} {ts : List Token} {front rest : List Char}

/-- The text before the first character that is no blank behind a sentence is accepted. -/
theorem parse_front (hsentence : Sentence t ts) (hspells : Spells ts (trim source.toList) rest)
    (hfront : trim source.toList = front ++ dropBlanks rest) :
    parse (String.ofList front) = .ok t := by
  obtain ⟨cut, hcut⟩ := hspells.suffix
  have hrest : rest.takeWhile isBlank ++ dropBlanks rest = rest := List.takeWhile_append_dropWhile
  have htext : front ++ dropBlanks rest = cut ++ rest.takeWhile isBlank ++ dropBlanks rest := by
    rw [← hfront, List.append_assoc, hrest, hcut]
  have hsplit : front = cut ++ rest.takeWhile isBlank := List.append_cancel_right htext
  rw [← hcut] at hspells
  have hspelled : Spells ts cut [] := hspells.cut
  obtain ⟨inside, d, hlast, hd⟩ := hspelled.last (phrases_item_starts hsentence).ne_nil
  have hunpadded : Unpadded cut := by
    obtain ⟨c, more, hfirst⟩ : ∃ c more, cut = c :: more := by
      cases inside <;> exact ⟨_, _, hlast⟩
    rw [hfirst, List.cons_append] at hcut
    exact ⟨⟨c, more, hfirst, isBlank_of_trim_cons hcut.symm⟩, inside, d, hlast, hd⟩
  refine parse_eq_ok_iff.2 ⟨ts, [], hsentence, ?_, rfl⟩
  rw [String.toList_ofList, hsplit, trim_append_blanks hunpadded
    fun c hc => List.all_eq_true.1 List.all_takeWhile c hc]
  exact hspelled

/-- The text splits at the place of a fault, and the fault says what is there. -/
theorem parse_eq_error {e : ParseError} (h : parse source = .error e) :
    ∃ front rest, trim source.toList = front ++ rest ∧ e.place = .after front ∧
      (e.fault = .empty ↔ trim source.toList = []) ∧ (e.fault = .invalid → front = []) ∧
      (e.fault = .trailing → (∃ c more, rest = c :: more ∧ isBlank c = false) ∧
        ∃ t, parse (String.ofList front) = .ok t) := by
  rw [parse, parseUnder] at h
  split at h
  · rename_i htrim
    cases h
    exact ⟨[], [], htrim, rfl, by simp [htrim], by simp, by simp⟩
  · rename_i hne
    unfold ofReply at h
    split at h
    · rename_i tree rest n hread
      split at h
      · cases h
      · rename_i hextra
        cases h
        obtain ⟨u, us, hsentence, hspells⟩ :=
          (inner_sound .enforced maxNesting).item _ _ _ ⟨_, _, hread⟩
        obtain ⟨front, hfront⟩ := (dropBlanks_suffix rest).trans hspells.suffix
        obtain ⟨c, more, hrest⟩ := List.exists_cons_of_ne_nil hextra
        refine ⟨front, dropBlanks rest, hfront.symm, ?_, by simpa using hne, by simp, fun _ =>
          ⟨⟨c, more, hrest, isBlank_of_dropBlanks_cons hrest⟩,
            tree, parse_front hsentence hspells hfront.symm⟩⟩
        rw [← hfront, placeOf_append]
    · cases h
      exact ⟨[], trim source.toList, rfl, rfl, by simpa using hne, fun _ => rfl, by simp⟩
    · rename_i n hhalted
      cases h
      -- the place that is kept, or none, is a rest of the text
      have hpast : n.past.getD [] <:+ trim source.toList := by
        have hcarried := (inner_orderly .enforced maxNesting).1.carried_eq hhalted
        rcases hcarried.2 with hkept | ⟨-, place, hplace, hnew⟩
        · simp [show n.past = none from hkept]
        · simpa [show n.past = some place from hnew] using hplace
      obtain ⟨front, hfront⟩ := hpast
      refine ⟨front, _, hfront.symm, ?_, by simpa using hne, by simp, by simp⟩
      rw [← hfront, placeOf_append]

/-- The fault stands in the text between `front` and `rest`. -/
structure Placed (text : List Char) (e : ParseError) (front rest : List Char) : Prop where
  split : text = front ++ rest
  offset : e.place.offset = byteLength front
  within : e.place.offset ≤ byteLength text
  line : e.place.line = 1 + front.count '\n'
  column : e.place.column = 1 + (lastLine front).length
  empty_iff : e.fault.text = "empty expression" ↔ text = []
  invalid : e.fault.text = "invalid syntax" → e.place.offset = 0
  trailing : e.fault.text = "unexpected trailing input" → e.place.offset < byteLength text ∧
    (∃ c more, rest = c :: more ∧ isBlank c = false) ∧ ∃ t, parse (String.ofList front) = .ok t

/-- Every parse error points at a real place of the trimmed text, and trailing input follows
a text that is accepted. -/
theorem parse_error_placed {e : ParseError} (h : parse source = .error e) :
    ∃ front rest, Placed (trim source.toList) e front rest := by
  obtain ⟨front, rest, hsplit, hplace, hempty, hinvalid, htrailing⟩ := parse_eq_error h
  have hoffset : e.place.offset = byteLength front := by rw [hplace, Place.offset_after]
  have hlength : byteLength (trim source.toList) = byteLength front + byteLength rest := by
    rw [hsplit, byteLength_append]
  refine ⟨front, rest, {
    split := hsplit
    offset := hoffset
    within := by omega
    line := by rw [hplace, Place.line_after]
    column := by rw [hplace, Place.column_after]
    empty_iff := (Fault.text_inj (g := .empty)).trans hempty
    invalid := fun hfault => ?_
    trailing := fun hfault => ?_ }⟩
  · rw [hoffset, hinvalid (Fault.text_inj.1 hfault), byteLength]
  · obtain ⟨⟨c, more, hrest, hc⟩, haccepted⟩ := htrailing (Fault.text_inj.1 hfault)
    have hpos := c.utf8Size_pos
    refine ⟨?_, ⟨c, more, hrest, hc⟩, haccepted⟩
    rw [hlength, hoffset, hrest, byteLength]
    omega

/-- A quoted text with a character of two bytes, and `and` without a second operand. -/
theorem parse_error_placed_and :
    parse "x == 'é'\n and )" = .error ⟨.trailing, ⟨11, 2, 2⟩⟩ ∧
    ∃ front rest, Placed (trim "x == 'é'\n and )".toList) ⟨.trailing, ⟨11, 2, 2⟩⟩ front rest := by
  have h : parse "x == 'é'\n and )" = .error ⟨.trailing, ⟨11, 2, 2⟩⟩ := by cbv
  exact ⟨h, parse_error_placed h⟩

end Tree

end RowFilter
