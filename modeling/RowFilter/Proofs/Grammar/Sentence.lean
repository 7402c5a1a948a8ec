import RowFilter.Parse
import RowFilter.Proofs.Grammar.Completeness
import RowFilter.Proofs.Grammar.Soundness

/-! Parsing decides the grammar: a source is read as a tree exactly if, its blanks at both
ends dropped, it spells a sentence for that tree and only blanks follow. -/

namespace RowFilter

open Text Grammar

namespace Grammar

variable {cs rest : List Char} {t : Token} {ts : List Token}

theorem next?_eq_none_of_blank (h : dropBlanks cs = []) : next? cs = none := by
  cases hnext : next? cs with
  | none => rfl
  | some found =>
    exfalso
    obtain ⟨t, rest⟩ := found
    rw [next?] at hnext
    cases hgap : skipGap cs with
    | nil =>
      rw [hgap] at hnext
      cases hnext
    | cons c more =>
      rw [hgap] at hnext
      have hmem : c ∈ cs := (List.dropWhile_suffix isGap).subset (by
        change c ∈ skipGap cs
        simp [hgap])
      have hblank := dropBlanks_eq_nil_iff.1 h c hmem
      simp [isBlank_eq_false_of_lexeme? hnext] at hblank

theorem ends_of_blank (h : dropBlanks cs = []) (leads : List Token) : Ends leads cs := by
  intro t rest hnext
  rw [next?_eq_none_of_blank h] at hnext
  cases hnext

end Grammar

/-- A sentence of the grammar for a tree, all levels of nesting being left. -/
def Sentence (t : Tree) (ts : List Token) : Prop := (phrases maxNesting).item t ts

theorem Tree.parse_eq_ok_iff {source : String} {t : Tree} :
    Tree.parse source = .ok t ↔ ∃ ts rest, Sentence t ts ∧
      Spells ts (trim source.toList) rest ∧ dropBlanks rest = [] := by
  rw [Tree.parse, Tree.parseUnder]
  constructor
  · intro h
    split at h
    · cases h
    · rename_i text _
      unfold Tree.ofReply at h
      split at h
      · rename_i tree rest n hread
        split at h
        · rename_i hblank
          cases h
          obtain ⟨u, us, hR, hs⟩ := (inner_sound .enforced maxNesting).item _ _ _ ⟨_, _, hread⟩
          exact ⟨u :: us, rest, hR, hs, hblank⟩
        · cases h
      · cases h
      · cases h
  · intro hread
    obtain ⟨ts, rest, hR, hs, hblank⟩ := hread
    split
    · rename_i htrim
      rw [htrim] at hs
      cases hs with
      | nil => exact absurd rfl (phrases_item_starts hR).ne_nil
      | cons hnext _ => cases hnext
    · have hfit : Fits .enforced (0 + maxNesting) := .inr (Nat.le_of_eq (Nat.zero_add _))
      obtain ⟨past, hread⟩ := (inner_complete hfit).item hR hs (ends_of_blank hblank _) none
      rw [condition, hread, Tree.ofReply, hblank]

end RowFilter
