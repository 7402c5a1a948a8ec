/-! Blank characters and trimming. `isBlank` is the Unicode property
White_Space (25 code points); `trim` drops blanks at both ends, so a trimmed
text neither starts nor ends with one. -/

namespace RowFilter.Text

/-- The Unicode property White_Space. -/
def isBlank (c : Char) : Bool :=
  let n := c.toNat
  (9 ≤ n && n ≤ 13) || n == 0x20 || n == 0x85 || n == 0xa0 || n == 0x1680 ||
    (0x2000 ≤ n && n ≤ 0x200a) || n == 0x2028 || n == 0x2029 || n == 0x202f ||
    n == 0x205f || n == 0x3000

def dropBlanks (cs : List Char) : List Char := cs.dropWhile isBlank

def dropBlanksEnd (cs : List Char) : List Char := (dropBlanks cs.reverse).reverse

def trim (cs : List Char) : List Char := dropBlanksEnd (dropBlanks cs)

theorem dropBlanks_eq_nil_iff {cs : List Char} :
    dropBlanks cs = [] ↔ ∀ c ∈ cs, isBlank c = true := by
  induction cs with
  | nil => simp [dropBlanks]
  | cons c cs ih => cases h : isBlank c <;> simp_all [dropBlanks]

theorem dropBlanks_suffix (cs : List Char) : dropBlanks cs <:+ cs :=
  List.dropWhile_suffix isBlank

theorem dropBlanksEnd_isPrefix (cs : List Char) : dropBlanksEnd cs <+: cs := by
  obtain ⟨dropped, h⟩ := dropBlanks_suffix cs.reverse
  exact ⟨dropped.reverse, by rw [dropBlanksEnd, ← List.reverse_append, h, List.reverse_reverse]⟩

theorem dropBlanksEnd_eq_nil_iff {cs : List Char} :
    dropBlanksEnd cs = [] ↔ ∀ c ∈ cs, isBlank c = true := by
  rw [dropBlanksEnd, List.reverse_eq_nil_iff, dropBlanks_eq_nil_iff]
  simp

theorem dropBlanks_append_of_ne_nil {cs : List Char} (h : dropBlanks cs ≠ []) (ds : List Char) :
    dropBlanks (cs ++ ds) = dropBlanks cs ++ ds := by
  rw [dropBlanks, List.dropWhile_append, ← dropBlanks, if_neg (by simpa using h)]

theorem dropBlanks_append_of_blank {cs : List Char} (h : ∀ c ∈ cs, isBlank c = true)
    (ds : List Char) : dropBlanks (cs ++ ds) = dropBlanks ds :=
  List.dropWhile_append_of_pos h

theorem dropBlanksEnd_append_of_ne_nil (cs : List Char) {ds : List Char}
    (h : dropBlanksEnd ds ≠ []) : dropBlanksEnd (cs ++ ds) = cs ++ dropBlanksEnd ds := by
  have hrev : dropBlanks ds.reverse ≠ [] := fun hnil => h (by rw [dropBlanksEnd, hnil]; rfl)
  rw [dropBlanksEnd, List.reverse_append, dropBlanks_append_of_ne_nil hrev, List.reverse_append,
    List.reverse_reverse, dropBlanksEnd]

theorem dropBlanksEnd_append_of_blank (cs : List Char) {ds : List Char}
    (h : ∀ c ∈ ds, isBlank c = true) : dropBlanksEnd (cs ++ ds) = dropBlanksEnd cs := by
  rw [dropBlanksEnd, List.reverse_append, dropBlanks_append_of_blank (by simpa using h),
    dropBlanksEnd]

/-- Blanks before a text are dropped. -/
theorem trim_blank_append {cs : List Char} (h : ∀ c ∈ cs, isBlank c = true) (ds : List Char) :
    trim (cs ++ ds) = trim ds := by
  rw [trim, dropBlanks_append_of_blank h, trim]

/-- Blanks behind a text are dropped. -/
theorem trim_append_blank (cs : List Char) {ds : List Char} (h : ∀ c ∈ ds, isBlank c = true) :
    trim (cs ++ ds) = trim cs := by
  by_cases hcs : dropBlanks cs = []
  · have hall := dropBlanks_eq_nil_iff.1 hcs
    have hds : dropBlanks ds = [] := dropBlanks_eq_nil_iff.2 h
    rw [trim_blank_append hall, trim, hds, trim, hcs]
  · rw [trim, dropBlanks_append_of_ne_nil hcs, dropBlanksEnd_append_of_blank _ h, trim]

/-- Between characters that are no blanks a text is left as it is. -/
theorem trim_between {cs ds : List Char} (hcs : dropBlanks cs ≠ []) (between : List Char)
    (hds : dropBlanksEnd ds ≠ []) :
    trim (cs ++ (between ++ ds)) = dropBlanks cs ++ (between ++ dropBlanksEnd ds) := by
  rw [trim, dropBlanks_append_of_ne_nil hcs, ← List.append_assoc,
    dropBlanksEnd_append_of_ne_nil _ hds, List.append_assoc]

/-- What follows the leading blanks starts with none. -/
theorem isBlank_of_dropBlanks_cons {cs rest : List Char} {c : Char}
    (h : dropBlanks cs = c :: rest) : isBlank c = false := by
  have := List.head?_dropWhile_not isBlank cs
  simp only [dropBlanks] at h
  simpa [h] using this

/-- A trimmed text does not start with a blank. -/
theorem isBlank_of_trim_cons {cs rest : List Char} {c : Char} (h : trim cs = c :: rest) :
    isBlank c = false := by
  obtain ⟨more, hmore⟩ := dropBlanksEnd_isPrefix (dropBlanks cs)
  rw [← trim, h, List.cons_append] at hmore
  exact isBlank_of_dropBlanks_cons hmore.symm

/-- A trimmed text does not end in blanks. -/
theorem eq_nil_of_suffix_trim {cs rest : List Char} (h : rest <:+ trim cs)
    (hblank : dropBlanks rest = []) : rest = [] := by
  have hprefix : rest.reverse <+: dropBlanks (dropBlanks cs).reverse := by
    rw [← List.reverse_suffix, List.reverse_reverse]
    exact h
  obtain ⟨more, hmore⟩ := hprefix
  cases hrev : rest.reverse with
  | nil => exact List.reverse_eq_nil_iff.1 hrev
  | cons c front =>
    rw [hrev, List.cons_append] at hmore
    have hmem : c ∈ rest := by
      rw [← List.mem_reverse, hrev]
      exact List.mem_cons_self ..
    have hc := dropBlanks_eq_nil_iff.1 hblank c hmem
    rw [isBlank_of_dropBlanks_cons hmore.symm] at hc
    cases hc

/-- No blank stands at either end of the text. -/
def Unpadded (cs : List Char) : Prop :=
  (∃ c more, cs = c :: more ∧ isBlank c = false) ∧ ∃ front c, cs = front ++ [c] ∧ isBlank c = false

theorem Unpadded.append {cs ds : List Char} (h : Unpadded cs) (between : List Char)
    (h' : Unpadded ds) : Unpadded (cs ++ (between ++ ds)) := by
  obtain ⟨⟨c, more, rfl, hc⟩, -⟩ := h
  obtain ⟨-, front, d, rfl, hd⟩ := h'
  exact ⟨⟨c, _, rfl, hc⟩, c :: more ++ (between ++ front), d, by simp, hd⟩

/-- Trimming leaves a text alone exactly if no blank stands at either end. -/
theorem trim_eq_self_iff {cs : List Char} (hne : cs ≠ []) : trim cs = cs ↔ Unpadded cs := by
  constructor
  · intro h
    have hlength : cs.length ≤ (dropBlanks cs).length := by
      have hle := (dropBlanksEnd_isPrefix (dropBlanks cs)).length_le
      rwa [← trim, h] at hle
    have hfirst : dropBlanks cs = cs := (dropBlanks_suffix cs).eq_of_length_le hlength
    have hlast : dropBlanks cs.reverse = cs.reverse := by
      rw [trim, hfirst, dropBlanksEnd] at h
      exact List.reverse_eq_iff.1 h
    constructor
    · obtain ⟨c, more, rfl⟩ := List.exists_cons_of_ne_nil hne
      exact ⟨c, more, rfl, isBlank_of_dropBlanks_cons hfirst⟩
    · obtain ⟨c, front, hrev⟩ := List.exists_cons_of_ne_nil (List.reverse_ne_nil_iff.2 hne)
      rw [hrev] at hlast
      exact ⟨front.reverse, c, List.reverse_eq_cons_iff.1 hrev, isBlank_of_dropBlanks_cons hlast⟩
  · intro h
    obtain ⟨⟨c, more, hcs, hc⟩, front, d, hlast, hd⟩ := h
    have hdrop : dropBlanks cs = cs := by simp [hcs, dropBlanks, hc]
    rw [trim, hdrop, dropBlanksEnd, hlast]
    simp [dropBlanks, hd]

/-- Blanks behind a text are dropped, and no more. -/
theorem trim_append_blanks {cs blanks : List Char} (h : Unpadded cs)
    (hblanks : ∀ c ∈ blanks, isBlank c = true) : trim (cs ++ blanks) = cs := by
  have hne : cs ≠ [] := by
    obtain ⟨⟨c, more, rfl, -⟩, -⟩ := h
    simp
  rw [trim_append_blank cs hblanks, (trim_eq_self_iff hne).2 h]

end RowFilter.Text
