import RowFilter.Proofs.Json.Scanning

/-! Passing over values that nobody asks for. Whatever is nested in one, the scanner stops
right behind it, and the fuel that it is given for the length of the document is enough. -/

namespace RowFilter.Json

variable {g h w rest : List Char} {c : Char}

theorem opens_of_isDigit (hc : c.isDigit = true) (cs : List Char) : Opens (c :: cs) := by
  have hall : ∀ d ∈ [' ', '\n', '\t', '\r'] ++ [']', '\x7d'], d.isDigit = false := by simp
  refine ⟨c, cs, rfl, fun hmem => ?_, fun hmem => ?_⟩
  · exact absurd hc (by simp [hall c (List.mem_append_left _ hmem)])
  · exact absurd hc (by simp [hall c (List.mem_append_right _ hmem)])

theorem MagnitudeText.digit (hw : MagnitudeText w) :
    ∃ c more, w = c :: more ∧ c.isDigit = true := by
  obtain ⟨hwhole, -, -⟩ := hw
  cases hwhole with
  | zero => exact ⟨_, _, rfl, rfl⟩
  | digits _ hds => exact ⟨_, _, rfl, hds.2 _ List.mem_cons_self⟩

theorem ValueText.opens (hw : ValueText w) : Opens w := by
  cases hw with
  | word hword =>
    simp only [List.mem_cons, List.not_mem_nil, or_false] at hword
    rcases hword with rfl | rfl | rfl <;> exact ⟨_, _, rfl, by decide⟩
  | number hw =>
    obtain ⟨c, more, rfl, hc⟩ := hw.digit
    exact opens_of_isDigit hc more
  | text hw =>
    obtain ⟨body, rfl, -⟩ := hw.read
    exact ⟨_, _, rfl, by decide⟩
  | list _ hw =>
    obtain ⟨_⟩ := hw
    exact ⟨_, _, rfl, by decide⟩
  | negative | record => exact ⟨_, _, rfl, by decide⟩

/-- The scanner passes over the text, given fuel for it. -/
def Passed (w : List Char) : Prop :=
  ∀ fuel rest, 2 * w.length ≤ fuel → Delimited rest → skipValueUpTo fuel (w ++ rest) = .ok rest

/-- It passes over a field, key and value. -/
def PassedField (w : List Char) : Prop :=
  ∀ fuel h rest, 2 * w.length ≤ fuel → Gap h → Delimited rest →
    ∃ value, skipKey (h ++ (w ++ rest)) = .ok value ∧ skipValueUpTo fuel value = .ok rest

theorem skipValueUpTo_gap (hg : Gap g) (fuel : Nat) (cs : List Char) :
    skipValueUpTo fuel (g ++ cs) = skipValueUpTo fuel cs := by
  cases fuel with
  | zero => rfl
  | succ fuel => rw [skipValueUpTo, skipValueUpTo, skipGap_append hg]

theorem skipValueUpTo_digit (hc : c.isDigit = true) (fuel : Nat) (cs : List Char) :
    skipValueUpTo (fuel + 1) (c :: cs) = skipNumberRest (c :: cs) := by
  have hskip : skipGap (c :: cs) = c :: cs :=
    skipGap_opens gap_nil (opens_of_isDigit hc cs)
  rw [skipValueUpTo, hskip]
  split
  case h_9 =>
    rename_i heq
    cases heq
    rw [if_pos hc]
  -- the signs that other values start with are no digits
  all_goals
    rename_i heq
    cases heq
    try cases hc

theorem FieldText.passed {key value : List Char} (hkey : AnyText key) (hvalue : Passed value)
    (hw : FieldText key value w) : PassedField w := by
  obtain @⟨g, h, hg, hh⟩ := hw
  obtain ⟨body, rfl, hread⟩ := hkey.read
  intro fuel before rest hfuel hbefore hrest
  refine ⟨h ++ (value ++ rest), ?_, ?_⟩
  · have hcolon (cs : List Char) : skipGap (g ++ ':' :: cs) = ':' :: cs :=
      skipGap_sign hg (by simp) cs
    simp only [List.cons_append, List.append_assoc]
    rw [skipKey, skipGap_append hbefore, skipGap_cons (by decide)]
    simp only [hread, bind, Except.bind, hcolon]
    rfl
  · rw [skipValueUpTo_gap hh]
    refine hvalue fuel rest ?_ hrest
    simp only [List.length_append, List.length_cons] at hfuel
    omega

/-- How a loop over parts goes on behind one of them: past a comma with the next one, past the
closing sign with what follows. A part takes one unit of the fuel besides its own. -/
structure Loops (close : Char) (loop : Nat → List Char → Except Flaw (List Char))
    (part : List Char) : Prop where
  close : ∀ {fuel g h} rest, 2 * part.length ≤ fuel → Gap g → Gap h →
    loop (fuel + 1) (g ++ (part ++ (h ++ close :: rest))) = .ok rest
  next : ∀ {fuel g h} rest, 2 * part.length ≤ fuel → Gap g → Gap h →
    loop (fuel + 1) (g ++ (part ++ (h ++ ',' :: rest))) = loop fuel rest

/-- The sign behind a part pays for the unit of fuel that the part takes. -/
theorem loop_upto {close : Char} {loop : Nat → List Char → Except Flaw (List Char)}
    {part tail : List Char} {parts : List (List Char)}
    (hparts : ∀ p ∈ part :: parts, Loops close loop p) (htail : Upto close false parts tail)
    (hg : Gap g) (rest : List Char) {fuel : Nat}
    (hfuel : 2 * (part.length + tail.length) ≤ fuel + 1) :
    loop fuel (g ++ (part ++ (tail ++ rest))) = .ok rest := by
  induction parts generalizing part tail g fuel with
  | nil =>
    obtain ⟨hpart, -⟩ := List.forall_mem_cons.1 hparts
    cases htail with
    | close _ hh =>
      simp only [List.length_append, List.length_singleton] at hfuel
      obtain ⟨fuel, rfl⟩ := Nat.exists_eq_add_one_of_ne_zero (n := fuel) (by omega)
      rw [List.append_assoc, List.singleton_append]
      exact hpart.close rest (by omega) hg hh
  | cons next parts ih =>
    obtain ⟨hpart, hparts⟩ := List.forall_mem_cons.1 hparts
    cases htail with
    | next hh hnext hmore =>
      simp only [List.length_append, List.length_cons] at hfuel
      obtain ⟨fuel, rfl⟩ := Nat.exists_eq_add_one_of_ne_zero (n := fuel) (by omega)
      simp only [List.append_assoc, List.cons_append]
      rw [hpart.next _ (by omega) hg hh]
      exact ih hparts hmore hnext (by omega)

theorem Passed.loops (hw : Passed w) : Loops ']' skipItems w := by
  refine ⟨fun {fuel g h} rest hfuel hg hh => ?_, fun {fuel g h} rest hfuel hg hh => ?_⟩
  · have hbehind : Delimited (h ++ ']' :: rest) := delimited_sign hh (by simp) _
    rw [skipItems, skipValueUpTo_gap hg, hw fuel _ hfuel hbehind]
    simp only [bind, Except.bind]
    rw [skipGap_sign hh (by simp)]
    rfl
  · have hbehind : Delimited (h ++ ',' :: rest) := delimited_sign hh (by simp) _
    rw [skipItems, skipValueUpTo_gap hg, hw fuel _ hfuel hbehind]
    simp only [bind, Except.bind]
    rw [skipGap_sign hh (by simp)]
    rfl

theorem PassedField.loops (hw : PassedField w) : Loops '\x7d' skipFields w := by
  refine ⟨fun {fuel g h} rest hfuel hg hh => ?_, fun {fuel g h} rest hfuel hg hh => ?_⟩
  · have hbehind : Delimited (h ++ '\x7d' :: rest) := delimited_sign hh (by simp) _
    obtain ⟨value, hkey, hvalue⟩ := hw fuel g _ hfuel hg hbehind
    rw [skipFields, hkey]
    simp only [bind, Except.bind, hvalue]
    rw [skipGap_sign hh (by simp)]
    rfl
  · have hbehind : Delimited (h ++ ',' :: rest) := delimited_sign hh (by simp) _
    obtain ⟨value, hkey, hvalue⟩ := hw fuel g _ hfuel hg hbehind
    rw [skipFields, hkey]
    simp only [bind, Except.bind, hvalue]
    rw [skipGap_sign hh (by simp)]
    rfl

theorem skipValueUpTo_items (hg : Gap g) (hw : Opens w) (fuel : Nat) :
    skipValueUpTo (fuel + 1) ('[' :: (g ++ w)) = skipItems fuel w := by
  obtain ⟨c, cs, rfl, hc⟩ := hw
  rw [skipValueUpTo, skipGap_cons (by decide)]
  simp only [skipGap_opens hg ⟨c, cs, rfl, hc⟩]
  split
  · rename_i heq
    cases heq
    exact absurd (by simp) hc.2
  · contradiction
  · rfl

theorem skipValueUpTo_fields (hg : Gap g) (hw : Opens w) (fuel : Nat) :
    skipValueUpTo (fuel + 1) ('\x7b' :: (g ++ w)) = skipFields fuel w := by
  obtain ⟨c, cs, rfl, hc⟩ := hw
  rw [skipValueUpTo, skipGap_cons (by decide)]
  simp only [skipGap_opens hg ⟨c, cs, rfl, hc⟩]
  split
  · rename_i heq
    cases heq
    exact absurd (by simp) hc.2
  · contradiction
  · rfl

/-- Between brackets of one kind the loop for that kind is run, if anything stands there. -/
theorem passed_brackets {sign close : Char}
    {loop : Nat → List Char → Except Flaw (List Char)} {parts : List (List Char)}
    (hnone : ∀ {fuel g} rest, Gap g →
      skipValueUpTo (fuel + 1) (sign :: (g ++ close :: rest)) = .ok rest)
    (hsome : ∀ {g w} fuel, Gap g → Opens w →
      skipValueUpTo (fuel + 1) (sign :: (g ++ w)) = loop fuel w)
    (hparts : ∀ part ∈ parts, Opens part ∧ Loops close loop part) (hw : Upto close true parts w) :
    Passed (sign :: w) := by
  intro fuel rest hfuel hrest
  rw [List.length_cons] at hfuel
  obtain ⟨fuel, rfl⟩ := Nat.exists_eq_add_one_of_ne_zero (n := fuel) (by omega)
  cases hw with
  | close _ hg =>
    rw [List.cons_append, List.append_assoc, List.singleton_append]
    exact hnone rest hg
  | first hg hmore =>
    simp only [List.length_append] at hfuel
    rw [List.cons_append, List.append_assoc, List.append_assoc,
      hsome fuel hg ((hparts _ List.mem_cons_self).1.append _)]
    exact loop_upto (fun p hp => (hparts p hp).2) hmore gap_nil rest (by omega)

theorem FieldText.opens {key value : List Char} (hkey : AnyText key)
    (hw : FieldText key value w) : Opens w := by
  obtain ⟨-, -⟩ := hw
  obtain ⟨body, rfl, -⟩ := hkey.read
  exact ⟨_, _, rfl, by decide⟩

/-- A value that is not bracketed takes one unit of fuel. -/
theorem passed_of_flat (hne : w ≠ []) (hw : ∀ fuel rest, Delimited rest →
    skipValueUpTo (fuel + 1) (w ++ rest) = .ok rest) : Passed w := by
  intro fuel rest hfuel hrest
  have hlength := List.length_pos_of_ne_nil hne
  obtain ⟨fuel, rfl⟩ := Nat.exists_eq_add_one_of_ne_zero (n := fuel) (by omega)
  exact hw fuel rest hrest

theorem exists_of_mem_right {α β : Type} {R : α → β → Prop} {as : List α} {bs : List β}
    (hall : List.Forall₂ R as bs) {b : β} (hb : b ∈ bs) : ∃ a ∈ as, R a b := by
  induction hall with
  | nil => cases hb
  | cons hr _ ih =>
    rcases List.mem_cons.1 hb with rfl | hb
    · exact ⟨_, List.mem_cons_self, hr⟩
    · obtain ⟨a, ha, hr⟩ := ih hb
      exact ⟨a, List.mem_cons_of_mem _ ha, hr⟩

theorem ValueText.passed (hw : ValueText w) : Passed w := by
  induction hw with
  | word hword =>
    simp only [List.mem_cons, List.not_mem_nil, or_false] at hword
    rcases hword with rfl | rfl | rfl <;>
      exact passed_of_flat (List.cons_ne_nil _ _) fun _ _ _ => rfl
  | number hw =>
    obtain ⟨c, more, rfl, hc⟩ := hw.digit
    refine passed_of_flat (List.cons_ne_nil _ _) fun fuel rest hrest => ?_
    rw [List.cons_append, skipValueUpTo_digit hc]
    exact hw.read hrest
  | negative hw =>
    refine passed_of_flat (List.cons_ne_nil _ _) fun fuel rest hrest => ?_
    rw [List.cons_append, skipValueUpTo, skipGap_cons (by decide)]
    exact hw.read hrest
  | text hw =>
    obtain ⟨body, rfl, hread⟩ := hw.read
    refine passed_of_flat (List.cons_ne_nil _ _) fun fuel rest _ => ?_
    rw [List.cons_append, skipValueUpTo, skipGap_cons (by decide)]
    exact hread rest
  | list hparts hw ih =>
    obtain ⟨hbody⟩ := hw
    refine passed_brackets (fun rest hg => ?_) (fun fuel hg hw => skipValueUpTo_items hg hw fuel)
      (fun part hpart => ⟨(hparts part hpart).opens, (ih part hpart).loops⟩) hbody
    rw [skipValueUpTo, skipGap_cons (by decide)]
    simp only [skipGap_sign (c := ']') hg (by simp)]
  | record hkeys hvalues hparts hbody ih =>
    refine passed_brackets (fun rest hg => ?_) (fun fuel hg hw => skipValueUpTo_fields hg hw fuel)
      (fun part hpart => ?_) hbody
    · rw [skipValueUpTo, skipGap_cons (by decide)]
      simp only [skipGap_sign (c := '\x7d') hg (by simp)]
    · obtain ⟨field, hfield, hw⟩ := exists_of_mem_right hparts hpart
      have hkey := hkeys field hfield
      exact ⟨hw.opens hkey, (hw.passed hkey (ih field hfield)).loops⟩

/-- Every value is passed over whole. -/
theorem skipValue_valueText (hw : ValueText w) (hg : Gap g) (hrest : Delimited rest) :
    skipValue (g ++ (w ++ rest)) = .ok rest := by
  rw [skipValue, skipValueUpTo_gap hg]
  refine hw.passed _ rest ?_ hrest
  simp only [List.length_append]
  omega

end RowFilter.Json
