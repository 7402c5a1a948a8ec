import RowFilter.Catalog.File
import RowFilter.Proofs.Json.Skipping

/-! What the parts of a loader read. A loader is complete for the texts of its values if it
gives each value from each of its texts, whatever blanks stand before the text and whatever
may follow a value behind it. Lists of values and records of fields are complete where
their items and fields are. -/

namespace RowFilter.Catalog.File

open Json

variable {α β σ : Type} {g h w cs rest : List Char} {c : Char}

/-- The value of every text is read from it. -/
structure Complete (T : α → List Char → Prop) (load : Load α) : Prop where
  opens : ∀ {a w}, T a w → Opens w
  read : ∀ {a w g rest}, T a w → Gap g → Delimited rest →
    load (g ++ (w ++ rest)) = .ok (a, rest)

/-- Everything up to the sign is read. -/
def StopsAt (close : Char) (load : Load α) (cs : List Char) (a : α) (rest : List Char) : Prop :=
  ∃ g, Gap g ∧ load cs = .ok (a, g ++ close :: rest)

/-! ### One step -/

theorem bind_of_ok {load : Load α} {next : α → Load β} {a : α} (hload : load cs = .ok (a, rest)) :
    (load >>= next) cs = next a rest := by
  change (load cs >>= fun found => next found.1 found.2) = _
  rw [hload]
  rfl

theorem map_of_ok {load : Load α} {f : α → β} {a : α} (hload : load cs = .ok (a, rest)) :
    (f <$> load) cs = .ok (f a, rest) := by
  change (load cs >>= fun found => pure (f found.1, found.2)) = _
  rw [hload]
  rfl

theorem peek_cons (hg : Gap g) (hc : c ∉ [' ', '\n', '\t', '\r']) (cs : List Char) :
    peek (g ++ c :: cs) = .ok (some c, c :: cs) := by
  rw [peek, skipGap_append hg, skipGap_cons hc]
  rfl

theorem take_cons (c : Char) (cs : List Char) : take (c :: cs) = .ok ((), cs) := rfl

theorem sign_cons (hg : Gap g) (hc : c ∉ [' ', '\n', '\t', '\r']) (cs : List Char) :
    sign c (g ++ c :: cs) = .ok ((), cs) := by
  rw [sign, bind_of_ok (peek_cons hg hc cs)]
  simp only [if_true]
  rfl

theorem complete_text : Complete TextOf text := by
  refine ⟨fun hw => ?_, fun {s w g rest} hw hg _ => ?_⟩
  · obtain ⟨body, rfl, -⟩ := hw.read
    exact ⟨_, _, rfl, by decide⟩
  · obtain ⟨body, rfl, hread⟩ := hw.read
    rw [List.cons_append, text, bind_of_ok (peek_cons hg (by decide) _)]
    change scan textRest (body ++ rest) = _
    rw [scan, hread]
    rfl

/-! ### Lists -/

section

variable {T : α → List Char → Prop} {item : Load α} {parts : List (List Char)} {first : Bool}

theorem nextItem_close (hw : Upto ']' first [] w) (rest : List Char) :
    StopsAt ']' (nextItem first item) (w ++ rest) none rest := by
  cases hw with
  | close _ hg =>
    rw [List.append_assoc, List.singleton_append]
    refine ⟨[], gap_nil, ?_⟩
    rw [nextItem, bind_of_ok (peek_cons hg (by decide) rest)]
    rfl

theorem nextItem_first (hgap : c ∉ [' ', '\n', '\t', '\r']) (hclose : c ≠ ']') (hg : Gap g) :
    nextItem true item (g ++ c :: cs) = (some <$> item) (c :: cs) := by
  rw [nextItem, bind_of_ok (peek_cons hg hgap _)]
  simp only [if_true]

theorem nextItem_next (hgap : c ∉ [' ', '\n', '\t', '\r']) (hclose : c ≠ ']') (hg : Gap g)
    (hh : Gap h) :
    nextItem false item (g ++ ',' :: (h ++ c :: cs)) = (some <$> item) (c :: cs) := by
  rw [nextItem, bind_of_ok (peek_cons hg (by decide) _)]
  refine (bind_of_ok (take_cons _ _)).trans ?_
  rw [bind_of_ok (peek_cons hh hgap _)]
  simp only

theorem nextItem_part (hitem : Complete T item) {a : α} {part : List Char} (ha : T a part)
    (hw : Upto ']' first (part :: parts) w) (rest : List Char) :
    ∃ more, Upto ']' false parts more ∧
      nextItem first item (w ++ rest) = .ok (some a, more ++ rest) := by
  obtain ⟨c, cs, rfl, hgap, hclose⟩ := hitem.opens ha
  have hclose : c ≠ ']' := fun hc => hclose (by simp [hc])
  cases hw with
  | @first _ _ more _ hg hmore =>
    have hread := hitem.read ha gap_nil (hmore.delimited (by simp) rest)
    refine ⟨more, hmore, ?_⟩
    simp only [List.append_assoc, List.cons_append]
    rw [nextItem_first hgap hclose hg]
    exact map_of_ok hread
  | @next _ _ _ more _ hg hh hmore =>
    have hread := hitem.read ha gap_nil (hmore.delimited (by simp) rest)
    refine ⟨more, hmore, ?_⟩
    simp only [List.append_assoc, List.cons_append]
    rw [nextItem_next hgap hclose hg hh]
    exact map_of_ok hread

theorem itemsUpTo_parts (hitem : Complete T item) {as : List α}
    (has : List.Forall₂ T as parts) (hw : Upto ']' first parts w) (rest : List Char) {fuel : Nat}
    (hfuel : parts.length < fuel) :
    StopsAt ']' (itemsUpTo item fuel first) (w ++ rest) as rest := by
  obtain ⟨fuel, rfl⟩ := Nat.exists_eq_add_one_of_ne_zero (Nat.ne_of_gt (Nat.zero_lt_of_lt hfuel))
  -- a part takes one unit of fuel, and so does the closing sign
  induction has generalizing first w fuel with
  | nil =>
    have hclose : StopsAt ']' (nextItem first item) (w ++ rest) none rest := nextItem_close hw rest
    obtain ⟨g, hg, hnone⟩ := hclose
    refine ⟨g, hg, ?_⟩
    rw [itemsUpTo, bind_of_ok hnone]
    rfl
  | @cons a part as parts ha _ ih =>
    obtain ⟨more, hmore, hsome⟩ := nextItem_part hitem ha hw rest
    rw [List.length_cons] at hfuel
    obtain ⟨fuel, rfl⟩ := Nat.exists_eq_add_one_of_ne_zero (n := fuel) (by omega)
    obtain ⟨g, hg, hitems⟩ := ih hmore fuel (by omega)
    refine ⟨g, hg, ?_⟩
    rw [itemsUpTo, bind_of_ok hsome]
    change (itemsUpTo item (fuel + 1) false >>= fun found => pure (a :: found)) _ = _
    rw [bind_of_ok hitems]
    rfl

/-- The texts of lists of such values. -/
def ListOf (T : α → List Char → Prop) (as : List α) (w : List Char) : Prop :=
  ∃ parts, List.Forall₂ T as parts ∧ ListText parts w

theorem complete_list (hitem : Complete T item) : Complete (ListOf T) (list item) := by
  refine ⟨fun hw => ?_, fun {as w g rest} hw hg _ => ?_⟩
  · obtain ⟨_, -, ⟨_⟩⟩ := hw
    exact ⟨_, _, rfl, by decide⟩
  · obtain ⟨parts, has, hparts⟩ := hw
    obtain @⟨body, hbody⟩ := hparts
    have hlength := hbody.length_le.1
    have hfuel : parts.length < (body ++ rest).length + 1 := by
      rw [List.length_append]
      omega
    obtain ⟨h, hh, hitems⟩ := itemsUpTo_parts hitem has hbody rest hfuel
    rw [List.cons_append, list, bind_of_ok (peek_cons hg (by decide) _)]
    change (itemsUpTo item ((body ++ rest).length + 1) true >>= fun found =>
      sign ']' >>= fun _ => pure found) (body ++ rest) = _
    rw [bind_of_ok hitems, bind_of_ok (sign_cons hh (by decide) _)]
    rfl

/-- The texts of such values, and the word for none. -/
inductive NullOr (T : α → List Char → Prop) : Option α → List Char → Prop
  | null : NullOr T none "null".toList
  | some {a : α} {w : List Char} : T a w → NullOr T (some a) w

theorem complete_nullable {T : α → List Char → Prop} {value : Load α} (hvalue : Complete T value)
    (hword : ∀ {a w more}, T a w → w ≠ 'n' :: more) : Complete (NullOr T) (nullable value) := by
  refine ⟨fun hw => ?_, fun {a w g rest} hw hg hrest => ?_⟩
  · cases hw with
    | null => exact ⟨_, _, rfl, by decide⟩
    | some hw => exact hvalue.opens hw
  · cases hw with
    | null =>
      change nullable value (g ++ 'n' :: ('u' :: 'l' :: 'l' :: rest)) = _
      rw [nullable, bind_of_ok (peek_cons hg (by decide) _)]
      rfl
    | @some a _ hw =>
      obtain ⟨c, cs, rfl, hgap, -⟩ := hvalue.opens hw
      have hn : c ≠ 'n' := by
        rintro rfl
        exact hword hw rfl
      rw [List.cons_append, nullable, bind_of_ok (peek_cons hg hgap _)]
      generalize hfound : some c = found
      split
      · exact absurd (Option.some.inj hfound) hn
      · exact map_of_ok (hvalue.read hw gap_nil hrest)

end

/-! ### Records -/

/-- Behind its key, the value of a field is read. -/
def ReadsField (load : Load α) (value : List Char) (a : α) : Prop :=
  ∀ g h rest, Gap g → Gap h → Delimited rest →
    load (g ++ ':' :: (h ++ (value ++ rest))) = .ok (a, rest)

theorem ReadsField.bind_pure {load : Load α} {value : List Char} {a : α}
    (hload : ReadsField load value a) (f : α → β) :
    ReadsField (load >>= fun found => pure (f found)) value (f a) := by
  intro g h rest hg hh hrest
  rw [bind_of_ok (hload g h rest hg hh hrest)]
  rfl

theorem readsField_fill {T : α → List Char → Prop} {load : Load α} (hload : Complete T load)
    {a : α} (hw : T a w) (key : String) : ReadsField (fill key none load) w (some a) := by
  intro g h rest hg hh hrest
  change (sign ':' >>= fun _ => some <$> load) _ = _
  rw [bind_of_ok (sign_cons hg (by decide) _)]
  exact map_of_ok (hload.read hw hh hrest)

theorem readsField_skipField (hw : ValueText w) : ReadsField skipField w () := by
  intro g h rest hg hh hrest
  rw [skipField, bind_of_ok (sign_cons hg (by decide) _), skip, scan,
    skipValue_valueText hw hh hrest]
  rfl

section

variable {fields : List (String × List Char)} {parts : List (List Char)} {first : Bool}

theorem nextKey_close (hw : Upto '\x7d' first [] w) (rest : List Char) :
    StopsAt '\x7d' (nextKey first) (w ++ rest) none rest := by
  cases hw with
  | close _ hg =>
    rw [List.append_assoc, List.singleton_append]
    refine ⟨[], gap_nil, ?_⟩
    rw [nextKey, bind_of_ok (peek_cons hg (by decide) rest)]
    rfl

theorem nextKey_part {key : String} {value part name : List Char} (hname : TextOf key name)
    (hpart : FieldText name value part) (hw : Upto '\x7d' first (part :: parts) w)
    (rest : List Char) :
    ∃ g h more, Gap g ∧ Gap h ∧ Upto '\x7d' false parts more ∧
      nextKey first (w ++ rest) =
        .ok (some key, g ++ ':' :: (h ++ (value ++ (more ++ rest)))) := by
  obtain @⟨g, h, hg, hh⟩ := hpart
  obtain ⟨body, rfl, hread⟩ := hname.read
  have hscan (cs : List Char) : (some <$> scan textRest) (body ++ cs) = .ok (some key, cs) := by
    refine map_of_ok ?_
    rw [scan, hread]
    rfl
  cases hw with
  | @first before _ more _ hbefore hmore =>
    refine ⟨g, h, more, hg, hh, hmore, ?_⟩
    simp only [List.append_assoc, List.cons_append]
    rw [nextKey, bind_of_ok (peek_cons hbefore (by decide) _)]
    change (take >>= fun _ => some <$> scan textRest) _ = _
    rw [bind_of_ok (take_cons _ _)]
    exact hscan _
  | @next before behind _ more _ hbefore hbehind hmore =>
    refine ⟨g, h, more, hg, hh, hmore, ?_⟩
    simp only [List.append_assoc, List.cons_append]
    rw [nextKey, bind_of_ok (peek_cons hbefore (by decide) _)]
    refine (bind_of_ok (take_cons _ _)).trans ?_
    rw [bind_of_ok (peek_cons hbehind (by decide) _)]
    change (take >>= fun _ => some <$> scan textRest) _ = _
    rw [bind_of_ok (take_cons _ _)]
    exact hscan _

/-- Whatever field comes next is read, and keeps a property of the state and of the fields to
come. -/
def Keeps (field : σ → String → Load σ) (I : σ → List (String × List Char) → Prop) : Prop :=
  ∀ {state key value fields}, I state ((key, value) :: fields) →
    ∃ next, ReadsField (field state key) value next ∧ I next fields

/-- What every field keeps is kept up to the end of the record. -/
theorem fieldsUpTo_parts {field : σ → String → Load σ}
    {I : σ → List (String × List Char) → Prop} (hfield : Keeps field I)
    (hparts : List.Forall₂ KeyedText fields parts) (hw : Upto '\x7d' first parts w)
    (rest : List Char) {fuel : Nat} (hfuel : parts.length < fuel) {state : σ}
    (hstate : I state fields) :
    ∃ last, I last [] ∧
      StopsAt '\x7d' (fieldsUpTo field fuel first state) (w ++ rest) last rest := by
  obtain ⟨fuel, rfl⟩ := Nat.exists_eq_add_one_of_ne_zero (Nat.ne_of_gt (Nat.zero_lt_of_lt hfuel))
  induction hparts generalizing first w fuel state with
  | nil =>
    obtain ⟨g, hg, hnone⟩ := nextKey_close hw rest
    refine ⟨state, hstate, g, hg, ?_⟩
    rw [fieldsUpTo, bind_of_ok hnone]
    rfl
  | @cons entry part fields parts hpart _ ih =>
    obtain ⟨key, value⟩ := entry
    obtain ⟨name, hname, hpart⟩ := hpart
    obtain ⟨g, h, more, hg, hh, hmore, hsome⟩ := nextKey_part hname hpart hw rest
    obtain ⟨next, hread, hnext⟩ := hfield hstate
    rw [List.length_cons] at hfuel
    obtain ⟨fuel, rfl⟩ := Nat.exists_eq_add_one_of_ne_zero (n := fuel) (by omega)
    obtain ⟨last, hlast, g', hg', hfields⟩ := ih hmore hnext fuel (by omega)
    refine ⟨last, hlast, g', hg', ?_⟩
    rw [fieldsUpTo, bind_of_ok hsome]
    change (field state key >>= fieldsUpTo field (fuel + 1) false) _ = _
    rw [bind_of_ok (hread g h _ hg hh (hmore.delimited (by simp) rest))]
    exact hfields

theorem fields_parts {field : σ → String → Load σ} {I : σ → List (String × List Char) → Prop}
    (hfield : Keeps field I) (hparts : List.Forall₂ KeyedText fields parts)
    (hw : Upto '\x7d' true parts w) (rest : List Char) (start : σ) (hstart : I start fields) :
    ∃ last, I last [] ∧ StopsAt '\x7d' (File.fields start field) (w ++ rest) last rest := by
  have hlength := hw.length_le.1
  refine fieldsUpTo_parts hfield hparts hw rest ?_ hstart
  rw [List.length_append]
  omega

end

/-- The texts of records, written as one or as the list of their fields. -/
inductive RecordOf (Items : α → List (List Char) → Prop)
    (Fields : α → List (String × List Char) → Prop) (a : α) : List Char → Prop
  | fields {fields : List (String × List Char)} {w : List Char} :
    Fields a fields → RecordText fields w → RecordOf Items Fields a w
  | items {parts : List (List Char)} {w : List Char} :
    Items a parts → ListText parts w → RecordOf Items Fields a w

theorem complete_record {Items : α → List (List Char) → Prop}
    {Fields : α → List (String × List Char) → Prop} {ofItems ofFields : Load α} (kind : RecordKind)
    (hitems : ∀ {a parts w} rest, Items a parts → Upto ']' true parts w →
      StopsAt ']' ofItems (w ++ rest) a rest)
    (hfields : ∀ {a fields parts w} rest, Fields a fields → List.Forall₂ KeyedText fields parts →
      Upto '\x7d' true parts w → StopsAt '\x7d' ofFields (w ++ rest) a rest) :
    Complete (RecordOf Items Fields) (record kind ofItems ofFields) := by
  refine ⟨fun hw => ?_, fun {a w g rest} hw hg _ => ?_⟩
  · cases hw with
    | fields _ hw => obtain ⟨-, -⟩ := hw; exact ⟨_, _, rfl, by decide⟩
    | items _ hw => obtain ⟨-⟩ := hw; exact ⟨_, _, rfl, by decide⟩
  · cases hw with
    | fields ha hw =>
      obtain @⟨parts, body, hparts, hbody⟩ := hw
      obtain ⟨h, hh, hread⟩ := hfields rest ha hparts hbody
      rw [List.cons_append, record, bind_of_ok (peek_cons hg (by decide) _)]
      change (take >>= fun _ => ofFields >>= fun a => sign '\x7d' >>= fun _ => pure a) _ = _
      rw [bind_of_ok (take_cons _ _), bind_of_ok hread, bind_of_ok (sign_cons hh (by decide) _)]
      rfl
    | items ha hw =>
      obtain @⟨body, hbody⟩ := hw
      obtain ⟨h, hh, hread⟩ := hitems rest ha hbody
      rw [List.cons_append, record, bind_of_ok (peek_cons hg (by decide) _)]
      change (take >>= fun _ => ofItems >>= fun a => sign ']' >>= fun _ => pure a) _ = _
      rw [bind_of_ok (take_cons _ _), bind_of_ok hread, bind_of_ok (sign_cons hh (by decide) _)]
      rfl

/-! ### What a record says -/

section

variable {T : α → List Char → Prop} {default : Option α} {key other : String}
  {fields : List (String × List Char)} {value : List Char} {seen : Option α} {a : α}

/-- What the fields say under a key, where a field with a default may be left out. -/
inductive Says (key : String) (T : α → List Char → Prop) (default : Option α)
    (fields : List (String × List Char)) (a : α) : Prop
  | given {value : List Char} : Has fields key value → T a value → Says key T default fields a
  | absent : default = some a → Lacks fields key → Says key T default fields a

/-- A value was seen under the key, or the fields to come say it. -/
def Kept (key : String) (T : α → List Char → Prop) (default seen : Option α)
    (fields : List (String × List Char)) (a : α) : Prop :=
  seen = some a ∧ Lacks fields key ∨ seen = none ∧ Says key T default fields a

theorem Kept.of_key (hkept : Kept key T default seen ((key, value) :: fields) a) :
    seen = none ∧ T a value ∧ Kept key T default (some a) fields a := by
  -- the key stands here, so it was neither seen before nor is it left out
  obtain ⟨-, hlacks⟩ | ⟨hseen, hsays⟩ := hkept
  · exact absurd rfl (hlacks (key, value) List.mem_cons_self)
  · cases hsays with
    | given hhas ha =>
      rw [Has, List.filter_cons_of_pos (by simp), List.cons.injEq] at hhas
      obtain ⟨hvalue, hrest⟩ := hhas
      cases hvalue
      refine ⟨hseen, ha, .inl ⟨rfl, fun field hfield => ?_⟩⟩
      simpa using List.filter_eq_nil_iff.1 hrest field hfield
    | absent _ hlacks => exact absurd rfl (hlacks (key, value) List.mem_cons_self)

theorem Kept.of_other (hother : other ≠ key)
    (hkept : Kept key T default seen ((other, value) :: fields) a) :
    Kept key T default seen fields a := by
  have hlacks (h : Lacks ((other, value) :: fields) key) : Lacks fields key :=
    (List.forall_mem_cons.1 h).2
  obtain ⟨hseen, h⟩ | ⟨hseen, hsays⟩ := hkept
  · exact .inl ⟨hseen, hlacks h⟩
  · refine .inr ⟨hseen, ?_⟩
    cases hsays with
    | given hhas ha =>
      rw [Has, List.filter_cons_of_neg (by simpa using hother)] at hhas
      exact .given hhas ha
    | absent hdefault h => exact .absent hdefault (hlacks h)

theorem Kept.last (hkept : Kept key T default seen [] a) : seen.or default = some a := by
  obtain ⟨rfl, -⟩ | ⟨rfl, hsays⟩ := hkept
  · rfl
  · cases hsays with
    | given hhas => cases hhas
    | absent hdefault => exact hdefault

/-- The last item of a list that need not have one. -/
inductive LastItem (T : α → List Char → Prop) (default : α) : α → List (List Char) → Prop
  | given {a : α} {part : List Char} : T a part → LastItem T default a [part]
  | absent : LastItem T default default []

theorem nextItem_last {item : Load α} {default : α} {parts : List (List Char)} {first : Bool}
    (hitem : Complete T item) (ha : LastItem T default a parts) (hw : Upto ']' first parts w)
    (rest : List Char) :
    ∃ found, found.getD default = a ∧ StopsAt ']' (nextItem first item) (w ++ rest) found rest := by
  cases ha with
  | given ha =>
    obtain ⟨more, hmore, hsome⟩ := nextItem_part hitem ha hw rest
    cases hmore with
    | @close _ g hg =>
      rw [List.append_assoc] at hsome
      exact ⟨some a, rfl, g, hg, hsome⟩
  | absent => exact ⟨none, rfl, nextItem_close hw rest⟩

theorem dueItem_part {item : Load α} {part : List Char} {parts : List (List Char)}
    (kind : RecordKind) (position : Nat) (hitem : Complete T item) (ha : T a part)
    (hw : Upto ']' (position == 0) (part :: parts) w) (rest : List Char) :
    ∃ more, Upto ']' false parts more ∧
      dueItem kind position item (w ++ rest) = .ok (a, more ++ rest) := by
  obtain ⟨more, hmore, hsome⟩ := nextItem_part hitem ha hw rest
  refine ⟨more, hmore, ?_⟩
  rw [dueItem, bind_of_ok hsome]
  rfl

end

end RowFilter.Catalog.File
