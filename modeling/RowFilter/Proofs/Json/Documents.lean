import RowFilter.Proofs.Grammar.Compositional
import RowFilter.Proofs.Json.Lexemes

/-! JSON documents and their texts. A text tells its document, except that numbers that are
not finite are written as `null`. The first character tells the kind of a value; from there
the parts follow one by one, since each of them ends where a comma or a bracket stands. -/

namespace RowFilter.Json

mutual

/-- The document as its text tells it, with `null` for numbers that are not finite. -/
def asWritten : Json → Json
  | .float (.infinite _) => .null
  | .float .nan => .null
  | .list items => .list (asWrittenItems items)
  | .record fields => .record (asWrittenFields fields)
  | j => j
termination_by structural j => j

def asWrittenItems : List Json → List Json
  | [] => []
  | j :: js => j.asWritten :: asWrittenItems js
termination_by structural js => js

def asWrittenFields : List (String × Json) → List (String × Json)
  | [] => []
  | (key, j) :: fields => (key, j.asWritten) :: asWrittenFields fields
termination_by structural fields => fields

end

def chars (j : Json) : List Char := j.compact.toList

def fieldChars (field : String × Json) : List Char :=
  (quoted field.1).toList ++ ':' :: field.2.chars

theorem asWrittenItems_eq_map (items : List Json) : asWrittenItems items = items.map asWritten := by
  induction items with
  | nil => rfl
  | cons j js ih => rw [asWrittenItems, ih, List.map_cons]

theorem asWrittenFields_eq_map (fields : List (String × Json)) :
    asWrittenFields fields = fields.map fun field => (field.1, field.2.asWritten) := by
  induction fields with
  | nil => rfl
  | cons field fields ih => rw [asWrittenFields, ih, List.map_cons]

theorem toList_compactItems (items : List Json) :
    (compactItems items).map String.toList = items.map chars := by
  induction items with
  | nil => rfl
  | cons j js ih => rw [compactItems, List.map_cons, ih, List.map_cons, chars]

theorem toList_compactFields (fields : List (String × Json)) :
    (compactFields fields).map String.toList = fields.map fieldChars := by
  induction fields with
  | nil => rfl
  | cons field fields ih =>
    rw [compactFields, List.map_cons, ih, List.map_cons]
    simp [fieldChars, chars]

theorem chars_list (items : List Json) :
    (list items).chars = '[' :: (joined [','] (items.map chars) ++ [']']) := by
  have hcomma : ",".toList = [','] := rfl
  rw [chars, compact, String.toList_append, String.toList_append, String.toList_intercalate,
    toList_compactItems, intercalate_eq_joined, hcomma]
  rfl

theorem chars_record (fields : List (String × Json)) :
    (record fields).chars = '\x7b' :: (joined [','] (fields.map fieldChars) ++ ['\x7d']) := by
  have hcomma : ",".toList = [','] := rfl
  rw [chars, compact, String.toList_append, String.toList_append, String.toList_intercalate,
    toList_compactFields, intercalate_eq_joined, hcomma]
  rfl

/-! ### The kind of a value -/

inductive Kind where
  | null
  | number
  | text
  | list
  | record
  deriving DecidableEq

def kind : Json → Kind
  | .null | .float (.infinite _) | .float .nan => .null
  | .int _ | .float (.finite _ _) => .number
  | .str _ => .text
  | .list _ => .list
  | .record _ => .record

/-- The kind of the values that start with the character. -/
def Kind.ofChar? (c : Char) : Option Kind :=
  if c.isDigit ∨ c = '.' ∨ c = '-' then some .number
  else if c = '"' then some .text
  else if c = '[' then some .list
  else if c = '\x7b' then some .record
  else if c = 'n' then some .null
  else none

variable {j k : Json} {rest other : List Char}

/-- What the values of a kind are. -/
def Kind.Shows : Kind → Json → Prop
  | .null, j => j.chars = ['n', 'u', 'l', 'l'] ∧ j.asWritten = .null
  | .number, j => ∃ n : Numeral, n.magnitude.Written ∧ n.json = j ∧ j.chars = n.chars
  | .text, j => ∃ s, j = .str s
  | .list, j => ∃ items, j = .list items
  | .record, j => ∃ fields, j = .record fields

theorem kind_shows (j : Json) : j.kind.Shows j := by
  cases j with
  | null => exact ⟨by simp [chars, compact], rfl⟩
  | int value => exact int_numeral value
  | float x =>
    cases x with
    | finite negative rank => exact float_numeral negative rank
    | infinite | nan => exact ⟨by simp [chars, compact, floatText], rfl⟩
  | str s => exact ⟨s, rfl⟩
  | list items => exact ⟨items, rfl⟩
  | record fields => exact ⟨fields, rfl⟩

theorem quoted_head (s : String) : ∃ more, (quoted s).toList = '"' :: more :=
  ⟨s.toList.flatMap escaped ++ ['"'], by simp [quoted]⟩

theorem chars_head (j : Json) :
    ∃ c more, j.chars = c :: more ∧ Kind.ofChar? c = some j.kind := by
  have hj := j.kind_shows
  cases hkind : j.kind <;> rw [hkind] at hj
  case null => exact ⟨'n', _, hj.1, rfl⟩
  case number =>
    obtain ⟨n, hn, -, hchars⟩ := hj
    rw [hchars, n.chars_eq_sign]
    cases n.negative with
    | true => exact ⟨'-', _, rfl, rfl⟩
    | false =>
      obtain ⟨c, more, hc, hhead⟩ := hn.head
      exact ⟨c, more, hc, if_pos (hhead.imp_right .inl)⟩
  case text =>
    obtain ⟨s, rfl⟩ := hj
    obtain ⟨more, hs⟩ := quoted_head s
    exact ⟨'"', more, hs, rfl⟩
  case list =>
    obtain ⟨items, rfl⟩ := hj
    exact ⟨_, _, chars_list items, rfl⟩
  case record =>
    obtain ⟨fields, rfl⟩ := hj
    exact ⟨_, _, chars_record fields, rfl⟩

/-- The first character tells the kind. -/
theorem shows_of_append_eq (h : j.chars ++ rest = k.chars ++ other) : j.kind.Shows k := by
  obtain ⟨c, more, hj, hc⟩ := j.chars_head
  obtain ⟨d, less, hk, hd⟩ := k.chars_head
  rw [hj, hk] at h
  obtain ⟨rfl, -⟩ := List.cons.inj h
  rw [Option.some.inj (hc.symm.trans hd)]
  exact k.kind_shows

/-! ### What a text tells -/

/-- The text of `a`, at the start of a document, tells what `g` keeps of `a` and where it ends. -/
def Told {α β : Type} (f : α → List Char) (g : α → β) (a : α) : Prop :=
  ∀ (b : α) (rest other : List Char), EndsValue rest → EndsValue other →
    f a ++ rest = f b ++ other → g a = g b ∧ rest = other

section

variable {α β : Type} {f : α → List Char} {g : α → β} {close : Char}

theorem endsValue_behind (hclose : close ∈ [']', '\x7d']) (as : List α) (rest : List Char) :
    EndsValue ((as.map f).flatMap ([','] ++ ·) ++ close :: rest) := by
  cases as with
  | nil => exact endsValue_cons (List.mem_cons_of_mem ',' hclose) rest
  | cons a as => exact endsValue_cons List.mem_cons_self _

theorem told_behind (hclose : close ∈ [']', '\x7d']) {as : List α} (htold : ∀ a ∈ as, Told f g a) :
    ∀ {bs : List α}, (as.map f).flatMap ([','] ++ ·) ++ close :: rest =
      (bs.map f).flatMap ([','] ++ ·) ++ close :: other → as.map g = bs.map g ∧ rest = other := by
  have hcomma : ',' ≠ close := by
    rintro rfl
    exact absurd hclose (by decide)
  induction as with
  | nil =>
    rintro (_ | ⟨b, bs⟩) h
    · exact ⟨rfl, List.cons_inj_right _ |>.1 h⟩
    · exact absurd (List.cons.inj h).1.symm hcomma
  | cons a as ih =>
    rintro (_ | ⟨b, bs⟩) h
    · exact absurd (List.cons.inj h).1 hcomma
    · obtain ⟨hfirst, hmore⟩ := List.forall_mem_cons.1 htold
      simp only [List.map_cons, List.flatMap_cons, List.append_assoc] at h
      obtain ⟨hg, hrest⟩ := hfirst b _ _ (endsValue_behind hclose as rest)
        (endsValue_behind hclose bs other) (List.append_cancel_left h)
      obtain ⟨hgs, hrest⟩ := ih hmore hrest
      exact ⟨by rw [List.map_cons, hg, hgs, List.map_cons], hrest⟩

/-- Values between commas are told up to the bracket that closes them, where no value starts
with that bracket. -/
theorem told_joined (hclose : close ∈ [']', '\x7d'])
    (hhead : ∀ a, ∃ c more, f a = c :: more ∧ c ≠ close)
    {as bs : List α} (htold : ∀ a ∈ as, Told f g a)
    (h : joined [','] (as.map f) ++ close :: rest = joined [','] (bs.map f) ++ close :: other) :
    as.map g = bs.map g ∧ rest = other := by
  have hstart (a : α) (cs ds : List Char) : f a ++ cs ≠ close :: ds := by
    obtain ⟨c, more, hc, hne⟩ := hhead a
    rw [hc]
    exact fun h => hne (List.cons.inj h).1
  cases as with
  | nil =>
    cases bs with
    | nil => exact ⟨rfl, List.cons_inj_right _ |>.1 h⟩
    | cons b bs =>
      rw [List.map_cons, joined, List.append_assoc] at h
      exact absurd h.symm (hstart b _ _)
  | cons a as =>
    cases bs with
    | nil =>
      rw [List.map_cons, joined, List.append_assoc] at h
      exact absurd h (hstart a _ _)
    | cons b bs =>
      obtain ⟨hfirst, hmore⟩ := List.forall_mem_cons.1 htold
      rw [List.map_cons, List.map_cons, joined, joined, List.append_assoc, List.append_assoc] at h
      obtain ⟨hg, hrest⟩ := hfirst b _ _ (endsValue_behind hclose as rest)
        (endsValue_behind hclose bs other) h
      obtain ⟨hgs, hrest⟩ := told_behind hclose hmore hrest
      exact ⟨by rw [List.map_cons, hg, hgs, List.map_cons], hrest⟩

end

theorem told_null (h : j.kind = .null) : Told chars asWritten j := by
  intro k rest other _ _ heq
  have hj := j.kind_shows
  have hk := shows_of_append_eq heq
  rw [h] at hj hk
  rw [hj.1, hk.1] at heq
  exact ⟨hj.2.trans hk.2.symm, List.append_cancel_left heq⟩

theorem told_number (h : j.kind = .number) : Told chars asWritten j := by
  intro k rest other hrest hother heq
  have hj := j.kind_shows
  have hk := shows_of_append_eq heq
  rw [h] at hj hk
  obtain ⟨n, hn, rfl, hj⟩ := hj
  obtain ⟨m, hm, rfl, hk⟩ := hk
  rw [hj, hk] at heq
  obtain ⟨rfl, hends⟩ := Numeral.chars_append_inj hn hm hrest hother heq
  exact ⟨rfl, hends⟩

theorem told_str (s : String) : Told chars asWritten (.str s) := by
  intro k rest other _ _ h
  obtain ⟨s', rfl⟩ := shows_of_append_eq h
  obtain ⟨rfl, hends⟩ := quoted_append_inj h
  exact ⟨rfl, hends⟩

theorem told_list {items : List Json} (htold : ∀ item ∈ items, Told chars asWritten item) :
    Told chars asWritten (.list items) := by
  have hhead (item : Json) : ∃ c more, item.chars = c :: more ∧ c ≠ ']' := by
    obtain ⟨c, more, hc, hkind⟩ := item.chars_head
    refine ⟨c, more, hc, ?_⟩
    rintro rfl
    cases hkind
  intro k rest other _ _ h
  obtain ⟨items', rfl⟩ := shows_of_append_eq h
  rw [chars_list, chars_list, List.cons_append, List.cons_append, List.append_assoc,
    List.append_assoc, List.cons_inj_right] at h
  obtain ⟨hitems, hends⟩ := told_joined (by decide) hhead htold h
  rw [asWritten, asWritten, asWrittenItems_eq_map, asWrittenItems_eq_map, hitems]
  exact ⟨rfl, hends⟩

theorem told_field {field : String × Json} (htold : Told chars asWritten field.2) :
    Told fieldChars (fun field => (field.1, field.2.asWritten)) field := by
  intro field' rest other hrest hother h
  simp only [fieldChars, List.append_assoc] at h
  obtain ⟨hkey, h⟩ := quoted_append_inj h
  obtain ⟨hvalue, hends⟩ := htold _ rest other hrest hother (List.cons_inj_right _ |>.1 h)
  exact ⟨Prod.ext hkey hvalue, hends⟩

theorem told_record {fields : List (String × Json)}
    (htold : ∀ field ∈ fields, Told chars asWritten field.2) :
    Told chars asWritten (.record fields) := by
  have hhead (field : String × Json) : ∃ c more, fieldChars field = c :: more ∧ c ≠ '\x7d' := by
    obtain ⟨more, hkey⟩ := quoted_head field.1
    exact ⟨'"', more ++ ':' :: field.2.chars, by rw [fieldChars, hkey]; rfl, by decide⟩
  intro k rest other _ _ h
  obtain ⟨fields', rfl⟩ := shows_of_append_eq h
  rw [chars_record, chars_record, List.cons_append, List.cons_append, List.append_assoc,
    List.append_assoc, List.cons_inj_right] at h
  obtain ⟨hfields, hends⟩ :=
    told_joined (by decide) hhead (fun field hfield => told_field (htold field hfield)) h
  rw [asWritten, asWritten, asWrittenFields_eq_map, asWrittenFields_eq_map, hfields]
  exact ⟨rfl, hends⟩

mutual

theorem told : ∀ j : Json, Told chars asWritten j
  | .null => told_null rfl
  | .int _ => told_number rfl
  | .float (.finite _ _) => told_number rfl
  | .float (.infinite _) => told_null rfl
  | .float .nan => told_null rfl
  | .str s => told_str s
  | .list items => told_list (toldItems items)
  | .record fields => told_record (toldFields fields)
termination_by structural j => j

theorem toldItems : ∀ items : List Json, ∀ item ∈ items, Told chars asWritten item
  | [] => nofun
  | item :: items => List.forall_mem_cons.2 ⟨told item, toldItems items⟩
termination_by structural items => items

theorem toldFields : ∀ fields : List (String × Json), ∀ field ∈ fields, Told chars asWritten field.2
  | [] => nofun
  | (_, value) :: fields => List.forall_mem_cons.2 ⟨told value, toldFields fields⟩
termination_by structural fields => fields

end

mutual

theorem compact_asWritten : ∀ j : Json, j.asWritten.compact = j.compact
  | .null | .int _ | .float (.finite _ _) | .float (.infinite _) | .float .nan | .str _ => rfl
  | .list items => by rw [asWritten, compact, compactItems_asWritten items, compact]
  | .record fields => by rw [asWritten, compact, compactFields_asWritten fields, compact]
termination_by structural j => j

theorem compactItems_asWritten :
    ∀ items : List Json, compactItems (asWrittenItems items) = compactItems items
  | [] => rfl
  | item :: items => by
    rw [asWrittenItems, compactItems, compact_asWritten item, compactItems_asWritten items,
      compactItems]
termination_by structural items => items

theorem compactFields_asWritten :
    ∀ fields : List (String × Json), compactFields (asWrittenFields fields) = compactFields fields
  | [] => rfl
  | (key, value) :: fields => by
    rw [asWrittenFields, compactFields, compact_asWritten value, compactFields_asWritten fields,
      compactFields]
termination_by structural fields => fields

end

/-- Two documents have one text if and only if they are the same document, apart from numbers
that are not finite. -/
theorem compact_eq_iff {j k : Json} : j.compact = k.compact ↔ j.asWritten = k.asWritten := by
  constructor
  · intro h
    have hchars : j.chars ++ [] = k.chars ++ [] := by rw [chars, h, chars]
    exact (told j k [] [] endsValue_nil endsValue_nil hchars).1
  · intro h
    rw [← compact_asWritten j, h, compact_asWritten k]

end RowFilter.Json
