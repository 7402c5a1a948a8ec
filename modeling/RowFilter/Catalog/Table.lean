/-! Tables in order of first insertion. Inserting under a known key replaces the value
and keeps the place; a table never holds a key twice. -/

namespace RowFilter

/-- Replaces the value under `key`, or appends an entry. -/
def putEntry {α : Type} (key : String) (value : α) : List (String × α) → List (String × α)
  | [] => [(key, value)]
  | (k, v) :: rest => if k = key then (key, value) :: rest else (k, v) :: putEntry key value rest

theorem keys_putEntry {α : Type} (key : String) (value : α) (entries : List (String × α)) :
    (putEntry key value entries).map Prod.fst =
      if key ∈ entries.map Prod.fst then entries.map Prod.fst
      else entries.map Prod.fst ++ [key] := by
  induction entries with
  | nil => simp [putEntry]
  | cons entry rest ih =>
    obtain ⟨k, v⟩ := entry
    by_cases h : k = key
    · simp [putEntry, h]
    · have h' : ¬ key = k := fun e => h e.symm
      simp only [putEntry, h, if_false, List.map_cons, ih, List.mem_cons, h', false_or]
      split <;> simp

structure Table (α : Type) where
  entries : List (String × α)
  nodup : (entries.map Prod.fst).Nodup

namespace Table

variable {α : Type}

def empty : Table α := ⟨[], by simp⟩

def keys (t : Table α) : List String := t.entries.map Prod.fst

def size (t : Table α) : Nat := t.entries.length

def find? (t : Table α) (key : String) : Option α := t.entries.lookup key

def contains (t : Table α) (key : String) : Bool := (t.find? key).isSome

def insert (t : Table α) (key : String) (value : α) : Table α :=
  ⟨putEntry key value t.entries, by
    rw [keys_putEntry]
    split
    · exact t.nodup
    · rename_i h
      rw [List.nodup_append]
      exact ⟨t.nodup, by simp, fun a ha b hb => by
        rw [List.mem_singleton] at hb
        exact fun e => h (hb ▸ e ▸ ha)⟩⟩

/-- Keeps the entries whose value passes, in order. -/
def keep (t : Table α) (passes : α → Bool) : Table α :=
  ⟨t.entries.filter fun entry => passes entry.2,
    t.nodup.sublist (List.filter_sublist.map Prod.fst)⟩

theorem keys_insert (t : Table α) (key : String) (value : α) :
    (t.insert key value).keys = if key ∈ t.keys then t.keys else t.keys ++ [key] :=
  keys_putEntry key value t.entries

theorem length_keys (t : Table α) : t.keys.length = t.size := by simp [keys, size]

theorem find?_insert (t : Table α) (key other : String) (value : α) :
    (t.insert key value).find? other = if other = key then some value else t.find? other := by
  obtain ⟨entries, nodup⟩ := t
  simp only [find?, insert]
  clear nodup
  induction entries with
  | nil =>
    by_cases h : other = key
    · simp [putEntry, h]
    · simp [putEntry, List.lookup_cons, beq_eq_false_iff_ne.2 h, h]
  | cons entry rest ih =>
    obtain ⟨k, v⟩ := entry
    simp only [putEntry]
    split
    · rename_i hk
      subst hk
      by_cases h : other = k
      · simp [h]
      · simp [List.lookup_cons, h, beq_eq_false_iff_ne.2 h]
    · rename_i hk
      by_cases h : other = k
      · subst h; simp [hk]
      · simp [List.lookup_cons, beq_eq_false_iff_ne.2 h, ih]

theorem find?_keep (t : Table α) (passes : α → Bool) (key : String) :
    (t.keep passes).find? key = (t.find? key).filter passes := by
  obtain ⟨entries, nodup⟩ := t
  simp only [find?, keep]
  induction entries with
  | nil => rfl
  | cons entry rest ih =>
    obtain ⟨k, v⟩ := entry
    obtain ⟨absent, nodup⟩ := List.nodup_cons.1 nodup
    have hrest := ih nodup
    by_cases hk : key = k
    · subst hk
      cases hp : passes v with
      | true => simp [hp, Option.filter]
      | false =>
        -- the key was unique, so nothing behind its entry answers for it
        have hnone : rest.lookup key = none := by
          rw [List.lookup_eq_none_iff]
          intro other hm
          exact bne_iff_ne.2 fun he => absent (List.mem_map.2 ⟨other, hm, he.symm⟩)
        rw [hnone] at hrest
        rw [List.filter_cons_of_neg (by simp [hp]), hrest]
        simp [Option.filter, hp]
    · have hb := beq_eq_false_iff_ne.2 hk
      cases hp : passes v <;> simp [hp, List.lookup_cons, hb, hrest]

end Table

end RowFilter
