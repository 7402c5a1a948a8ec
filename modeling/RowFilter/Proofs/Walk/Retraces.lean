import RowFilter.Proofs.Walk.Basic

/-! What one walk guarantees, and how the combinators pass it on. At a level, a walk retraces
a reader if it gives the same reply wherever it starts, leaves a suffix of its text at the
same nesting, enters no level beyond the limit and never stalls. The walk may be exchanged
for one that is the same at that level. -/

namespace RowFilter.Grammar

/-- A later cursor of a walk that is at the same nesting and took `least` characters. -/
structure Cursor.Reaches (least : Nat) (c c' : Cursor) : Prop where
  nesting : c'.nesting = c.nesting
  left : c'.left <:+ c.left
  taken : c'.left.length + least ≤ c.left.length
  deepest : c'.deepest ≤ max c.deepest maxNesting

namespace Cursor.Reaches

variable {c c' c'' : Cursor} {k l : Nat}

theorem refl (c : Cursor) : Reaches 0 c c :=
  ⟨rfl, List.suffix_rfl, Nat.le_refl _, Nat.le_max_left ..⟩

theorem trans (h : Reaches k c c') (h' : Reaches l c' c'') : Reaches (k + l) c c'' where
  nesting := h'.nesting.trans h.nesting
  left := h'.left.trans h.left
  taken := by
    have hfirst := h.taken
    have hsecond := h'.taken
    omega
  deepest := by
    have hfirst := h.deepest
    have hsecond := h'.deepest
    omega

theorem mono (h : Reaches k c c') (hle : l ≤ k) : Reaches l c c' :=
  { h with taken := Nat.le_trans (Nat.add_le_add_left hle _) h.taken }

theorem level {level : Nat} (h : Reaches k c c') (hc : c.nesting.level = level) :
    c'.nesting.level = level := by
  rw [h.nesting]
  exact hc

/-- Giving the text back keeps only the deepest level that was entered. -/
theorem backTo (h : Reaches k c c') : Reaches 0 c (c'.backTo c) :=
  ⟨h.nesting, List.suffix_rfl, Nat.le_refl _, h.deepest⟩

/-- One level deeper, as long as that is within the limit, and back again. -/
theorem leave (h : Reaches k c.enter c') (hlimit : c.nesting.level < maxNesting) :
    Reaches k c c'.leave where
  nesting := by
    unfold Cursor.leave
    rw [h.nesting]
    rfl
  left := h.left
  taken := h.taken
  deepest := by
    have hdeepest : c'.deepest ≤ max (max c.deepest (c.nesting.level + 1)) maxNesting := h.deepest
    change c'.deepest ≤ _
    omega

end Cursor.Reaches

variable {α β : Type}

/-- A trip from a cursor and the reply of a reader say the same. A halted trip stands where
the limit was passed; a stalled one says nothing. -/
inductive Trip.Matches (least : Nat) (c : Cursor) : Trip α → Reply α → Prop where
  | read {a : α} {c' : Cursor} : c.Reaches least c' →
    Matches least c (.read a c') (.read a c'.left c'.nesting)
  | refused {c' : Cursor} : c.Reaches 0 c' →
    Matches least c (.stopped .refused c') (.refused c'.nesting)
  | halted {c' : Cursor} : c.Reaches 0 c' →
    Matches least c (.stopped .halted c'.mark) (.halted c'.mark.nesting)

namespace Trip.Matches

variable {c c' : Cursor} {k l : Nat} {trip : Trip α} {reply : Reply α}

/-- What matches from a later cursor matches from an earlier one. -/
theorem after (hreach : c.Reaches k c') (h : trip.Matches l c' reply) :
    trip.Matches (k + l) c reply := by
  cases h with
  | read h => exact .read (hreach.trans h)
  | refused h => exact .refused ((hreach.trans h).mono (Nat.zero_le _))
  | halted h => exact .halted ((hreach.trans h).mono (Nat.zero_le _))

theorem mono (h : trip.Matches k c reply) (hle : l ≤ k) : trip.Matches l c reply := by
  cases h with
  | read h => exact .read (h.mono hle)
  | refused h => exact .refused h
  | halted h => exact .halted h

theorem reply?_eq (h : trip.Matches k c reply) : trip.reply? = some reply := by
  cases h <;> rfl

/-- In every outcome the cursor stands at a suffix, at the same level and within the limit. -/
theorem cursor (h : trip.Matches k c reply) : trip.cursor.left <:+ c.left ∧
    trip.cursor.nesting.level = c.nesting.level ∧
      trip.cursor.deepest ≤ max c.deepest maxNesting := by
  cases h with
  | read h | refused h | halted h => exact ⟨h.left, h.level rfl, h.deepest⟩

theorem taken {a : α} (h : (Trip.read a c').Matches k c reply) :
    c'.left.length + k ≤ c.left.length := by
  cases h with
  | read h => exact h.taken

theorem not_stalled (h : trip.Matches k c reply) : ∀ d, trip ≠ .stopped .stalled d := by
  rintro d rfl
  cases h

theorem leave (h : trip.Matches k c.enter reply) (hlimit : c.nesting.level < maxNesting) :
    trip.leave.Matches k c reply.leave := by
  cases h with
  | read h => exact .read (h.leave hlimit)
  | refused h => exact .refused (h.leave hlimit)
  | halted h => exact .halted (h.leave hlimit)

end Trip.Matches

/-- At this level `p` and `q` are the same walk, it takes `least` characters where it reads a
value, and it matches the reader `r`. -/
structure Retraces (level least : Nat) (p q : Walk α) (r : Reader α) : Prop where
  same {c : Cursor} : c.nesting.level = level → p c = q c
  replies {c : Cursor} : c.nesting.level = level → (q c).Matches least c (r c.nesting c.left)

namespace Retraces

variable {level k l : Nat} {p q p' q' : Walk α} {r r' : Reader α}

theorem mono (h : Retraces level k p q r) (hle : l ≤ k) : Retraces level l p q r :=
  ⟨h.same, fun hc => (h.replies hc).mono hle⟩

/-- Two readers that the same walk retraces reply alike. -/
theorem unique (h : Retraces level k p q r) (h' : Retraces level l p q' r') {c : Cursor}
    (hc : c.nesting.level = level) : r c.nesting c.left = r' c.nesting c.left := by
  have hreply := (h.replies hc).reply?_eq
  rw [← h.same hc, h'.same hc, (h'.replies hc).reply?_eq] at hreply
  exact (Option.some.inj hreply).symm

theorem value (a : α) : Retraces level 0 (pure a) (pure a) (pure a) :=
  ⟨fun _ => rfl, fun _ => .read (.refl _)⟩

theorem ofOption {read : List Char → Option (α × List Char)}
    (h : ∀ {cs a rest}, read cs = some (a, rest) → rest <:+ cs ∧ rest.length + k ≤ cs.length) :
    Retraces level k (Walk.ofOption read) (Walk.ofOption read) (Reader.ofOption read) := by
  refine ⟨fun _ => rfl, fun {c} _ => ?_⟩
  unfold Walk.ofOption Reader.ofOption
  cases hread : read c.left with
  | none => exact .refused (.refl c)
  | some found =>
    obtain ⟨hleft, htaken⟩ := h hread
    have hreach : c.Reaches k { c with left := found.2 } :=
      ⟨rfl, hleft, htaken, Nat.le_max_left ..⟩
    exact .read hreach

theorem bind {f g : α → Walk β} {s : α → Reader β} (h : Retraces level k p q r)
    (hf : ∀ a, Retraces level l (f a) (g a) (s a)) :
    Retraces level (k + l) (p >>= f) (q >>= g) (r >>= s) := by
  constructor
  · intro c hc
    have hreplies := h.replies hc
    simp only [Bind.bind]
    rw [h.same hc]
    generalize q c = trip, r c.nesting c.left = reply at hreplies
    cases hreplies with
    | read hreach => exact (hf _).same (hreach.level hc)
    | refused | halted => rfl
  · intro c hc
    have hreplies := h.replies hc
    simp only [Bind.bind]
    generalize q c = trip, r c.nesting c.left = reply at hreplies
    cases hreplies with
    | read hreach => exact .after hreach ((hf _).replies (hreach.level hc))
    | refused hreach => exact .refused hreach
    | halted hreach => exact .halted hreach

theorem map (f : α → β) (h : Retraces level k p q r) :
    Retraces level k (f <$> p) (f <$> q) (f <$> r) :=
  h.bind fun a => .value (f a)

/-- An alternative, and the others where it is refused. -/
theorem orElse {rs : List (Reader α)} (h : Retraces level k p q r)
    (h' : Retraces level k p' q' (Reader.firstOf rs)) :
    Retraces level k (p.orElse p') (q.orElse q') (Reader.firstOf (r :: rs)) := by
  constructor
  · intro c hc
    have hreplies := h.replies hc
    unfold Walk.orElse
    rw [h.same hc]
    generalize q c = trip, r c.nesting c.left = reply at hreplies
    cases hreplies with
    | read | halted => rfl
    | refused hreach => exact h'.same (hreach.backTo.level hc)
  · intro c hc
    have hreplies := h.replies hc
    simp only [Walk.orElse, Reader.firstOf]
    generalize q c = trip, r c.nesting c.left = reply at hreplies
    cases hreplies with
    | read hreach => exact .read hreach
    | halted hreach => exact .halted hreach
    | refused hreach =>
      exact (Trip.Matches.after hreach.backTo (h'.replies (hreach.backTo.level hc))).mono
        (Nat.le_add_left ..)

theorem last (h : Retraces level k p q r) : Retraces level k p q (Reader.firstOf [r]) := by
  have hfirst : Reader.firstOf [r] = r := by
    funext n cs
    simp only [Reader.firstOf]
    cases r n cs <;> rfl
  rw [hfirst]
  exact h

theorem optional (h : Retraces level k p q r) :
    Retraces level 0 (Walk.optional p) (Walk.optional q) (Reader.optional r) := by
  have hfirst : Reader.optional r = Reader.firstOf [some <$> r, pure none] := by
    funext n cs
    simp only [Reader.optional, Reader.firstOf, Functor.map]
    cases r n cs <;> rfl
  rw [hfirst]
  exact ((h.map some).mono (Nat.zero_le k)).orElse (value none).last

theorem verify (h : Retraces level k p q r) (accepts : α → Bool) :
    Retraces level k (p.verify accepts) (q.verify accepts)
      (r >>= fun a => if accepts a then pure a else Reader.refuse) := by
  constructor
  · intro c hc
    unfold Walk.verify
    rw [h.same hc]
  · intro c hc
    have hreplies := h.replies hc
    simp only [Walk.verify, Bind.bind]
    generalize q c = trip, r c.nesting c.left = reply at hreplies
    cases hreplies with
    | @read a c' hreach =>
      simp only
      cases accepts a with
      | true => exact .read hreach
      | false => exact .refused hreach.backTo
    | refused hreach => exact .refused hreach
    | halted hreach => exact .halted hreach

/-- Looking ahead for a lexeme takes nothing. -/
theorem unlessNext (read : List Char → Option (α × List Char)) :
    Retraces level 0 (Walk.ofOption read).unlessNext (Walk.ofOption read).unlessNext
      (Reader.ofOption fun cs => if (read cs).isSome then none else some ((), cs)) := by
  refine ⟨fun _ => rfl, fun {c} _ => ?_⟩
  simp only [Walk.unlessNext, Walk.ofOption, Reader.ofOption]
  cases read c.left with
  | none => exact .read (.refl c)
  | some found => exact .refused (.refl c)

/-- A walk that takes a character never stalls. -/
theorem consuming (h : Retraces level (k + 1) p q r) :
    Retraces level (k + 1) p.consuming q.consuming r := by
  constructor
  · intro c hc
    unfold Walk.consuming
    rw [h.same hc]
  · intro c hc
    have hreplies := h.replies hc
    unfold Walk.consuming
    generalize q c = trip, r c.nesting c.left = reply at hreplies
    cases hreplies with
    | @read a c' hreach =>
      have htaken := hreach.taken
      simp only [if_pos (show c'.left.length < c.left.length by omega)]
      exact .read hreach
    | refused hreach => exact .refused hreach
    | halted hreach => exact .halted hreach

/-- A loop over a walk that takes a character reads what the reader does, up to the number of
values that the length of the text allows, and it needs no such number. -/
theorem many_atMost (h : Retraces level (k + 1) p q r) {count : Nat} {c : Cursor}
    (hc : c.nesting.level = level) (hcount : c.left.length < count) :
    Walk.many p c = Walk.many q c ∧
      (Walk.many q c).Matches 0 c (Reader.atMost count r c.nesting c.left) := by
  -- each value shortens the text, so it stays below what is left of the bound
  induction count generalizing c with
  | zero => exact absurd hcount (Nat.not_lt_zero _)
  | succ count ih =>
    have hreplies := h.replies hc
    rw [Walk.many, Walk.many, h.same hc]
    simp only [Reader.atMost]
    generalize q c = trip, r c.nesting c.left = reply at hreplies
    cases hreplies with
    | refused hreach => exact ⟨rfl, .read hreach.backTo⟩
    | halted hreach => exact ⟨rfl, .halted hreach⟩
    | @read a c' hreach =>
      have htaken := hreach.taken
      obtain ⟨hsame, hmore⟩ := ih (hreach.level hc) (show c'.left.length < count by omega)
      simp only [if_pos (show c'.left.length < c.left.length by omega)]
      rw [hsame]
      refine ⟨rfl, ?_⟩
      generalize Walk.many q c' = trip, Reader.atMost count r c'.nesting c'.left = reply at hmore
      cases hmore with
      | read hreach' => exact .read ((hreach.trans hreach').mono (Nat.zero_le _))
      | refused hreach' => exact .refused ((hreach.trans hreach').mono (Nat.zero_le _))
      | halted hreach' => exact .halted ((hreach.trans hreach').mono (Nat.zero_le _))

theorem many (h : Retraces level (k + 1) p q r) :
    Retraces level 0 (Walk.many p) (Walk.many q) (Reader.many r) :=
  ⟨fun hc => (h.many_atMost hc (Nat.lt_succ_self _)).1,
    fun hc => (h.many_atMost hc (Nat.lt_succ_self _)).2⟩

theorem separated {sep sep' : Walk Unit} {s : Reader Unit} (h : Retraces level k p q r)
    (hsep : Retraces level (l + 1) sep sep' s) :
    Retraces level k (Walk.separated p sep) (Walk.separated q sep') (Reader.separated r s) := by
  have hnext := (hsep.consuming.bind fun _ => h).mono (show 0 + 1 ≤ l + 1 + k by omega)
  exact h.bind fun first => hnext.many.bind fun more => .value (first :: more)

/-- Below the limit nesting only counts. -/
theorem nested (hlevel : level < maxNesting) (h : Retraces (level + 1) k p q r) :
    Retraces level k (Walk.nested p) (Walk.nested q) (Grammar.nested .enforced r) := by
  constructor
  · intro c hc
    have henter : c.enter.nesting.level = level + 1 := congrArg (· + 1) hc
    simp only [Walk.nested, h.same henter]
  · intro c hc
    have henter : c.enter.nesting.level = level + 1 := congrArg (· + 1) hc
    have hlimit : c.nesting.level < maxNesting := by omega
    simp only [Walk.nested, Grammar.nested, if_pos hlimit]
    exact (h.replies henter).leave hlimit

/-- At the limit nesting halts, whatever it would enter. -/
theorem nested_limit : Retraces maxNesting k (Walk.nested p) (Walk.nested q)
    (Grammar.nested .enforced r) := by
  constructor
  · intro c hc
    simp only [Walk.nested, if_neg (Nat.not_lt.2 (Nat.le_of_eq hc.symm))]
  · intro c hc
    simp only [Walk.nested, Grammar.nested, if_neg (Nat.not_lt.2 (Nat.le_of_eq hc.symm))]
    exact .halted (.refl c)

end Retraces

end RowFilter.Grammar
