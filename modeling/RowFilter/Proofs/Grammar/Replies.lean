import RowFilter.Grammar.Reader

/-! What the combinators of readers do. `Accepts` takes a reading apart, wherever it
happened; `Reads` and `Refuses` put one together at a level, whatever place passed the
limit before. Repetition is a relation of its own, so that a loop is read one value
after the other. -/

namespace RowFilter.Grammar

namespace Reader

variable {α β : Type}

/-- The reader reads `a` from some nesting on. -/
def Accepts (p : Reader α) (cs : List Char) (a : α) (rest : List Char) : Prop :=
  ∃ n n', p n cs = .read a rest n'

/-- The reader is refused from some nesting on. -/
def Rejects (p : Reader α) (cs : List Char) : Prop := ∃ n n', p n cs = .refused n'

/-- At this level the reader reads `a` and comes back to the level. -/
def Reads (p : Reader α) (level : Nat) (cs : List Char) (a : α) (rest : List Char) : Prop :=
  ∀ past, ∃ past', p ⟨level, past⟩ cs = .read a rest ⟨level, past'⟩

/-- At this level the reader is refused and comes back to the level. -/
def Refuses (p : Reader α) (level : Nat) (cs : List Char) : Prop :=
  ∀ past, ∃ past', p ⟨level, past⟩ cs = .refused ⟨level, past'⟩

variable {p : Reader α} {ps : List (Reader α)} {f : α → Reader β} {g : α → β}
variable {cs mid rest : List Char} {a : α} {b : β} {as : List α} {level : Nat}

theorem accepts_pure {a' : α} : (pure a : Reader α).Accepts cs a' rest ↔ a = a' ∧ cs = rest := by
  constructor
  · intro hrun
    obtain ⟨n, n', h⟩ := hrun
    cases h
    exact ⟨rfl, rfl⟩
  · intro heq
    obtain ⟨rfl, rfl⟩ := heq
    exact ⟨⟨0, none⟩, _, rfl⟩

theorem Accepts.bind (h : (p >>= f).Accepts cs b rest) :
    ∃ a mid, p.Accepts cs a mid ∧ (f a).Accepts mid b rest := by
  obtain ⟨n, n', h⟩ := h
  simp only [Bind.bind] at h
  split at h
  · rename_i a mid n₁ hp
    exact ⟨a, mid, ⟨n, n₁, hp⟩, n₁, n', h⟩
  · cases h
  · cases h

theorem Accepts.map (h : (g <$> p).Accepts cs b rest) : ∃ a, p.Accepts cs a rest ∧ g a = b := by
  obtain ⟨a, mid, hp, hb⟩ := Accepts.bind (f := fun a => pure (g a)) h
  obtain ⟨rfl, rfl⟩ := accepts_pure.1 hb
  exact ⟨a, hp, rfl⟩

theorem accepts_ofOption {read : List Char → Option (α × List Char)} :
    (ofOption read).Accepts cs a rest ↔ read cs = some (a, rest) := by
  constructor
  · intro hrun
    obtain ⟨n, n', h⟩ := hrun
    unfold ofOption at h
    split at h
    · rename_i hr
      cases h
      exact hr
    · cases h
  · intro h
    exact ⟨⟨0, none⟩, ⟨0, none⟩, by rw [ofOption, h]⟩

theorem not_accepts_refuse : ¬ (refuse : Reader α).Accepts cs a rest := by
  intro hrun
  obtain ⟨n, n', h⟩ := hrun
  cases h

/-- The alternative that was read stands behind refused ones only. -/
theorem Accepts.firstOf (h : (Reader.firstOf (p :: ps)).Accepts cs a rest) :
    p.Accepts cs a rest ∨ p.Rejects cs ∧ (Reader.firstOf ps).Accepts cs a rest := by
  obtain ⟨n, n', h⟩ := h
  simp only [Reader.firstOf] at h
  split at h
  · rename_i hp
    cases h
    exact .inl ⟨n, _, hp⟩
  · rename_i n₁ hp
    exact .inr ⟨⟨n, n₁, hp⟩, n₁, n', h⟩
  · cases h

theorem not_accepts_firstOf_nil : ¬ (firstOf [] : Reader α).Accepts cs a rest :=
  not_accepts_refuse

theorem Rejects.firstOf (h : (Reader.firstOf ps).Rejects cs) : ∀ p ∈ ps, p.Rejects cs := by
  induction ps with
  | nil => simp
  | cons p ps ih =>
    obtain ⟨n, n', h⟩ := h
    simp only [Reader.firstOf] at h
    split at h
    · cases h
    · rename_i n₁ hp
      rintro q (_ | ⟨_, hq⟩)
      · exact ⟨n, n₁, hp⟩
      · exact ih ⟨n₁, n', h⟩ q hq
    · cases h

/-- The reader does not halt at once everywhere. -/
def Entered (p : Reader α) : Prop := ∃ cs, p.Rejects cs ∨ ∃ a rest, p.Accepts cs a rest

theorem Rejects.bind (h : (p >>= f).Rejects cs) : p.Entered := by
  obtain ⟨n, n', h⟩ := h
  simp only [Bind.bind] at h
  split at h
  · rename_i a mid n₁ hp
    exact ⟨cs, .inr ⟨a, mid, n, n₁, hp⟩⟩
  · rename_i n₁ hp
    exact ⟨cs, .inl ⟨n, n₁, hp⟩⟩
  · cases h

theorem Entered.bind (h : (p >>= f).Entered) : p.Entered := by
  obtain ⟨cs, h | ⟨b, rest, h⟩⟩ := h
  · exact Rejects.bind h
  · obtain ⟨a, mid, hp, -⟩ := Accepts.bind h
    exact ⟨cs, .inr ⟨a, mid, hp⟩⟩

theorem Accepts.optional {result : Option α} (h : (Reader.optional p).Accepts cs result rest) :
    (∃ a, result = some a ∧ p.Accepts cs a rest) ∨
      result = none ∧ cs = rest ∧ p.Rejects cs := by
  obtain ⟨n, n', h⟩ := h
  simp only [Reader.optional] at h
  split at h
  · rename_i a _ _ hp
    cases h
    exact .inl ⟨a, rfl, n, _, hp⟩
  · rename_i hp
    cases h
    exact .inr ⟨rfl, rfl, n, _, hp⟩
  · cases h

/-- Readings one behind the other. -/
inductive Chained (R : List Char → α → List Char → Prop) :
    List Char → List α → List Char → Prop
  | nil (cs : List Char) : Chained R cs [] cs
  | cons {cs mid rest : List Char} {a : α} {as : List α} :
    R cs a mid → Chained R mid as rest → Chained R cs (a :: as) rest

theorem Accepts.atMost {count : Nat} (h : (Reader.atMost count p).Accepts cs as rest) :
    Chained p.Accepts cs as rest := by
  induction count generalizing cs as with
  | zero =>
    obtain ⟨rfl, rfl⟩ := accepts_pure.1 h
    exact .nil _
  | succ count ih =>
    obtain ⟨n, n', h⟩ := h
    simp only [Reader.atMost] at h
    split at h
    · rename_i a mid n₁ hp
      split at h
      · rename_i more _ _ hmore
        cases h
        exact .cons ⟨n, n₁, hp⟩ (ih ⟨n₁, _, hmore⟩)
      · cases h
      · cases h
    · cases h
      exact .nil _
    · cases h

theorem Accepts.many (h : (Reader.many p).Accepts cs as rest) : Chained p.Accepts cs as rest := by
  obtain ⟨n, n', h⟩ := h
  exact Accepts.atMost ⟨n, n', h⟩

theorem Accepts.separated {separator : Reader Unit}
    (h : (Reader.separated p separator).Accepts cs as rest) :
    ∃ a more mid, as = a :: more ∧ p.Accepts cs a mid ∧
      Chained (do separator; p : Reader α).Accepts mid more rest := by
  obtain ⟨a, mid, ha, h⟩ := h.bind
  obtain ⟨more, mid', hmore, h⟩ := h.bind
  obtain ⟨rfl, rfl⟩ := accepts_pure.1 h
  exact ⟨a, more, mid, rfl, ha, hmore.many⟩

theorem reads_pure : (pure a : Reader α).Reads level cs a cs := fun past => ⟨past, rfl⟩

theorem Reads.bind (hp : p.Reads level cs a mid) (hf : (f a).Reads level mid b rest) :
    (p >>= f).Reads level cs b rest := by
  intro past
  obtain ⟨past₁, hp⟩ := hp past
  obtain ⟨past₂, hf⟩ := hf past₁
  exact ⟨past₂, by simp only [Bind.bind, hp, hf]⟩

theorem Reads.seq {q : Reader β} (hp : p.Reads level cs a mid) (hq : q.Reads level mid b rest) :
    (do let _ ← p; q : Reader β).Reads level cs b rest :=
  hp.bind hq

theorem Reads.map (hp : p.Reads level cs a rest) : (g <$> p).Reads level cs (g a) rest :=
  hp.bind reads_pure

theorem Refuses.bind (hp : p.Refuses level cs) : (p >>= f).Refuses level cs := by
  intro past
  obtain ⟨past₁, hp⟩ := hp past
  exact ⟨past₁, by simp only [Bind.bind, hp]⟩

theorem Refuses.map (hp : p.Refuses level cs) : (g <$> p).Refuses level cs := hp.bind

theorem Reads.bind_refuses (hp : p.Reads level cs a mid) (hf : (f a).Refuses level mid) :
    (p >>= f).Refuses level cs := by
  intro past
  obtain ⟨past₁, hp⟩ := hp past
  obtain ⟨past₂, hf⟩ := hf past₁
  exact ⟨past₂, by simp only [Bind.bind, hp, hf]⟩

theorem reads_ofOption {read : List Char → Option (α × List Char)}
    (h : read cs = some (a, rest)) : (ofOption read).Reads level cs a rest :=
  fun past => ⟨past, by rw [ofOption, h]⟩

theorem refuses_ofOption {read : List Char → Option (α × List Char)} (h : read cs = none) :
    (ofOption read).Refuses level cs :=
  fun past => ⟨past, by rw [ofOption, h]⟩

theorem Reads.firstOf (hp : p.Reads level cs a rest) :
    (Reader.firstOf (p :: ps)).Reads level cs a rest := by
  intro past
  obtain ⟨past₁, hp⟩ := hp past
  exact ⟨past₁, by simp only [Reader.firstOf, hp]⟩

theorem Refuses.firstOf_reads (hp : p.Refuses level cs)
    (hps : (Reader.firstOf ps).Reads level cs a rest) :
    (Reader.firstOf (p :: ps)).Reads level cs a rest := by
  intro past
  obtain ⟨past₁, hp⟩ := hp past
  obtain ⟨past₂, hps⟩ := hps past₁
  exact ⟨past₂, by simp only [Reader.firstOf, hp, hps]⟩

theorem refuses_firstOf (h : ∀ p ∈ ps, p.Refuses level cs) : (firstOf ps).Refuses level cs := by
  induction ps with
  | nil => exact fun past => ⟨past, rfl⟩
  | cons p ps ih =>
    intro past
    obtain ⟨past₁, hp⟩ := h p (List.mem_cons_self ..) past
    obtain ⟨past₂, hps⟩ := ih (fun p hp => h p (List.mem_cons_of_mem _ hp)) past₁
    exact ⟨past₂, by simp only [firstOf, hp, hps]⟩

theorem Reads.optional (hp : p.Reads level cs a rest) :
    (Reader.optional p).Reads level cs (some a) rest := by
  intro past
  obtain ⟨past₁, hp⟩ := hp past
  exact ⟨past₁, by simp only [Reader.optional, hp]⟩

theorem Refuses.optional (hp : p.Refuses level cs) :
    (Reader.optional p).Reads level cs none cs := by
  intro past
  obtain ⟨past₁, hp⟩ := hp past
  exact ⟨past₁, by simp only [Reader.optional, hp]⟩

/-- A loop that may take one more value than there are ends where the next is refused. -/
theorem reads_atMost {count : Nat} (h : Chained (p.Reads level) cs as rest)
    (hcount : as.length < count) (hstop : p.Refuses level rest) :
    (atMost count p).Reads level cs as rest := by
  induction h generalizing count with
  | nil cs =>
    obtain ⟨count, rfl⟩ := Nat.exists_eq_succ_of_ne_zero (Nat.ne_of_gt hcount)
    intro past
    obtain ⟨past₁, hp⟩ := hstop past
    exact ⟨past₁, by simp only [atMost, hp]⟩
  | cons hp _ ih =>
    obtain ⟨count, rfl⟩ := Nat.exists_eq_succ_of_ne_zero (Nat.ne_of_gt (Nat.zero_lt_of_lt hcount))
    intro past
    obtain ⟨past₁, hp⟩ := hp past
    obtain ⟨past₂, hmore⟩ := ih (Nat.lt_of_succ_lt_succ hcount) hstop past₁
    exact ⟨past₂, by simp only [atMost, hp, hmore]⟩

theorem reads_many (h : Chained (p.Reads level) cs as rest) (hcount : as.length ≤ cs.length)
    (hstop : p.Refuses level rest) : (many p).Reads level cs as rest :=
  reads_atMost h (Nat.lt_succ_of_le hcount) hstop

end Reader

variable {α : Type} {p : Reader α} {cs rest : List Char} {a : α} {guard : Guard} {level : Nat}

theorem Reader.Accepts.nested (h : (Grammar.nested guard p).Accepts cs a rest) :
    p.Accepts cs a rest := by
  have hleave {n n' : Nesting} (h : (p n cs).leave = .read a rest n') : p.Accepts cs a rest := by
    cases hp : p n cs with
    | read a' rest' n₁ =>
      rw [hp] at h
      cases h
      exact ⟨n, n₁, hp⟩
    | refused n₁ | halted n₁ =>
      rw [hp] at h
      cases h
  obtain ⟨n, n', h⟩ := h
  unfold Grammar.nested at h
  split at h
  · exact hleave h
  · cases guard
    · cases h
    · exact hleave h

/-- One more level fits below the limit, or the limit is only observed. -/
def Fits (guard : Guard) (level : Nat) : Prop := guard = .observed ∨ level ≤ maxNesting

theorem nested_eq (hfit : Fits guard (level + 1)) (past : Option (List Char)) :
    ∃ past', nested guard p ⟨level, past⟩ cs = (p ⟨level + 1, past'⟩ cs).leave := by
  unfold nested
  split
  · exact ⟨past, rfl⟩
  · rename_i hlimit
    rcases hfit with rfl | hfit
    · exact ⟨_, rfl⟩
    · exact absurd hfit hlimit

theorem Reader.Reads.nested (hp : p.Reads (level + 1) cs a rest) (hfit : Fits guard (level + 1)) :
    (Grammar.nested guard p).Reads level cs a rest := by
  intro past
  obtain ⟨past₁, h⟩ := nested_eq hfit past
  obtain ⟨past₂, hp⟩ := hp past₁
  exact ⟨past₂, by rw [h, hp]; rfl⟩

theorem Reader.Refuses.nested (hp : p.Refuses (level + 1) cs) (hfit : Fits guard (level + 1)) :
    (Grammar.nested guard p).Refuses level cs := by
  intro past
  obtain ⟨past₁, h⟩ := nested_eq hfit past
  obtain ⟨past₂, hp⟩ := hp past₁
  exact ⟨past₂, by rw [h, hp]; rfl⟩

end RowFilter.Grammar
