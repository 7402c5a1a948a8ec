import RowFilter.Proofs.Grammar.Completeness
import RowFilter.Proofs.Grammar.Orderly

/-! The grammar without a limit. A text opens no more levels than it has characters, so
readers that only observe the limit and may go as deep as the text is long solve the
equations of the grammar: the levels that cut the recursion off are out of reach. -/

namespace RowFilter.Grammar

open Reader

/-- The readers of sub-expressions that count the levels and stop at none. -/
def unlimited : Inner where
  item := fun n cs => (inner .observed (cs.length + 1)).item n cs
  negand := fun n cs => (inner .observed (cs.length + 1)).negand n cs

/-- On texts shorter than `length` the readers are the same, and none of them halts. -/
structure Agrees (length : Nat) {α : Type} (p q : Reader α) : Prop where
  orderly : Orderly q
  same (n : Nesting) (cs : List Char) : cs.length < length → p n cs = q n cs
  runs (n m : Nesting) (cs : List Char) : cs.length < length → q n cs ≠ .halted m

namespace Agrees

variable {α β : Type} {length : Nat} {p q : Reader α}

theorem zero (h : Orderly q) : Agrees 0 p q :=
  ⟨h, fun _ _ hcs => absurd hcs (Nat.not_lt_zero _), fun _ _ _ hcs => absurd hcs (Nat.not_lt_zero _)⟩

theorem bind {f g : α → Reader β} (hpq : Agrees length p q)
    (hfg : ∀ a, Agrees length (f a) (g a)) : Agrees length (p >>= f) (q >>= g) := by
  refine ⟨hpq.orderly.bind fun a => (hfg a).orderly, fun n cs hcs => ?_, fun n m cs hcs h => ?_⟩
  · have hsame := hpq.same n cs hcs
    cases hread : q n cs with
    | read a rest m =>
      have hrest := (hpq.orderly.rest hread).length_le
      rw [bind_of_read hread, bind_of_read (hsame.trans hread)]
      exact (hfg a).same m rest (by omega)
    | refused m => rw [bind_of_refused hread, bind_of_refused (hsame.trans hread)]
    | halted m => rw [bind_of_halted hread, bind_of_halted (hsame.trans hread)]
  · cases hread : q n cs with
    | read a rest k =>
      have hrest := (hpq.orderly.rest hread).length_le
      rw [bind_of_read hread] at h
      exact (hfg a).runs k m rest (by omega) h
    | refused k =>
      rw [bind_of_refused hread] at h
      cases h
    | halted k => exact hpq.runs n k cs hcs hread

theorem optional (h : Agrees length p q) :
    Agrees length (Reader.optional p) (Reader.optional q) := by
  refine ⟨h.orderly.optional, fun n cs hcs => ?_, fun n m cs hcs hhalt => ?_⟩
  · simp only [Reader.optional]
    rw [h.same n cs hcs]
  · simp only [Reader.optional] at hhalt
    cases hread : q n cs with
    | halted k => exact h.runs n k cs hcs hread
    | read a rest k | refused k =>
      rw [hread] at hhalt
      cases hhalt

theorem ofOption {read : List Char → Option (α × List Char)} (h : LeavesSuffix read) :
    Agrees length (Reader.ofOption read) (Reader.ofOption read) := by
  refine ⟨.ofOption h, fun _ _ _ => rfl, fun n m cs _ hhalt => ?_⟩
  unfold Reader.ofOption at hhalt
  cases hr : read cs <;> rw [hr] at hhalt <;> cases hhalt

theorem congruent (length : Nat) : Congruent fun _ p q => Agrees length p q where
  value a := ⟨.value a, fun _ _ _ => rfl, fun _ _ _ _ h => by cases h⟩
  refuse := ⟨.refuse, fun _ _ _ => rfl, fun _ _ _ _ h => by cases h⟩
  ofOption h := ofOption h
  bind hpq hfg := hpq.bind hfg
  optional h := h.optional
  many h := ⟨.many fun count => (h count).orderly,
    fun n cs hcs => (h (cs.length + 1)).same n cs hcs,
    fun n m cs hcs => (h (cs.length + 1)).runs n m cs hcs⟩

/-- Behind a character that was taken the text is shorter. -/
theorem descends (length : Nat) :
    Descends (fun _ p q => Agrees (length + 1) p q) fun _ p q => Agrees length p q := by
  intro α β read f g hsuffix htakes hfg
  have hnone {cs : List Char} (h : read cs = none) (n : Nesting) :
      Reader.ofOption read n cs = .refused n := by rw [Reader.ofOption, h]
  have hsome {cs rest : List Char} {a : α} (h : read cs = some (a, rest)) (n : Nesting) :
      Reader.ofOption read n cs = .read a rest n := by rw [Reader.ofOption, h]
  refine ⟨(Orderly.ofOption hsuffix).bind fun a => (hfg a).orderly, fun n cs hcs => ?_,
    fun n m cs hcs => ?_⟩
  · cases hr : read cs with
    | none => rw [bind_of_refused (hnone hr n), bind_of_refused (hnone hr n)]
    | some found =>
      obtain ⟨a, rest⟩ := found
      have hshorter := htakes _ _ _ hr
      rw [bind_of_read (hsome hr n), bind_of_read (hsome hr n)]
      exact (hfg a).same n rest (by omega)
  · intro h
    cases hr : read cs with
    | none =>
      rw [bind_of_refused (hnone hr n)] at h
      cases h
    | some found =>
      obtain ⟨a, rest⟩ := found
      have hshorter := htakes _ _ _ hr
      rw [bind_of_read (hsome hr n)] at h
      exact (hfg a).runs n m rest (by omega) h

theorem nested (h : Agrees length p q) :
    Agrees length (Grammar.nested .observed p) (Grammar.nested .observed q) := by
  have hleave {n m : Nesting} {cs : List Char} (hcs : cs.length < length) :
      (q n cs).leave ≠ .halted m := by
    intro hhalt
    obtain ⟨k, hread⟩ := Reply.halted_of_leave hhalt
    exact h.runs n k cs hcs hread
  refine ⟨h.orderly.nested, fun n cs hcs => ?_, fun n m cs hcs => ?_⟩
  · simp only [Grammar.nested]
    rw [h.same _ cs hcs, h.same _ cs hcs]
  · unfold Grammar.nested
    split <;> exact hleave hcs

/-- Readers of sub-expressions that agree on shorter texts make rules that agree. -/
theorem rules {I J : Inner} (hitem : Agrees length I.item J.item)
    (hnegand : Agrees length I.negand J.negand) :
    Agrees (length + 1) (Grammar.nested .observed (disjunction I))
        (Grammar.nested .observed (disjunction J)) ∧
      Agrees (length + 1) (Grammar.nested .observed (negation I))
        (Grammar.nested .observed (negation J)) := by
  have hR := congruent (length + 1)
  have hS := congruent length
  exact ⟨(hR.disjunction hS (descends length) hitem hnegand).nested,
    (hR.negation hS (descends length) hitem hnegand).nested⟩

end Agrees

section

variable {d e length : Nat}

theorem inner_agrees (hd : length ≤ d) (he : length ≤ e) :
    Agrees length (inner .observed d).item (inner .observed e).item ∧
      Agrees length (inner .observed d).negand (inner .observed e).negand := by
  induction length generalizing d e with
  | zero =>
    obtain ⟨hitem, hnegand⟩ := inner_orderly .observed e
    exact ⟨.zero hitem, .zero hnegand⟩
  | succ length ih =>
    obtain ⟨d, rfl⟩ := Nat.exists_eq_add_of_lt hd
    obtain ⟨e, rfl⟩ := Nat.exists_eq_add_of_lt he
    obtain ⟨hitem, hnegand⟩ := ih (Nat.le_add_right length d) (Nat.le_add_right length e)
    exact Agrees.rules hitem hnegand

/-- The depth that is left does not matter once it is the length of the text. -/
theorem unlimited_agrees (h : length ≤ d) :
    Agrees length unlimited.item (inner .observed d).item ∧
      Agrees length unlimited.negand (inner .observed d).negand := by
  have hself := inner_agrees h h
  refine ⟨⟨hself.1.orderly, fun n cs hcs => ?_, hself.1.runs⟩,
    ⟨hself.2.orderly, fun n cs hcs => ?_, hself.2.runs⟩⟩
  · exact (inner_agrees (Nat.le_refl _) (Nat.le_trans hcs h)).1.same n cs (Nat.lt_succ_self _)
  · exact (inner_agrees (Nat.le_refl _) (Nat.le_trans hcs h)).2.same n cs (Nat.lt_succ_self _)

end

theorem unlimited_item : unlimited.item = nested .observed (disjunction unlimited) := by
  funext n cs
  obtain ⟨hitem, hnegand⟩ := unlimited_agrees (Nat.le_refl cs.length)
  exact ((Agrees.rules hitem hnegand).1.same n cs (Nat.lt_succ_self _)).symm

theorem unlimited_negand : unlimited.negand = nested .observed (negation unlimited) := by
  funext n cs
  obtain ⟨hitem, hnegand⟩ := unlimited_agrees (Nat.le_refl cs.length)
  exact ((Agrees.rules hitem hnegand).2.same n cs (Nat.lt_succ_self _)).symm

theorem unlimited_orderly : Orderly unlimited.item ∧ Orderly unlimited.negand :=
  ⟨.chosen (q := fun cs => (inner .observed (cs.length + 1)).item) fun _ => (inner_orderly _ _).1,
    .chosen (q := fun cs => (inner .observed (cs.length + 1)).negand) fun _ => (inner_orderly _ _).2⟩

theorem unlimited_runs (n m : Nesting) (cs : List Char) : unlimited.item n cs ≠ .halted m :=
  (inner_agrees (Nat.le_refl (cs.length + 1)) (Nat.le_refl _)).1.runs n m cs (Nat.lt_succ_self _)

/-- Without a limit the phrases of every depth are read. -/
theorem unlimited_complete (depth level : Nat) : unlimited.Complete (phrases depth) level := by
  induction depth generalizing level with
  | zero =>
    exact ⟨fun h => h.elim, fun h => h.elim, phrases_item_starts, phrases_item_unnamed,
      fun h => h.elim, fun h => h.elim⟩
  | succ depth ih =>
    have hdeeper := ih (level + 1)
    have hfits : Fits .observed (level + 1) := .inl rfl
    refine ⟨fun h hs hends => ?_, fun h hs hends => ?_, phrases_item_starts, phrases_item_unnamed,
      fun _ => trivial, fun _ _ _ _ hnext hs => ?_⟩
    · rw [unlimited_item]
      exact (disjunction_reads hdeeper h hs hends).nested hfits
    · rw [unlimited_negand]
      exact (negation_reads hdeeper h hs hends).nested hfits
    · rw [unlimited_item]
      exact (disjunction_refuses hnext hs).nested hfits

/-- Tokens are a phrase for one tree only, at whatever depths. -/
theorem phrase_unique {d e : Nat} {t u : Tree} {ts : List Token} {cs rest : List Char}
    (ht : (phrases d).item t ts) (hu : (phrases e).item u ts) (hs : Spells ts cs rest)
    (hends : Ends disjunctionLeads rest) : t = u := by
  obtain ⟨past, hread⟩ := (unlimited_complete d 0).item ht hs hends none
  obtain ⟨past', hread'⟩ := (unlimited_complete e 0).item hu hs hends none
  cases hread.symm.trans hread'
  rfl

end RowFilter.Grammar
