import RowFilter.Parse
import RowFilter.Proofs.Grammar.Sentence
import RowFilter.Proofs.Grammar.Unlimited

/-! The limit of nesting changes nothing except by stopping. The limited grammar follows the
unlimited one step by step up to the first entry beyond the limit and halts there: no
choice, option or repetition recovers from it. -/

namespace RowFilter

open Text Grammar

namespace Grammar

/-- The same outcome, but halted where the limit was first passed. -/
def Reply.stopped {α : Type} (r : Reply α) : Reply α :=
  match r.nesting.past with
  | none => r
  | some place => .halted ⟨r.nesting.level, some place⟩

/-- From a level at which the limit was not passed yet, `p` does what `q` does and stops
where `q` first passes the limit. -/
structure Follows (level : Nat) {α : Type} (p q : Reader α) : Prop where
  orderly : Orderly q
  stops (cs : List Char) : p ⟨level, none⟩ cs = (q ⟨level, none⟩ cs).stopped

namespace Follows

variable {α β : Type} {level : Nat} {p q : Reader α} {cs rest : List Char} {n : Nesting}

theorem stopped_of_none {r : Reply α} (h : r.nesting.past = none) : r.stopped = r := by
  rw [Reply.stopped, h]

theorem stopped_of_some {r : Reply α} {place : List Char} (h : r.nesting.past = some place) :
    r.stopped = .halted ⟨r.nesting.level, some place⟩ := by
  rw [Reply.stopped, h]

/-- Once the limit was passed, whatever follows is halted at the same place. -/
theorem stopped_of_passed {place : List Char} (hq : Orderly q) (hn : n.past = some place) :
    (q n cs).stopped = .halted ⟨n.level, some place⟩ := by
  have hcarried := hq.carried n cs
  rw [stopped_of_some (hcarried.past_eq hn), hcarried.1]

theorem bind {f g : α → Reader β} (hpq : Follows level p q) (hfg : ∀ a, Follows level (f a) (g a)) :
    Follows level (p >>= f) (q >>= g) := by
  refine ⟨hpq.orderly.bind fun a => (hfg a).orderly, fun cs => ?_⟩
  have hstops := hpq.stops cs
  simp only [Bind.bind]
  cases hread : q ⟨level, none⟩ cs with
  | refused n | halted n =>
    rw [hstops, hread]
    cases hpast : n.past <;> simp only [Reply.stopped, Reply.nesting, hpast]
  | read a rest n =>
    have hcarried : Carried cs ⟨level, none⟩ n := hpq.orderly.carried_eq hread
    cases hpast : n.past with
    | none =>
      rw [hstops, hread, stopped_of_none (show (Reply.read a rest n).nesting.past = none from hpast),
        hcarried.of_none hpast]
      exact (hfg a).stops rest
    | some place =>
      rw [hstops, hread, stopped_of_passed (hfg a).orderly hpast]
      simp only [Reply.stopped, Reply.nesting, hpast]

theorem optional (hpq : Follows level p q) :
    Follows level (Reader.optional p) (Reader.optional q) := by
  refine ⟨hpq.orderly.optional, fun cs => ?_⟩
  have hstops := hpq.stops cs
  simp only [Reader.optional]
  rw [hstops]
  cases hread : q ⟨level, none⟩ cs with
  | read a rest n | refused n | halted n =>
    cases hpast : n.past <;> simp only [Reply.stopped, Reply.nesting, hpast]

theorem same {p : Reader α} (hp : Orderly p)
    (h : ∀ cs, (p ⟨level, none⟩ cs).nesting = ⟨level, none⟩) : Follows level p p :=
  ⟨hp, fun cs => (stopped_of_none (congrArg Nesting.past (h cs))).symm⟩

theorem congruent (level : Nat) : Congruent fun _ p q => Follows level p q where
  value a := same (.value a) fun _ => rfl
  refuse := same .refuse fun _ => rfl
  ofOption {_ read} h := same (.ofOption h) fun cs => by
    unfold Reader.ofOption
    cases read cs <;> rfl
  bind hpq hfg := hpq.bind hfg
  optional h := h.optional
  many h := ⟨.many fun count => (h count).orderly,
    fun cs => (h (cs.length + 1)).stops cs⟩

theorem stopped_leave (r : Reply α) : r.leave.stopped = r.stopped.leave := by
  have hpast : r.leave.nesting.past = r.nesting.past := by rw [Reply.nesting_leave]
  cases h : r.nesting.past with
  | none => rw [stopped_of_none h, stopped_of_none (hpast.trans h)]
  | some place =>
    rw [stopped_of_some h, stopped_of_some (hpast.trans h), Reply.nesting_leave]
    rfl

/-- Below the limit the guard does nothing. -/
theorem nested (hlevel : level < maxNesting) (hpq : Follows (level + 1) p q) :
    Follows level (Grammar.nested .enforced p) (Grammar.nested .observed q) := by
  refine ⟨hpq.orderly.nested, fun cs => ?_⟩
  simp only [Grammar.nested, if_pos hlevel]
  rw [hpq.stops cs, stopped_leave]

/-- At the limit the guard halts where the unlimited reader goes on. -/
theorem nested_limit (hq : Orderly q) :
    Follows maxNesting (Grammar.nested .enforced p) (Grammar.nested .observed q) := by
  refine ⟨hq.nested, fun cs => ?_⟩
  simp only [Grammar.nested, if_neg (Nat.lt_irrefl maxNesting)]
  have hstopped : (q ⟨maxNesting + 1, some cs⟩ cs).stopped = .halted ⟨maxNesting + 1, some cs⟩ :=
    stopped_of_passed hq rfl
  rw [stopped_leave, Option.getD_none, hstopped]
  rfl

end Follows

/-- Where `depth` levels are left, the limited grammar follows the unlimited one. -/
theorem inner_follows {depth level : Nat} (h : level + depth = maxNesting) :
    Follows level (inner .enforced depth).item unlimited.item ∧
      Follows level (inner .enforced depth).negand unlimited.negand := by
  induction depth generalizing level with
  | zero =>
    obtain ⟨hdisjunction, hnegation⟩ := Orderly.rules unlimited_orderly.1 unlimited_orderly.2
    obtain rfl : level = maxNesting := h
    rw [unlimited_item, unlimited_negand]
    exact ⟨.nested_limit hdisjunction, .nested_limit hnegation⟩
  | succ depth ih =>
    obtain ⟨hitem, hnegand⟩ := ih (show level + 1 + depth = maxNesting by omega)
    have hR := Follows.congruent (level + 1)
    have hlevel : level < maxNesting := by omega
    rw [unlimited_item, unlimited_negand]
    exact ⟨(hR.disjunction hR hR.descends hitem hnegand).nested hlevel,
      (hR.negation hR hR.descends hitem hnegand).nested hlevel⟩

end Grammar

namespace Tree

/-- Reads the whole of a text without a limit of nesting. -/
def parseUnlimited (source : String) : Except ParseError Tree :=
  match trim source.toList with
  | [] => .error ⟨.empty, .start⟩
  | text => ofReply text (unlimited.item ⟨0, none⟩ text)

/-- The rest of the text where reading it without a limit first enters a level beyond the
limit, be it in an attempt that is given up later. -/
def firstPast? (source : String) : Option (List Char) :=
  match trim source.toList with
  | [] => none
  | text => (unlimited.item ⟨0, none⟩ text).nesting.past

variable {source : String} {t : Tree} {text rest : List Char}

theorem ofReply_stopped (r : Reply Tree) : ofReply text r.stopped = match r.nesting.past with
    | none => ofReply text r
    | some rest => .error ⟨.tooDeep, placeOf text rest⟩ := by
  unfold Reply.stopped
  cases r.nesting.past <;> rfl

theorem parse_eq_guarded (source : String) : parse source = match firstPast? source with
    | none => parseUnlimited source
    | some rest => .error ⟨.tooDeep, placeOf (trim source.toList) rest⟩ := by
  unfold parse parseUnder firstPast? parseUnlimited
  cases trim source.toList with
  | nil => rfl
  | cons c text =>
    change ofReply _ (condition .enforced maxNesting ⟨0, none⟩ (c :: text)) = _
    rw [condition, (inner_follows (Nat.zero_add maxNesting)).1.stops, ofReply_stopped]

theorem parseUnlimited_ne_tooDeep (source : String) (place : Place) :
    parseUnlimited source ≠ .error ⟨.tooDeep, place⟩ := by
  intro h
  unfold parseUnlimited at h
  split at h
  · cases h
  · rename_i text _
    unfold ofReply at h
    split at h
    · split at h <;> cases h
    · cases h
    · rename_i hhalted
      exact unlimited_runs _ _ _ hhalted

theorem firstPast?_suffix (h : firstPast? source = some rest) : rest <:+ trim source.toList := by
  unfold firstPast? at h
  split at h
  · cases h
  · rcases (unlimited_orderly.1.carried ⟨0, none⟩ (trim source.toList)).2 with hkept | hnew
    · rw [h] at hkept
      cases hkept
    · obtain ⟨-, place, hplace, hpast⟩ := hnew
      rw [h] at hpast
      cases hpast
      exact hplace

/-- A text that the unlimited grammar reads, up to blanks, is read or is too deep. -/
theorem parse_of_reads (hne : trim source.toList ≠ [])
    (h : unlimited.item.Reads 0 (trim source.toList) t rest) (hblank : dropBlanks rest = []) :
    parse source = .ok t ∨ ∃ place, parse source = .error ⟨.tooDeep, place⟩ := by
  have hunlimited : parseUnlimited source = .ok t := by
    unfold parseUnlimited
    split
    · exact absurd ‹_› hne
    · obtain ⟨past, hread⟩ := h none
      rw [hread, ofReply, hblank]
  rw [parse_eq_guarded]
  cases firstPast? source with
  | none => exact .inl hunlimited
  | some place => exact .inr ⟨_, rfl⟩

/-- So is a text that spells a phrase of any depth. -/
theorem parse_phrase {depth : Nat} {ts : List Token} (h : (phrases depth).item t ts)
    (hs : Spells ts (trim source.toList) rest) (hblank : dropBlanks rest = []) :
    parse source = .ok t ∨ ∃ place, parse source = .error ⟨.tooDeep, place⟩ := by
  refine parse_of_reads ?_ ((unlimited_complete depth 0).item h hs (ends_of_blank hblank _)) hblank
  intro htrim
  rw [htrim] at hs
  cases hs with
  | nil => exact absurd rfl (phrases_item_starts h).ne_nil
  | cons hnext _ => cases hnext

/-- The limit of nesting only stops. The unlimited grammar solves the equations of the
grammar, it never finds a text too deep, and parsing has its result unless it enters a
level beyond the limit; then parsing fails where it first does. Whatever is read or given
up, the level comes back. -/
theorem parse_limit (source : String) :
    (unlimited.item = nested .observed (disjunction unlimited) ∧
      unlimited.negand = nested .observed (negation unlimited)) ∧
    (∀ place, parseUnlimited source ≠ .error ⟨.tooDeep, place⟩) ∧
    (parse source = match firstPast? source with
      | none => parseUnlimited source
      | some rest => .error ⟨.tooDeep, placeOf (trim source.toList) rest⟩) ∧
    (∀ rest, firstPast? source = some rest → rest <:+ trim source.toList) ∧
    (∀ guard depth, Orderly (inner guard depth).item ∧ Orderly (inner guard depth).negand) ∧
    Orderly unlimited.item ∧ Orderly unlimited.negand :=
  ⟨⟨unlimited_item, unlimited_negand⟩, parseUnlimited_ne_tooDeep source, parse_eq_guarded source,
    fun _ => firstPast?_suffix, inner_orderly, unlimited_orderly⟩

end Tree

end RowFilter
