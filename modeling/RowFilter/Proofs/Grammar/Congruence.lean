import Mathlib.Data.List.Forall2
import RowFilter.Grammar.Condition
import RowFilter.Proofs.Grammar.Token

/-! Relations between readers that every combinator keeps. The readers of the grammar are
built from the readers one level deeper by combinators only, so whatever such a relation
says of the deeper readers it says of all. Behind a character that was taken, another
relation may hold: this is how a bound on the length of the text goes down. -/

namespace RowFilter.Grammar

open Reader

variable {α β : Type}

/-- What is read is a prefix of the text. -/
def LeavesSuffix (read : List Char → Option (α × List Char)) : Prop :=
  ∀ cs a rest, read cs = some (a, rest) → rest <:+ cs

/-- What is read has a character at least. -/
def Takes (read : List Char → Option (α × List Char)) : Prop :=
  ∀ cs a rest, read cs = some (a, rest) → rest.length < cs.length

structure Congruent (R : ∀ ⦃α : Type⦄, Reader α → Reader α → Prop) : Prop where
  value {α : Type} (a : α) : R (pure a) (pure a)
  refuse {α : Type} : R (α := α) refuse refuse
  ofOption {α : Type} {read : List Char → Option (α × List Char)} : LeavesSuffix read →
    R (ofOption read) (ofOption read)
  bind {α β : Type} {p q : Reader α} {f g : α → Reader β} : R p q → (∀ a, R (f a) (g a)) →
    R (p >>= f) (q >>= g)
  optional {α : Type} {p q : Reader α} : R p q → R (Reader.optional p) (Reader.optional q)
  many {α : Type} {p q : Reader α} : (∀ count, R (atMost count p) (atMost count q)) →
    R (many p) (many q)

/-- Behind a character that was taken, `S` is enough for `R`. -/
def Descends (R S : ∀ ⦃α : Type⦄, Reader α → Reader α → Prop) : Prop :=
  ∀ ⦃α β : Type⦄ {read : List Char → Option (α × List Char)} {f g : α → Reader β},
    LeavesSuffix read → Takes read → (∀ a, S (f a) (g a)) →
      R (ofOption read >>= f) (ofOption read >>= g)

section

variable {cs rest : List Char} {s w : String}

theorem leavesSuffix_gap : LeavesSuffix fun cs => some ((), skipGap cs) := by
  rintro cs _ _ ⟨⟩
  exact List.dropWhile_suffix isGap

theorem leavesSuffix_symbol :
    LeavesSuffix fun cs => (dropSymbol? s.toList cs).map fun rest => ((), rest) := by
  intro cs _ rest h
  obtain ⟨_, hd, ⟨⟩⟩ := Option.map_eq_some_iff.1 h
  exact ⟨s.toList, (dropSymbol?_eq_some_iff.1 hd).symm⟩

theorem takes_symbol (hs : s.toList ≠ []) :
    Takes fun cs => (dropSymbol? s.toList cs).map fun rest => ((), rest) := by
  intro cs _ rest h
  obtain ⟨_, hd, ⟨⟩⟩ := Option.map_eq_some_iff.1 h
  rw [dropSymbol?_eq_some_iff.1 hd, List.length_append]
  have := List.length_pos_iff.2 hs
  omega

theorem word?_suffix {w : List Char} (h : word? cs = some (w, rest)) : rest <:+ cs :=
  ⟨w, (word?_eq_some h).1.symm⟩

theorem leavesSuffix_word :
    LeavesSuffix fun cs => (dropWord? w cs).map fun rest => ((), rest) := by
  intro cs _ rest h
  obtain ⟨_, hd, ⟨⟩⟩ := Option.map_eq_some_iff.1 h
  have hl := dropWord?_eq_some_iff.1 hd
  rw [← String.ofList_toList (s := w), ← word?_eq_some_iff] at hl
  exact word?_suffix hl

theorem takes_word : Takes fun cs => (dropWord? w cs).map fun rest => ((), rest) := by
  intro cs _ rest h
  obtain ⟨_, hd, ⟨⟩⟩ := Option.map_eq_some_iff.1 h
  exact lexeme?_length (dropWord?_eq_some_iff.1 hd)

theorem leavesSuffix_name : LeavesSuffix name? := by
  intro cs name rest h
  have hl := (name?_eq_some_iff.1 h).1
  rw [← String.ofList_toList (s := name), ← word?_eq_some_iff] at hl
  exact word?_suffix hl

theorem leavesSuffix_unsigned? : LeavesSuffix Numeral.unsigned? :=
  fun _ n _ h => ⟨n.chars, (Numeral.unsigned?_eq_some h).1.symm⟩

theorem leavesSuffix_numeral? : LeavesSuffix numeral? := by
  intro cs n rest h
  unfold numeral? at h
  split at h
  · rename_i behind
    obtain ⟨⟨m, _⟩, hm, ⟨⟩⟩ := Option.map_eq_some_iff.1 h
    have hgap : skipGap behind <:+ behind := List.dropWhile_suffix isGap
    exact ((leavesSuffix_unsigned? _ _ _ hm).trans hgap).trans (List.suffix_cons '-' behind)
  · exact leavesSuffix_unsigned? _ _ _ h

theorem leavesSuffix_quotedText? : LeavesSuffix quotedText? := by
  intro cs s rest h
  unfold quotedText? at h
  split at h
  all_goals first | cases h | skip
  all_goals
    obtain ⟨⟨body, _⟩, hr, ⟨⟩⟩ := Option.map_eq_some_iff.1 h
    exact ((List.suffix_cons _ _).trans (quotedBody?_suffix hr)).trans (List.suffix_cons _ _)

end

variable {R S : ∀ ⦃α : Type⦄, Reader α → Reader α → Prop} {p q : Reader α}

section

variable {f : α → Reader β} {n m : Nesting} {cs rest : List Char} {a : α}

theorem bind_of_read (h : p n cs = .read a rest m) : (p >>= f) n cs = f a m rest := by
  simp only [Bind.bind, h]

theorem bind_of_refused (h : p n cs = .refused m) : (p >>= f) n cs = .refused m := by
  simp only [Bind.bind, h]

theorem bind_of_halted (h : p n cs = .halted m) : (p >>= f) n cs = .halted m := by
  simp only [Bind.bind, h]

end

/-- Choice is the optional first alternative, and the others where it is refused. -/
theorem firstOf_cons (p : Reader α) (ps : List (Reader α)) :
    Reader.firstOf (p :: ps) = Reader.optional p >>= fun found => match found with
      | some a => pure a
      | none => Reader.firstOf ps := by
  funext n cs
  simp only [Reader.firstOf, Reader.optional, Bind.bind]
  cases p n cs <;> rfl

theorem atMost_succ (count : Nat) (p : Reader α) :
    Reader.atMost (count + 1) p = Reader.optional p >>= fun found => match found with
      | some a => Reader.atMost count p >>= fun as => pure (a :: as)
      | none => pure [] := by
  funext n cs
  simp only [Reader.atMost, Reader.optional, Bind.bind]
  cases p n cs with
  | read a rest n =>
    simp only
    cases Reader.atMost count p n rest <;> rfl
  | _ => rfl

namespace Congruent

/-- A relation that combinators keep goes down as it is. -/
theorem descends (hR : Congruent R) : Descends R R :=
  fun _ _ _ _ _ hread _ hfg => hR.bind (hR.ofOption hread) hfg

section

variable (hR : Congruent R)

include hR

theorem map (f : α → β) (h : R p q) : R (f <$> p) (f <$> q) := hR.bind h fun a => hR.value (f a)

theorem firstOf {ps qs : List (Reader α)} (h : List.Forall₂ (fun p q => R p q) ps qs) :
    R (Reader.firstOf ps) (Reader.firstOf qs) := by
  induction h with
  | nil => exact hR.refuse
  | cons hp _ ih =>
    rw [firstOf_cons, firstOf_cons]
    refine hR.bind (hR.optional hp) fun found => ?_
    cases found with
    | some a => exact hR.value a
    | none => exact ih

theorem repeated (h : R p q) : R (Reader.many p) (Reader.many q) := by
  refine hR.many fun count => ?_
  induction count with
  | zero => exact hR.value []
  | succ count ih =>
    rw [atMost_succ, atMost_succ]
    refine hR.bind (hR.optional h) fun found => ?_
    cases found with
    | some a => exact hR.bind ih fun as => hR.value (a :: as)
    | none => exact hR.value []

theorem gap : R Grammar.gap Grammar.gap := hR.ofOption leavesSuffix_gap

theorem symbol (s : String) : R (Grammar.symbol s) (Grammar.symbol s) :=
  hR.ofOption leavesSuffix_symbol

theorem word (w : String) : R (Grammar.word w) (Grammar.word w) := hR.ofOption leavesSuffix_word

theorem name : R Grammar.name Grammar.name := hR.ofOption leavesSuffix_name

theorem assign : R Grammar.assign Grammar.assign := by
  refine hR.ofOption fun cs _ rest h => ?_
  split at h
  · cases h
  · cases h
    exact List.suffix_cons _ _
  · cases h

theorem comma : R Grammar.comma Grammar.comma :=
  hR.bind hR.gap fun _ => hR.bind (hR.symbol _) fun _ => hR.gap

theorem lastComma : R (Reader.optional Grammar.lastComma) (Reader.optional Grammar.lastComma) :=
  hR.optional (hR.bind hR.gap fun _ => hR.symbol _)

theorem separated (h : R p q) :
    R (Reader.separated p Grammar.comma) (Reader.separated q Grammar.comma) :=
  hR.bind h fun a => hR.bind (hR.repeated (hR.bind hR.comma fun _ => h)) fun as => hR.value (a :: as)

/-- A series of items with a last comma perhaps. -/
theorem series (h : R p q) :
    R (do
      let items ← Reader.separated p Grammar.comma
      let _ ← Reader.optional Grammar.lastComma
      pure items : Reader (List α)) (do
      let items ← Reader.separated q Grammar.comma
      let _ ← Reader.optional Grammar.lastComma
      pure items) :=
  hR.bind (hR.separated h) fun items => hR.bind hR.lastComma fun _ => hR.value items

theorem relation : R Grammar.relation Grammar.relation := by
  have sign (s : String) (r : Relation) : R (do Grammar.symbol s; pure r : Reader Relation)
      (do Grammar.symbol s; pure r) := hR.bind (hR.symbol s) fun _ => hR.value r
  have one (w : String) (r : Relation) : R (do Grammar.word w; pure r : Reader Relation)
      (do Grammar.word w; pure r) := hR.bind (hR.word w) fun _ => hR.value r
  have two (v w : String) (r : Relation) :
      R (do Grammar.word v; Grammar.gap; Grammar.word w; pure r : Reader Relation)
        (do Grammar.word v; Grammar.gap; Grammar.word w; pure r) :=
    hR.bind (hR.word v) fun _ => hR.bind hR.gap fun _ => one w r
  exact hR.firstOf (.cons (sign _ _) (.cons (sign _ _) (.cons (sign _ _) (.cons (sign _ _)
    (.cons (sign _ _) (.cons (sign _ _) (.cons (two _ _ _) (.cons (one _ _) (.cons (two _ _ _)
      (.cons (one _ _) .nil))))))))))

theorem literal : R Grammar.literal Grammar.literal := by
  have word (w : String) (l : Literal) : R (do Grammar.word w; pure l : Reader Literal)
      (do Grammar.word w; pure l) := hR.bind (hR.word w) fun _ => hR.value l
  exact hR.firstOf (.cons (word _ _) (.cons (word _ _) (.cons (word _ _)
    (.cons (hR.map _ (hR.ofOption leavesSuffix_numeral?))
      (.cons (hR.map _ (hR.ofOption leavesSuffix_quotedText?)) .nil)))))

end

section

variable {I J : Inner} (hR : Congruent R) (hS : Congruent S) (hdown : Descends R S)
  (hitem : S I.item J.item)

include hS hdown hitem

theorem parentheses : R (Grammar.parentheses I) (Grammar.parentheses J) :=
  hdown leavesSuffix_symbol (takes_symbol (by decide)) fun _ => hS.bind hS.gap fun _ =>
    hS.bind (hS.optional (hS.separated hitem)) fun items => hS.bind hS.lastComma fun last =>
      hS.bind hS.gap fun _ => hS.bind (hS.symbol _) fun _ =>
        hS.value (parenthesis (items.getD []) last.isSome)

theorem brackets : R (Grammar.brackets I) (Grammar.brackets J) :=
  hdown leavesSuffix_symbol (takes_symbol (by decide)) fun _ => hS.bind hS.gap fun _ =>
    hS.bind (hS.optional (hS.series hitem)) fun items => hS.bind hS.gap fun _ =>
      hS.bind (hS.symbol _) fun _ => hS.value (Tree.list (items.getD []))

omit hdown in
theorem argument : S (Grammar.argument I) (Grammar.argument J) := by
  have passed (passing : Passing) :
      S (do let value ← I.item; pure (passing, value) : Reader (Passing × Tree))
        (do let value ← J.item; pure (passing, value)) :=
    hS.bind hitem fun value => hS.value (passing, value)
  have marked (s : String) (passing : Passing) :
      S (do Grammar.symbol s; Grammar.gap; let value ← I.item; pure (passing, value) :
          Reader (Passing × Tree))
        (do Grammar.symbol s; Grammar.gap; let value ← J.item; pure (passing, value)) :=
    hS.bind (hS.symbol s) fun _ => hS.bind hS.gap fun _ => passed passing
  have named := hS.bind hS.name fun key => hS.bind hS.gap fun _ => hS.bind hS.assign fun _ =>
    hS.bind hS.gap fun _ => passed (.keyword key)
  exact hS.firstOf (.cons (marked _ _) (.cons (marked _ _) (.cons named (.cons (passed _) .nil))))

include hR

theorem primary : R (Grammar.primary I) (Grammar.primary J) :=
  hR.bind hR.gap fun _ => hR.firstOf (.cons (parentheses hS hdown hitem)
    (.cons (brackets hS hdown hitem) (.cons (hR.map _ hR.literal) (.cons (hR.map _ hR.name) .nil))))

theorem trailer : R (Grammar.trailer I) (Grammar.trailer J) := by
  have attr : R (do Grammar.symbol "."; Grammar.gap; let name ← Grammar.name; pure (Trailer.attr name) :
        Reader Trailer)
      (do Grammar.symbol "."; Grammar.gap; let name ← Grammar.name; pure (Trailer.attr name)) :=
    hR.bind (hR.symbol _) fun _ => hR.bind hR.gap fun _ => hR.bind hR.name fun name =>
      hR.value (Trailer.attr name)
  refine hR.bind hR.gap fun _ => hR.firstOf (.cons attr (.cons ?_ .nil))
  exact hdown leavesSuffix_symbol (takes_symbol (by decide)) fun _ => hS.bind hS.gap fun _ =>
    hS.bind (hS.optional (hS.series (argument hS hitem))) fun args => hS.bind hS.gap fun _ =>
      hS.bind (hS.symbol _) fun _ => hS.value (Trailer.call (args.getD []))

theorem operand : R (Grammar.operand I) (Grammar.operand J) :=
  hR.bind (primary hR hS hdown hitem) fun base =>
    hR.bind (hR.repeated (trailer hR hS hdown hitem)) fun trailers =>
      hR.value (trailers.foldl Trailer.apply base)

theorem comparison : R (Grammar.comparison I) (Grammar.comparison J) := by
  have operand := operand hR hS hdown hitem
  have step := hR.bind hR.gap fun _ => hR.bind hR.relation fun relation =>
    hR.bind operand fun right => hR.value (relation, right)
  exact hR.bind operand fun left => hR.bind (hR.repeated step) fun steps =>
    hR.value (if steps.isEmpty then left else Tree.compare left steps)

variable (hnegand : S I.negand J.negand)

include hnegand

theorem negation : R (Grammar.negation I) (Grammar.negation J) := by
  have not : R (do Grammar.gap; Grammar.word "not"; let operand ← I.negand; pure (Tree.not operand))
      (do Grammar.gap; Grammar.word "not"; let operand ← J.negand; pure (Tree.not operand)) :=
    hR.bind hR.gap fun _ => hdown leavesSuffix_word takes_word fun _ =>
      hS.bind hnegand fun operand => hS.value (Tree.not operand)
  exact hR.firstOf (.cons not (.cons (comparison hR hS hdown hitem) .nil))

omit hS hdown hitem hnegand in
theorem chain (h : R p q) (w : String) (f : α → List α → α) :
    R (do
      let first ← p
      let more ← Reader.many (do Grammar.gap; Grammar.word w; p)
      pure (f first more) : Reader α) (do
      let first ← q
      let more ← Reader.many (do Grammar.gap; Grammar.word w; q)
      pure (f first more)) :=
  hR.bind h fun first => hR.bind (hR.repeated (hR.bind hR.gap fun _ => hR.bind (hR.word w)
    fun _ => h)) fun more => hR.value (f first more)

/-- What holds of the readers one level deeper holds of the whole rule. -/
theorem disjunction : R (Grammar.disjunction I) (Grammar.disjunction J) :=
  hR.chain (hR.chain (negation hR hS hdown hitem hnegand) _ _) _ _

end

end Congruent

end RowFilter.Grammar
