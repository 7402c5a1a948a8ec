import RowFilter.Proofs.Walk.Lexemes

/-! Walks over the rules of the grammar. Whatever the walks over the sub-expressions retrace,
the rules built from them do; so do the walks that the limit of nesting alone ends, and they
solve the equations of the grammar. -/

namespace RowFilter.Grammar

namespace Retraces

section

variable {level k : Nat} {α : Type} {p q : Walk α} {r : Reader α} {D E : Walk.Deeper} {I : Inner}

/-- A series of items with a last comma perhaps. -/
theorem series (h : Retraces level k p q r) :
    Retraces level k (do
      let items ← Walk.separated p Walk.comma
      let _ ← Walk.optional Walk.lastComma
      pure items : Walk (List α)) (do
      let items ← Walk.separated q Walk.comma
      let _ ← Walk.optional Walk.lastComma
      pure items) (do
      let items ← Reader.separated r Grammar.comma
      let _ ← Reader.optional Grammar.lastComma
      pure items) :=
  (h.separated comma).bind fun items => lastComma.bind fun _ => value items

variable (hitem : Retraces level 1 D.item E.item I.item)

include hitem

theorem parentheses :
    Retraces level 1 (Walk.parentheses D) (Walk.parentheses E) (Grammar.parentheses I) :=
  ((symbol (by decide)).bind fun _ => gap.bind fun _ =>
    (hitem.separated comma).optional.bind fun items => lastComma.bind fun last =>
      gap.bind fun _ => (symbol (by decide)).bind fun _ =>
        value (parenthesis (items.getD []) last.isSome)).mono (by decide)

theorem brackets : Retraces level 1 (Walk.brackets D) (Walk.brackets E) (Grammar.brackets I) :=
  ((symbol (by decide)).bind fun _ => gap.bind fun _ => hitem.series.optional.bind fun items =>
    gap.bind fun _ => (symbol (by decide)).bind fun _ =>
      value (Tree.list (items.getD []))).mono (by decide)

theorem primary : Retraces level 1 (Walk.primary D) (Walk.primary E) (Grammar.primary I) :=
  (gap.bind fun _ => (parentheses hitem).orElse ((brackets hitem).orElse
    ((literal.map Tree.literal).orElse (name.map Tree.ident).last))).mono (by decide)

theorem argument : Retraces level 1 (Walk.argument D) (Walk.argument E) (Grammar.argument I) := by
  have passed (passing : Passing) := hitem.bind fun tree => value (passing, tree)
  have marked {s : String} (hs : s.toList ≠ []) (passing : Passing) :=
    ((symbol hs).bind fun _ => gap.bind fun _ => passed passing).mono (show 1 ≤ 1 + (0 + (1 + 0)) by decide)
  have named := (name.bind fun key => gap.bind fun _ => assign.bind fun _ => gap.bind fun _ =>
    passed (.keyword key)).mono (show 1 ≤ 1 + (0 + (1 + (0 + (1 + 0)))) by decide)
  exact (marked (by decide) _).orElse ((marked (by decide) _).orElse
    (named.orElse (passed _).last))

theorem arguments : Retraces level 1 (Walk.arguments D) (Walk.arguments E) (Grammar.arguments I) :=
  (argument hitem).series

omit hitem in
theorem access : Retraces level 1 Walk.access Walk.access
    (do Grammar.symbol "."; Grammar.gap; let name ← Grammar.name; pure (.attr name)) :=
  ((symbol (by decide)).bind fun _ => gap.bind fun _ => name.bind fun name =>
    value (Trailer.attr name)).mono (by decide)

theorem call : Retraces level 1 (Walk.call D) (Walk.call E) (do
    Grammar.symbol "("; Grammar.gap
    let args ← Reader.optional (Grammar.arguments I)
    Grammar.gap; Grammar.symbol ")"
    pure (.call (args.getD []))) :=
  ((symbol (by decide)).bind fun _ => gap.bind fun _ => (arguments hitem).optional.bind fun args =>
    gap.bind fun _ => (symbol (by decide)).bind fun _ =>
      value (Trailer.call (args.getD []))).mono (by decide)

theorem trailer : Retraces level 1 (Walk.trailer D) (Walk.trailer E) (Grammar.trailer I) :=
  (gap.bind fun _ => access.orElse (call hitem).last).mono (by decide)

theorem operand : Retraces level 1 (Walk.operand D) (Walk.operand E) (Grammar.operand I) :=
  (primary hitem).bind fun base => (trailer hitem).many.bind fun trailers =>
    value (trailers.foldl Trailer.apply base)

theorem step : Retraces level 1 (Walk.step D) (Walk.step E) (do
    Grammar.gap
    let relation ← Grammar.relation
    let right ← Grammar.operand I
    pure (relation, right)) :=
  (gap.bind fun _ => relation.bind fun relation => (operand hitem).bind fun right =>
    value (relation, right)).mono (by decide)

theorem comparison :
    Retraces level 1 (Walk.comparison D) (Walk.comparison E) (Grammar.comparison I) :=
  (operand hitem).bind fun left => (step hitem).many.bind fun steps =>
    value (if steps.isEmpty then left else Tree.compare left steps)

variable (hnegand : Retraces level 1 D.negand E.negand I.negand)

include hnegand

theorem negation : Retraces level 1 (Walk.negation D) (Walk.negation E) (Grammar.negation I) :=
  ((gap.bind fun _ => (word "not").bind fun _ => hnegand.bind fun operand =>
    value (Tree.not operand)).mono (by decide)).orElse (comparison hitem).last

theorem andNext : Retraces level 1 (Walk.andNext D) (Walk.andNext E)
    (do Grammar.gap; Grammar.word "and"; Grammar.negation I) :=
  (gap.bind fun _ => (word "and").bind fun _ => negation hitem hnegand).mono (by decide)

theorem conjunction :
    Retraces level 1 (Walk.conjunction D) (Walk.conjunction E) (Grammar.conjunction I) :=
  (negation hitem hnegand).bind fun first => (andNext hitem hnegand).many.bind fun more =>
    value (chainOf .and first more)

theorem orNext : Retraces level 1 (Walk.orNext D) (Walk.orNext E)
    (do Grammar.gap; Grammar.word "or"; Grammar.conjunction I) :=
  (gap.bind fun _ => (word "or").bind fun _ => conjunction hitem hnegand).mono (by decide)

theorem disjunction :
    Retraces level 1 (Walk.disjunction D) (Walk.disjunction E) (Grammar.disjunction I) :=
  (conjunction hitem hnegand).bind fun first => (orNext hitem hnegand).many.bind fun more =>
    value (chainOf .or first more)

end

end Retraces

/-- From any level on: as many levels are left as there are below the limit. -/
def Reader.upToLimit {α : Type} (r : Nat → Reader α) : Reader α := fun n cs =>
  r (maxNesting - n.level) n cs

/-- The readers of sub-expressions that are told no number of levels. -/
def limited : Inner where
  item := .upToLimit fun depth => (inner .enforced depth).item
  negand := .upToLimit fun depth => (inner .enforced depth).negand

section

variable {level depth k : Nat} {α : Type} {w : Nat → Walk α} {r : Nat → Reader α}

/-- With the levels that are left below the limit nothing needs to be told their number. -/
theorem Retraces.upToLimit (h : Retraces level k (w depth) (w depth) (r depth))
    (hlevel : level + depth = maxNesting) :
    Retraces level k (w depth) (Walk.upToLimit w) (Reader.upToLimit r) := by
  have hleft {l : Nat} (hl : l = level) : maxNesting - l = depth := by omega
  constructor
  · intro c hc
    simp only [Walk.upToLimit, hleft hc]
  · intro c hc
    simp only [Walk.upToLimit, Reader.upToLimit, hleft hc]
    exact h.replies hc

theorem deeper_retraces (h : level + depth = maxNesting) :
    Retraces level 1 (Walk.deeper depth).item (Walk.deeper depth).item
        (inner .enforced depth).item ∧
      Retraces level 1 (Walk.deeper depth).negand (Walk.deeper depth).negand
        (inner .enforced depth).negand := by
  -- one level deeper one level less is left, and at the limit whatever is nested halts
  induction depth generalizing level with
  | zero =>
    obtain rfl : level = maxNesting := h
    exact ⟨.nested_limit, .nested_limit⟩
  | succ depth ih =>
    obtain ⟨hitem, hnegand⟩ := ih (show level + 1 + depth = maxNesting by omega)
    have hlevel : level < maxNesting := by omega
    exact ⟨(Retraces.disjunction hitem hnegand).nested hlevel,
      (Retraces.negation hitem hnegand).nested hlevel⟩

theorem limited_retraces (h : level + depth = maxNesting) :
    Retraces level 1 (Walk.deeper depth).item Walk.limited.item limited.item ∧
      Retraces level 1 (Walk.deeper depth).negand Walk.limited.negand limited.negand := by
  obtain ⟨hitem, hnegand⟩ := deeper_retraces h
  exact ⟨hitem.upToLimit (w := fun depth => (Walk.deeper depth).item)
      (r := fun depth => (inner .enforced depth).item) h,
    hnegand.upToLimit (w := fun depth => (Walk.deeper depth).negand)
      (r := fun depth => (inner .enforced depth).negand) h⟩

/-- Below the limit the rules over the walks at the next level are walks at this one. -/
theorem limited_solves (h : level + (depth + 1) = maxNesting) :
    Retraces level 1 (Walk.deeper (depth + 1)).item (Walk.nested (Walk.disjunction Walk.limited))
        (nested .enforced (disjunction limited)) ∧
      Retraces level 1 (Walk.deeper (depth + 1)).negand (Walk.nested (Walk.negation Walk.limited))
        (nested .enforced (negation limited)) := by
  obtain ⟨hitem, hnegand⟩ := limited_retraces (show level + 1 + depth = maxNesting by omega)
  have hlevel : level < maxNesting := by omega
  exact ⟨(Retraces.disjunction hitem hnegand).nested hlevel,
    (Retraces.negation hitem hnegand).nested hlevel⟩

/-- What is retraced together with a nested walk below the limit, and halts at it, is that
nested walk. -/
theorem upToLimit_eq {p : Walk α} {s : Reader α} (hwalk : w 0 = Walk.nested Walk.halt)
    (hreader : r 0 = nested .enforced .halt)
    (hbelow : ∀ level depth, level + (depth + 1) = maxNesting →
      Retraces level 1 (w (depth + 1)) (Walk.upToLimit w) (Reader.upToLimit r) ∧
        Retraces level 1 (w (depth + 1)) (Walk.nested p) (nested .enforced s)) :
    Walk.upToLimit w = Walk.nested p ∧ Reader.upToLimit r = nested .enforced s := by
  have hdepth {level : Nat} (h : level < maxNesting) : ∃ depth, level + (depth + 1) = maxNesting :=
    ⟨maxNesting - level - 1, by omega⟩
  constructor
  · funext c
    by_cases hlevel : c.nesting.level < maxNesting
    · obtain ⟨depth, hd⟩ := hdepth hlevel
      obtain ⟨h, h'⟩ := hbelow _ depth hd
      exact (h.same rfl).symm.trans (h'.same rfl)
    · have hnone : maxNesting - c.nesting.level = 0 := by omega
      simp only [Walk.upToLimit, hnone, hwalk, Walk.nested, if_neg hlevel]
  · funext n cs
    by_cases hlevel : n.level < maxNesting
    · obtain ⟨depth, hd⟩ := hdepth hlevel
      obtain ⟨h, h'⟩ := hbelow _ depth hd
      exact h.unique h' (c := ⟨cs, n, 0⟩) rfl
    · have hnone : maxNesting - n.level = 0 := by omega
      simp only [Reader.upToLimit, hnone, hreader, nested, if_neg hlevel]

end

/-- The limit of nesting alone ends the recursion: without a number of levels, the walks and
the readers solve the equations of the grammar. -/
theorem limited_item_eq : Walk.limited.item = Walk.nested (Walk.disjunction Walk.limited) ∧
    limited.item = nested .enforced (disjunction limited) :=
  upToLimit_eq (w := fun depth => (Walk.deeper depth).item)
    (r := fun depth => (inner .enforced depth).item) rfl rfl
    fun _ _ h => ⟨(limited_retraces h).1, (limited_solves h).1⟩

theorem limited_negand_eq : Walk.limited.negand = Walk.nested (Walk.negation Walk.limited) ∧
    limited.negand = nested .enforced (negation limited) :=
  upToLimit_eq (w := fun depth => (Walk.deeper depth).negand)
    (r := fun depth => (inner .enforced depth).negand) rfl rfl
    fun _ _ h => ⟨(limited_retraces h).2, (limited_solves h).2⟩

end RowFilter.Grammar
