import RowFilter.Parse
import RowFilter.Proofs.Walk.Refusals

/-! Every rule of the grammar makes progress and comes back to its level. A walk leaves a
suffix of its text whether it reads, is refused or is halted, enters no level beyond the
limit, and takes a character wherever a loop relies on it; so no loop stalls, and the lengths
from which `parse` computes its places never exceed the length of the text. -/

namespace RowFilter

open Text

namespace Grammar

/-- The rules of the grammar and the elements of its loops: the characters that each takes at
least, the walk and the reader. Only gaps and quoted bodies may be empty; no loop repeats
them. -/
inductive Rule : {α : Type} → Nat → Walk α → Reader α → Prop where
  | item : Rule 1 Walk.limited.item limited.item
  | negand : Rule 1 Walk.limited.negand limited.negand
  | disjunction : Rule 1 (Walk.disjunction Walk.limited) (disjunction limited)
  | orNext : Rule 1 (Walk.orNext Walk.limited) (do gap; word "or"; conjunction limited)
  | conjunction : Rule 1 (Walk.conjunction Walk.limited) (conjunction limited)
  | andNext : Rule 1 (Walk.andNext Walk.limited) (do gap; word "and"; negation limited)
  | negation : Rule 1 (Walk.negation Walk.limited) (negation limited)
  | comparison : Rule 1 (Walk.comparison Walk.limited) (comparison limited)
  | step : Rule 1 (Walk.step Walk.limited) (do
    gap
    let relation ← relation
    let right ← operand limited
    pure (relation, right))
  | relation : Rule 1 Walk.relation relation
  | operand : Rule 1 (Walk.operand Walk.limited) (operand limited)
  | trailer : Rule 1 (Walk.trailer Walk.limited) (trailer limited)
  | access : Rule 1 Walk.access (do symbol "."; gap; let name ← name; pure (.attr name))
  | call : Rule 1 (Walk.call Walk.limited) (do
    symbol "("; gap
    let args ← Reader.optional (arguments limited)
    gap; symbol ")"
    pure (.call (args.getD [])))
  | arguments : Rule 1 (Walk.arguments Walk.limited) (arguments limited)
  | argument : Rule 1 (Walk.argument Walk.limited) (argument limited)
  | primary : Rule 1 (Walk.primary Walk.limited) (primary limited)
  | parentheses : Rule 1 (Walk.parentheses Walk.limited) (parentheses limited)
  | brackets : Rule 1 (Walk.brackets Walk.limited) (brackets limited)
  | comma : Rule 1 Walk.comma comma
  | letters : Rule 1 Walk.letters (.ofOption word?)
  | word (w : String) : Rule 1 (Walk.word w) (word w)
  | name : Rule 1 Walk.name name
  | literal : Rule 1 Walk.literal literal
  | number : Rule 1 Walk.number (literalOf <$> .ofOption numeral?)
  | exponent : Rule 1 Walk.exponent (.ofOption Numeral.exponent?)
  | quotedText : Rule 1 Walk.quotedText (.str <$> .ofOption quotedText?)
  | piece (quote : Char) : Rule 1 (Walk.piece quote) (.ofOption (piece? quote))
  | body (quote : Char) :
    Rule 0 (Walk.body quote) (List.flatten <$> Reader.many (.ofOption (piece? quote)))
  | gap : Rule 0 Walk.gap gap

variable {α β : Type} {least level : Nat} {p q : Walk α} {r : Reader α} {c c' : Cursor}

/-- Up to the limit each rule is retraced. -/
theorem Rule.retraces (h : Rule least p r) (hlevel : level ≤ maxNesting) :
    ∃ q, Retraces level least q p r := by
  obtain ⟨depth, hdepth⟩ := Nat.exists_eq_add_of_le hlevel
  obtain ⟨hitem, hnegand⟩ := limited_retraces hdepth.symm
  cases h with
  | item => exact ⟨_, hitem⟩
  | negand => exact ⟨_, hnegand⟩
  | disjunction => exact ⟨_, .disjunction hitem hnegand⟩
  | orNext => exact ⟨_, .orNext hitem hnegand⟩
  | conjunction => exact ⟨_, .conjunction hitem hnegand⟩
  | andNext => exact ⟨_, .andNext hitem hnegand⟩
  | negation => exact ⟨_, .negation hitem hnegand⟩
  | comparison => exact ⟨_, .comparison hitem⟩
  | step => exact ⟨_, .step hitem⟩
  | relation => exact ⟨_, .relation⟩
  | operand => exact ⟨_, .operand hitem⟩
  | trailer => exact ⟨_, .trailer hitem⟩
  | access => exact ⟨_, .access⟩
  | call => exact ⟨_, .call hitem⟩
  | arguments => exact ⟨_, .arguments hitem⟩
  | argument => exact ⟨_, .argument hitem⟩
  | primary => exact ⟨_, .primary hitem⟩
  | parentheses => exact ⟨_, .parentheses hitem⟩
  | brackets => exact ⟨_, .brackets hitem⟩
  | comma => exact ⟨_, .comma⟩
  | letters => exact ⟨_, .letters⟩
  | word w => exact ⟨_, .word w⟩
  | name => exact ⟨_, .name⟩
  | literal => exact ⟨_, .literal⟩
  | number => exact ⟨_, .number⟩
  | exponent => exact ⟨_, .exponent⟩
  | quotedText => exact ⟨_, .quotedText⟩
  | piece quote => exact ⟨_, .piece quote⟩
  | body quote => exact ⟨_, .body quote⟩
  | gap => exact ⟨_, .gap⟩

/-- What a trip through `text` guarantees in every outcome: a suffix of the text is left, the
level is the one where it started, no deeper one than the limit was entered, no loop stalled,
and the reader replies the same. -/
structure Progress (least level : Nat) (past : Option (List Char)) (text : List Char)
    (r : Reader α) (trip : Trip α) : Prop where
  suffix : trip.cursor.left <:+ text
  level_eq : trip.cursor.nesting.level = level
  deepest_le : trip.cursor.deepest ≤ maxNesting
  not_stalled : ∀ c, trip ≠ .stopped .stalled c
  taken : ∀ a c, trip = .read a c → c.left.length + least ≤ text.length
  replies : trip.reply? = some (r ⟨level, past⟩ text)

theorem Retraces.progress (h : Retraces level least q p r) (hlevel : level ≤ maxNesting)
    (past : Option (List Char)) (text : List Char) :
    Progress least level past text r (p (.entering level past text)) := by
  have hreplies := h.replies (c := .entering level past text) rfl
  obtain ⟨hleft, hback, hdeepest⟩ := hreplies.cursor
  exact {
    suffix := hleft
    level_eq := hback
    deepest_le := Nat.le_trans hdeepest (Nat.max_le.2 ⟨hlevel, Nat.le_refl _⟩)
    not_stalled := hreplies.not_stalled
    taken := fun a c htrip => by
      rw [htrip] at hreplies
      exact hreplies.taken
    replies := hreplies.reply?_eq }

end Grammar

open Grammar

namespace Text

variable {text rest : List Char}

/-- The lengths tell the offset of a suffix; their difference is never cut off at zero. -/
theorem offset_placeOf (h : rest <:+ text) : byteLength rest ≤ byteLength text ∧
    (placeOf text rest).offset = byteLength text - byteLength rest := by
  obtain ⟨front, rfl⟩ := h
  rw [placeOf_append, Place.offset_after, byteLength_append]
  omega

theorem offset_placeOf_dropBlanks (h : rest <:+ text) :
    (placeOf text (dropBlanks rest)).offset =
      byteLength text - byteLength rest + byteLength (rest.takeWhile isBlank) := by
  obtain ⟨hle, -⟩ := offset_placeOf h
  obtain ⟨hle', hoffset⟩ := offset_placeOf ((dropBlanks_suffix rest).trans h)
  have hrest : rest.takeWhile isBlank ++ dropBlanks rest = rest := List.takeWhile_append_dropWhile
  have hlength := congrArg byteLength hrest
  rw [byteLength_append] at hlength
  omega

end Text

namespace Tree

variable {source : String}

/-- The verdict on a trip through the whole of `text`: a fault stands where the cursor does,
trailing input at the first character from there that is no blank. -/
def ofTrip (text : List Char) : Trip Tree → Except ParseError Tree
  | .read tree c =>
    match dropBlanks c.left with
    | [] => .ok tree
    | extra => .error ⟨.trailing, placeOf text extra⟩
  | .stopped _ c =>
    .error ⟨if c.nesting.past.isSome then .tooDeep else .invalid, placeOf text c.left⟩

/-- The trip of a whole condition through a text. -/
def trip (text : List Char) : Trip Tree := Walk.limited.item (.entering 0 none text)

theorem trip_progress (text : List Char) :
    Progress 1 0 none text limited.item (trip text) := by
  obtain ⟨_, h⟩ := Rule.item.retraces (Nat.zero_le maxNesting)
  exact h.progress (Nat.zero_le _) none text

/-- A trimmed text starts with no gap, so a refused condition takes nothing of it. -/
theorem refused_trip {c : Cursor} (h : trip (trim source.toList) = .stopped .refused c) :
    c.left = trim source.toList := by
  have hleft : c.left = skipGap (trim source.toList) := Walk.item_refusedAt h
  rw [hleft]
  cases htrim : trim source.toList with
  | nil => rfl
  | cons d ds =>
    have hgap : isGap d = false := isGap_eq_false (isBlank_of_trim_cons htrim)
    rw [skipGap, List.dropWhile_cons_of_neg (by simp [hgap])]

theorem parse_eq_ofTrip (hne : trim source.toList ≠ []) :
    parse source = ofTrip (trim source.toList) (trip (trim source.toList)) := by
  have hreply : parse source = ofReply (trim source.toList)
      (limited.item ⟨0, none⟩ (trim source.toList)) := by
    rw [parse, parseUnder]
    split
    · exact absurd ‹_› hne
    · rfl
  have hstart : placeOf (trim source.toList) (trim source.toList) = .start :=
    placeOf_append [] _
  have hrefused {c : Cursor} := @refused_trip source c
  have hmatches : (trip (trim source.toList)).Matches 1 (.entering 0 none (trim source.toList))
      (limited.item ⟨0, none⟩ (trim source.toList)) :=
    (limited_retraces (Nat.zero_add maxNesting)).1.replies rfl
  rw [hreply]
  generalize trip _ = t, limited.item _ _ = reply at hmatches hrefused
  cases hmatches with
  | read => rfl
  | refused hreach =>
    have hpast : _ = (⟨0, none⟩ : Nesting) := hreach.nesting
    rw [ofTrip, hpast, hrefused rfl, hstart]
    rfl
  | @halted c hreach =>
    -- no place was kept before, so the one that is kept is where the cursor stands
    have hpast : c.nesting = ⟨0, none⟩ := hreach.nesting
    simp only [ofTrip, ofReply, Cursor.mark, hpast]
    rfl

/-- What the trip through a trimmed source says about its parse: the verdict, and the offsets
of the places at which it may stand, by differences of lengths that are never cut off. -/
structure Measured (source : String) (text : List Char) (trip : Trip Tree) : Prop where
  parse_eq : parse source = ofTrip text trip
  length_le : byteLength trip.cursor.left ≤ byteLength text
  offset_left : (placeOf text trip.cursor.left).offset =
    byteLength text - byteLength trip.cursor.left
  offset_trailing : (placeOf text (dropBlanks trip.cursor.left)).offset =
    byteLength text - byteLength trip.cursor.left +
      byteLength (trip.cursor.left.takeWhile isBlank)

/-- Up to the limit of nesting every rule of the grammar makes progress and comes back to its
level, and the place of every fault is the difference of two lengths. The walks and the readers
that the rules are about solve the equations of the grammar. -/
theorem parse_progress :
    (Walk.limited.item = Walk.nested (Walk.disjunction Walk.limited) ∧
        limited.item = nested .enforced (disjunction limited)) ∧
      (Walk.limited.negand = Walk.nested (Walk.negation Walk.limited) ∧
        limited.negand = nested .enforced (negation limited)) ∧
      (∀ {α : Type} {least : Nat} {p : Walk α} {r : Reader α}, Rule least p r →
        ∀ level ≤ maxNesting, ∀ past text,
          Progress least level past text r (p (.entering level past text))) ∧
      ∀ source, trim source.toList ≠ [] →
        Measured source (trim source.toList) (trip (trim source.toList)) := by
  refine ⟨limited_item_eq, limited_negand_eq, ?_, ?_⟩
  · intro α least p r hrule level hlevel past text
    obtain ⟨_, h⟩ := hrule.retraces hlevel
    exact h.progress hlevel past text
  · intro source hne
    have hsuffix := (trip_progress (trim source.toList)).suffix
    obtain ⟨hle, hoffset⟩ := offset_placeOf hsuffix
    exact {
      parse_eq := parse_eq_ofTrip hne
      length_le := hle
      offset_left := hoffset
      offset_trailing := offset_placeOf_dropBlanks hsuffix }

/-- At the limit an item in parentheses halts where it starts, and the level is kept. -/
theorem progress_at_limit :
    Progress 1 maxNesting none "(a)".toList (parentheses limited)
        (Walk.parentheses Walk.limited (.entering maxNesting none "(a)".toList)) ∧
      parentheses limited ⟨maxNesting, none⟩ "(a)".toList =
        .halted ⟨maxNesting, some "a)".toList⟩ ∧
      Measured "a b" "a b".toList (trip "a b".toList) ∧
      parse "a b" = .error ⟨.trailing, ⟨2, 1, 3⟩⟩ :=
  ⟨parse_progress.2.2.1 .parentheses maxNesting (Nat.le_refl _) none _, rfl,
    parse_progress.2.2.2 "a b" (by decide), rfl⟩

end Tree

end RowFilter
