import RowFilter.Proofs.Rendering.Faithful
import RowFilter.Proofs.Rendering.Lexing

/-! Where a rendered point stands directly behind a whole numeral. That happens at an
attribute of such a literal only, as long as the bases of attributes are tight. -/

namespace RowFilter

open Grammar

/-- No whole numeral among the pieces has a point directly behind it. -/
def Clear (ps : List Piece) : Prop := Unclipped ps []

section

variable {ps qs : List Piece} {rest rest' cs : List Char} {t : Token} {c : Char}

theorem startsPoint_cons : StartsPoint (c :: cs) ↔ c = '.' := by
  constructor
  · intro h
    obtain ⟨more, ⟨⟩⟩ := h
    rfl
  · rintro rfl
    exact ⟨cs, rfl⟩

theorem not_startsPoint_nil : ¬ StartsPoint [] := by
  intro h
  obtain ⟨more, ⟨⟩⟩ := h

theorem startsPoint_append (h : StartsPoint rest ↔ StartsPoint rest') :
    StartsPoint (cs ++ rest) ↔ StartsPoint (cs ++ rest') := by
  cases cs with
  | nil => exact h
  | cons c cs => rw [List.cons_append, List.cons_append, startsPoint_cons, startsPoint_cons]

theorem clipped_congr (h : StartsPoint rest ↔ StartsPoint rest') :
    t.Clipped rest ↔ t.Clipped rest' := by
  cases t with
  | number n => exact and_congr_right fun _ => h
  | _ => exact Iff.rfl

/-- Of the text behind the pieces only the point matters. -/
theorem unclipped_congr (h : StartsPoint rest ↔ StartsPoint rest') :
    Unclipped ps rest ↔ Unclipped ps rest' := by
  induction ps with
  | nil => exact Iff.rfl
  | cons piece ps ih =>
    cases piece with
    | space => exact ih
    | token t => exact and_congr (not_congr (clipped_congr (startsPoint_append h))) ih

theorem unclipped_iff_clear (h : ¬ StartsPoint rest) : Unclipped ps rest ↔ Clear ps :=
  unclipped_congr (iff_of_false h not_startsPoint_nil)

theorem clear_append (hqs : ¬ StartsPoint (layout qs)) :
    Clear (ps ++ qs) ↔ Clear ps ∧ Clear qs := by
  have h : Clear (ps ++ qs) ↔ Unclipped ps (layout qs ++ []) ∧ Clear qs := along_append
  rw [h, List.append_nil, unclipped_iff_clear hqs]

/-- A text behind the pieces can only do harm. -/
theorem clear_of_unclipped (h : Unclipped ps rest) : Clear ps := by
  by_cases hpoint : StartsPoint rest
  · induction ps with
    | nil => trivial
    | cons piece ps ih =>
      cases piece with
      | space => exact ih h
      | token t =>
        refine ⟨fun hclip => h.1 ?_, ih h.2⟩
        cases t with
        | number n =>
          obtain ⟨hwhole, more, hmore⟩ := hclip
          rw [List.append_nil] at hmore
          exact ⟨hwhole, more ++ rest, by rw [hmore]; rfl⟩
        | _ => exact hclip
  · exact (unclipped_iff_clear hpoint).1 h

theorem clear_space : Clear (.space :: ps) ↔ Clear ps := Iff.rfl

theorem clear_word {w : String} : Clear (.token (.word w) :: ps) ↔ Clear ps :=
  and_iff_right id

theorem clear_symbol {s : String} : Clear (.token (.symbol s) :: ps) ↔ Clear ps :=
  and_iff_right id

theorem clear_nil : Clear [] := trivial

theorem not_startsPoint_symbol {s : String} {c : Char} {cs : List Char} (hs : s.toList = c :: cs)
    (hc : c ≠ '.') : ¬ StartsPoint (layout (.token (.symbol s) :: ps)) := by
  rw [layout_cons, chars_symbol, hs]
  exact fun h => hc (startsPoint_cons.1 h)

theorem not_startsPoint_flatMap {α : Type} {xs : List α} {f : α → List Piece}
    (h : ∀ x, ∃ c more, layout (f x) = c :: more ∧ c ≠ '.') :
    ¬ StartsPoint (layout (xs.flatMap f)) := by
  cases xs with
  | nil => exact not_startsPoint_nil
  | cons x xs =>
    obtain ⟨c, more, hcs, hc⟩ := h x
    rwa [List.flatMap_cons, layout_append, hcs, List.cons_append, startsPoint_cons]

theorem clear_flatMap {α : Type} {xs : List α} {f : α → List Piece}
    (h : ∀ x, ∃ c more, layout (f x) = c :: more ∧ c ≠ '.') :
    Clear (xs.flatMap f) ↔ ∀ x ∈ xs, Clear (f x) := by
  induction xs with
  | nil => simp [clear_nil]
  | cons x xs ih =>
    rw [List.flatMap_cons, clear_append (not_startsPoint_flatMap h), ih, List.forall_mem_cons]

/-- Separators that start with something else than a point leave the parts clear. -/
theorem clear_joined {separator : List Piece} {xs : List (List Piece)}
    (hlayout : ∃ c more, layout separator = c :: more ∧ c ≠ '.')
    (hsep : ∀ ps, Clear (separator ++ ps) ↔ Clear ps) :
    Clear (joined separator xs) ↔ ∀ x ∈ xs, Clear x := by
  obtain ⟨c, more, hlayout, hc⟩ := hlayout
  cases xs with
  | nil => simp [joined, clear_nil]
  | cons x xs =>
    have hstart (y : List Piece) : ∃ c more, layout (separator ++ y) = c :: more ∧ c ≠ '.' :=
      ⟨c, more ++ layout y, by rw [layout_append, hlayout]; rfl, hc⟩
    rw [joined, clear_append (not_startsPoint_flatMap hstart), clear_flatMap hstart,
      List.forall_mem_cons]
    simp only [hsep]

/-- Behind a token that is no numeral a point is harmless. -/
theorem unclipped_concat (hne : t.chars ≠ []) (ht : ∀ cs, ¬ t.Clipped cs) :
    Unclipped (ps ++ [.token t]) rest ↔ Clear (ps ++ [.token t]) := by
  have hlast (cs : List Char) : Unclipped [.token t] cs := ⟨ht _, trivial⟩
  obtain ⟨c, more, hchars⟩ := List.exists_cons_of_ne_nil hne
  have hconcat (cs : List Char) :
      Unclipped (ps ++ [.token t]) cs ↔ Unclipped ps (layout [.token t] ++ cs) :=
    along_append.trans (and_iff_left (hlast cs))
  rw [Clear, hconcat, hconcat]
  refine unclipped_congr ?_
  rw [layout_cons, show (Piece.token t).chars = c :: more from hchars]
  simp only [List.cons_append, startsPoint_cons]

theorem clear_grouped (loose : Bool) : Clear (Tree.grouped loose ps) ↔ Clear ps := by
  cases loose with
  | false => exact Iff.rfl
  | true =>
    have hclose : ¬ StartsPoint (layout [.token (.symbol ")")]) := fun h =>
      absurd (startsPoint_cons.1 h) (by decide)
    rw [Tree.grouped, if_pos rfl, clear_symbol, clear_append hclose]
    exact and_iff_left (clear_symbol.2 clear_nil)

theorem clear_spaced (hqs : Clear qs) : Clear (Tree.spaced qs ++ ps) ↔ Clear ps := by
  have hspaced : Tree.spaced qs ++ ps = .space :: (qs ++ .space :: ps) := by simp [Tree.spaced]
  have hspace : ¬ StartsPoint (layout (.space :: ps)) := fun h =>
    absurd (startsPoint_cons.1 h) (by decide)
  rw [hspaced, clear_space, clear_append hspace, clear_space]
  exact and_iff_right hqs

theorem clear_passing (p : Passing) : Clear (p.tokens.map .token ++ ps) ↔ Clear ps := by
  cases p with
  | positional => exact Iff.rfl
  | keyword name => exact clear_word.trans clear_symbol
  | _ => exact clear_symbol

theorem clear_relation (r : Relation) : Clear r.pieces := by
  cases r with
  | isIn | is => exact clear_word.2 clear_nil
  | notIn | isNot => exact clear_word.2 (clear_space.2 (clear_word.2 clear_nil))
  | _ => exact clear_symbol.2 clear_nil

theorem clear_connective (c : Connective) : Clear [.token (connectiveToken c)] := by
  cases c <;> exact clear_word.2 clear_nil

/-- A literal is clipped exactly if it is a whole number with a point behind it. -/
theorem Grammar.LiteralPhrase.unclipped {l : Literal} {ts : List Token} (h : LiteralPhrase l ts) :
    Unclipped (ts.map .token) rest ↔ (StartsPoint rest → l.isWhole = Bool.false) := by
  have hnumber {n : Numeral} {l : Literal} (hl : l.isWhole = n.isWhole) :
      Unclipped [.token (.number n)] rest ↔ (StartsPoint rest → l.isWhole = Bool.false) := by
    rw [hl]
    have hiff : Unclipped [.token (.number n)] rest ↔ ¬ (n.isWhole = Bool.true ∧ StartsPoint rest) :=
      and_iff_left trivial
    rw [hiff, not_and', Bool.not_eq_true]
  cases h with
  | number hn => exact hnumber (literalOf_isWhole (by rwa [Numeral.magnitude_eq hn.unsigned]))
  | @negative n hn =>
    have hmagnitude : ({ n with negative := Bool.true } : Numeral).magnitude = n :=
      Numeral.magnitude_eq hn.unsigned
    have hwhole : (literalOf { n with negative := Bool.true }).isWhole = n.isWhole :=
      literalOf_isWhole (by rwa [hmagnitude])
    exact (and_iff_right id).trans (hnumber hwhole)
  | _ => exact iff_of_true ⟨id, trivial⟩ fun _ => rfl

end

namespace Tree

variable {t : Tree}

/-- The pieces of a tight tree end with a bracket or a word unless it is a literal. -/
theorem pieces_eq_concat (ht : t.WellFormed) (htight : t.isLoose = false)
    (hliteral : ∀ l, t ≠ .literal l) :
    ∃ ps s, t.pieces = ps ++ [.token s] ∧ s.chars ≠ [] ∧ ∀ cs, ¬ s.Clipped cs := by
  have hname {name : String} (h : IsName name) : (Token.word name).chars ≠ [] := by
    obtain ⟨c, more, hchars, -⟩ := h.word
    simp [Token.chars, hchars]
  cases t with
  | ident name => exact ⟨[], _, rfl, hname ht.here, fun _ => id⟩
  | attr base name =>
    exact ⟨base.pieces ++ [.token (.symbol ".")], _, by simp [pieces], hname ht.here, fun _ => id⟩
  | list items =>
    exact ⟨.token (.symbol "[") :: joined commaSpace (itemPieces items), .symbol "]", rfl,
      by simp [Token.chars], fun _ => id⟩
  | tuple items =>
    exact ⟨.token (.symbol "(") :: (joined commaSpace (itemPieces items) ++
      (commaIf (items.length == 1)).map .token), .symbol ")", by simp [pieces],
      by simp [Token.chars], fun _ => id⟩
  | call callee args =>
    exact ⟨callee.pieces ++ .token (.symbol "(") :: joined commaSpace (argPieces args), .symbol ")",
      by simp [pieces], by simp [Token.chars], fun _ => id⟩
  | literal l => exact absurd rfl (hliteral l)
  | _ => cases htight

theorem unclipped_base (ht : t.WellFormed) (htight : t.isLoose = false) {name : String}
    (hclear : Clear t.pieces) :
    Unclipped t.pieces ('.' :: name.toList) ↔ NumeralApart (.attr t name) := by
  by_cases hliteral : ∃ l, t = .literal l
  · obtain ⟨l, rfl⟩ := hliteral
    rw [pieces, (Literal.phrase_tokens ht.here).unclipped]
    exact forall_prop_of_true (startsPoint_cons.2 rfl)
  · have hother : ∀ l, t ≠ .literal l := fun l h => hliteral ⟨l, h⟩
    obtain ⟨ps, s, hpieces, hne, hclip⟩ := pieces_eq_concat ht htight hother
    rw [hpieces] at hclear ⊢
    rw [unclipped_concat hne hclip]
    refine iff_of_true hclear ?_
    unfold NumeralApart
    split
    · rename_i h
      cases h
      exact absurd rfl (hother _)
    · trivial

theorem clear_commaSpaced {xs : List (List Piece)} :
    Clear (joined commaSpace xs) ↔ ∀ x ∈ xs, Clear x :=
  clear_joined ⟨',', _, rfl, by decide⟩ fun _ => clear_symbol

/-- What closes a tuple may follow a numeral. -/
theorem clear_tupleEnd (comma : Bool) :
    ¬ StartsPoint (layout ((commaIf comma).map .token ++ [.token (.symbol ")")])) ∧
      Clear ((commaIf comma).map .token ++ [.token (.symbol ")")]) := by
  cases comma with
  | false => exact ⟨not_startsPoint_symbol rfl (by decide), clear_symbol.2 clear_nil⟩
  | true =>
    exact ⟨not_startsPoint_symbol rfl (by decide), clear_symbol.2 (clear_symbol.2 clear_nil)⟩

/-- Unless it is an attribute, a tree is clear if the trees directly below it are. -/
theorem clear_iff_children (hnode : t.NodeWellFormed) (hattr : ∀ base name, t ≠ .attr base name) :
    Clear t.pieces ↔ ∀ u ∈ t.children, Clear u.pieces := by
  have hoperand (u : Tree) : Clear u.piecesInOperand ↔ Clear u.pieces := clear_grouped _
  cases t with
  | chain c operands =>
    rw [pieces, operandPieces_eq_map, clear_joined ⟨' ', _, rfl, by decide⟩
      fun _ => clear_spaced (clear_connective c), List.forall_mem_map]
    exact forall₂_congr fun u _ => hoperand u
  | not operand =>
    refine clear_word.trans ((hoperand operand).trans ?_)
    simp [children]
  | compare left steps =>
    have hstart (s : Relation × Tree) :
        ∃ c more, layout (spaced s.1.pieces ++ s.2.piecesInOperand) = c :: more ∧ c ≠ '.' :=
      ⟨' ', _, rfl, by decide⟩
    rw [pieces, stepPieces_eq_flatMap, clear_append (not_startsPoint_flatMap hstart),
      clear_flatMap hstart, children, List.forall_mem_cons, List.forall_mem_map]
    refine and_congr (hoperand left) (forall₂_congr fun s _ => ?_)
    exact (clear_spaced (clear_relation s.1)).trans (hoperand s.2)
  | ident name => exact iff_of_true (clear_word.2 clear_nil) (by simp [children])
  | literal l =>
    exact iff_of_true ((Literal.phrase_tokens hnode).unclipped.2 fun h =>
      absurd h not_startsPoint_nil) (by simp [children])
  | list items =>
    rw [pieces, clear_symbol, clear_append (not_startsPoint_symbol rfl (by decide)),
      itemPieces_eq_map, clear_commaSpaced, List.forall_mem_map]
    exact and_iff_left (clear_symbol.2 clear_nil)
  | tuple items =>
    rw [pieces, clear_symbol, clear_append (clear_tupleEnd _).1, itemPieces_eq_map,
      clear_commaSpaced, List.forall_mem_map]
    exact and_iff_left (clear_tupleEnd _).2
  | attr base name => exact absurd rfl (hattr base name)
  | call callee args =>
    rw [pieces, clear_append (not_startsPoint_symbol rfl (by decide)), clear_symbol,
      clear_append (not_startsPoint_symbol rfl (by decide)), argPieces_eq_map, clear_commaSpaced,
      List.forall_mem_map, children, List.forall_mem_cons, List.forall_mem_map]
    refine and_congr Iff.rfl ((and_iff_left (clear_symbol.2 clear_nil)).trans ?_)
    exact forall₂_congr fun a _ => clear_passing a.1

theorem clear_attr {base : Tree} {name : String} (ht : base.WellFormed)
    (htight : base.isLoose = false) :
    Clear (attr base name).pieces ↔ NumeralApart (.attr base name) ∧ Clear base.pieces := by
  have happend : Clear (attr base name).pieces ↔
      Unclipped base.pieces (layout [.token (.symbol "."), .token (.word name)] ++ []) ∧
        Clear [.token (.symbol "."), .token (.word name)] := along_append
  have hlayout : layout [.token (.symbol "."), .token (.word name)] ++ [] =
      '.' :: name.toList := by simp
  rw [happend, hlayout, and_iff_left (clear_symbol.2 (clear_word.2 clear_nil))]
  constructor
  · intro h
    have hclear := clear_of_unclipped h
    exact ⟨(unclipped_base ht htight hclear).1 h, hclear⟩
  · intro hparts
    obtain ⟨hapart, hclear⟩ := hparts
    exact (unclipped_base ht htight hclear).2 hapart

/-- The pieces of a tree with tight bases are clear exactly if no attribute stands behind
a whole numeral. -/
theorem clear_pieces (ht : t.WellFormed) (htight : t.Everywhere TightBase) :
    Clear t.pieces ↔ t.Everywhere NumeralApart := by
  induction t using Tree.induct with
  | node t ih =>
    have ih (u : Tree) (hu : u ∈ t.children) : Clear u.pieces ↔ u.Everywhere NumeralApart :=
      ih u hu (ht.child hu) (htight.child hu)
    rw [everywhere_iff]
    by_cases hattr : ∃ base name, t = .attr base name
    · obtain ⟨base, name, rfl⟩ := hattr
      have hbase : base ∈ (attr base name).children := by simp [children]
      rw [clear_attr (ht.child hbase) htight.here, ih base hbase]
      simp [children]
    · have hother : ∀ base name, t ≠ .attr base name := fun base name h =>
        hattr ⟨base, name, h⟩
      have hapart : NumeralApart t := by
        unfold NumeralApart
        split
        · exact absurd rfl (hother _ _)
        · trivial
      rw [clear_iff_children ht.here hother, and_iff_right hapart]
      exact forall₂_congr ih

end Tree

end RowFilter
