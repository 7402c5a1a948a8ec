import RowFilter.Proofs.Grammar.Compositional
import RowFilter.Proofs.Rendering.Literals
import RowFilter.Proofs.Tree.WellFormed

/-! The rendered text of a tree, taken apart into tokens and spaces. The pieces follow the
tree as its rendering does; their layout is the rendered text, and their tokens form a
sentence as far as the rules of the grammar go, operands and levels apart. -/

namespace RowFilter

open Grammar

namespace Grammar

/-- The characters of a token, texts being double quoted. -/
def Token.chars : Token → List Char
  | .word w => w.toList
  | .number n => n.chars
  | .text s => (quoted s).toList
  | .symbol s => s.toList

end Grammar

inductive Piece where
  | space
  | token (t : Token)

def Piece.chars : Piece → List Char
  | .space => [' ']
  | .token t => t.chars

def Piece.tokens : Piece → List Token
  | .space => []
  | .token t => [t]

def layout (ps : List Piece) : List Char := ps.flatMap Piece.chars

def tokensOf (ps : List Piece) : List Token := ps.flatMap Piece.tokens

namespace Numeral

/-- The sign of a numeral is a token of its own. -/
def tokens (n : Numeral) : List Token :=
  if n.negative then [.symbol "-", .number n.magnitude] else [.number n]

end Numeral

def Literal.tokens (l : Literal) : List Token :=
  match l with
  | .str text => [.text text]
  | .bool true => [.word "True"]
  | .bool false => [.word "False"]
  | .none => [.word "None"]
  | l => match numeral? l.render.toList with
    | some (n, _) => n.tokens
    | _ => []

def Relation.pieces (r : Relation) : List Piece :=
  joined [.space] ((relationTokens r).map fun t => [.token t])

namespace Tree

def grouped (loose : Bool) (ps : List Piece) : List Piece :=
  if loose then .token (.symbol "(") :: (ps ++ [.token (.symbol ")")]) else ps

/-- The separator of items and of arguments. -/
def commaSpace : List Piece := [.token (.symbol ","), .space]

def spaced (ps : List Piece) : List Piece := .space :: (ps ++ [.space])

mutual

def pieces : Tree → List Piece
  | .chain connective operands =>
    joined (spaced [.token (connectiveToken connective)]) (operandPieces operands)
  | .not operand => .token (.word "not") :: .space :: grouped operand.isLoose operand.pieces
  | .compare left steps => grouped left.isLoose left.pieces ++ stepPieces steps
  | .ident name => [.token (.word name)]
  | .literal value => value.tokens.map .token
  | .list items =>
    .token (.symbol "[") :: (joined commaSpace (itemPieces items) ++ [.token (.symbol "]")])
  | .tuple items =>
    .token (.symbol "(") :: (joined commaSpace (itemPieces items) ++
      ((commaIf (items.length == 1)).map .token ++ [.token (.symbol ")")]))
  | .attr base name => base.pieces ++ [.token (.symbol "."), .token (.word name)]
  | .call callee args =>
    callee.pieces ++ .token (.symbol "(") ::
      (joined commaSpace (argPieces args) ++ [.token (.symbol ")")])
termination_by structural t => t

def operandPieces : List Tree → List (List Piece)
  | [] => []
  | t :: ts => grouped t.isLoose t.pieces :: operandPieces ts
termination_by structural ts => ts

def itemPieces : List Tree → List (List Piece)
  | [] => []
  | t :: ts => t.pieces :: itemPieces ts
termination_by structural ts => ts

def stepPieces : List (Relation × Tree) → List Piece
  | [] => []
  | (relation, right) :: steps =>
    spaced relation.pieces ++ (grouped right.isLoose right.pieces ++ stepPieces steps)
termination_by structural steps => steps

def argPieces : List (Passing × Tree) → List (List Piece)
  | [] => []
  | (passing, value) :: args =>
    (passing.tokens.map .token ++ value.pieces) :: argPieces args
termination_by structural args => args

end

/-- The pieces of a tree where an operand is expected. -/
def piecesInOperand (t : Tree) : List Piece := grouped t.isLoose t.pieces

theorem operandPieces_eq_map (ts : List Tree) :
    operandPieces ts = ts.map piecesInOperand := by
  induction ts with
  | nil => rfl
  | cons t ts ih => simp [operandPieces, piecesInOperand, ih]

theorem itemPieces_eq_map (ts : List Tree) : itemPieces ts = ts.map pieces := by
  induction ts with
  | nil => rfl
  | cons t ts ih => simp [itemPieces, ih]

theorem stepPieces_eq_flatMap (steps : List (Relation × Tree)) :
    stepPieces steps = steps.flatMap fun s => spaced s.1.pieces ++ s.2.piecesInOperand := by
  induction steps with
  | nil => rfl
  | cons s steps ih => simp [stepPieces, piecesInOperand, ih]

theorem argPieces_eq_map (args : List (Passing × Tree)) :
    argPieces args = args.map fun a => a.1.tokens.map .token ++ a.2.pieces := by
  induction args with
  | nil => rfl
  | cons a args ih => simp [argPieces, ih]

end Tree

namespace Numeral

variable {n : Numeral}

theorem magnitude_eq (h : n.negative = false) : n.magnitude = n := by
  rw [magnitude, ← h]

theorem numeral?_chars (hn : n.magnitude.Written) : numeral? n.chars = some (n, []) := by
  have hread : unsigned? n.magnitude.chars = some (n.magnitude, []) := by
    rw [← List.append_nil n.magnitude.chars]
    exact unsigned?_chars hn (by simp [EndsWord]) (by simp)
  obtain ⟨c, more, hchars, hc⟩ := hn.head
  cases hsign : n.negative with
  | false =>
    rw [magnitude_eq hsign] at hread hchars
    rw [numeral?_eq_unsigned?, hread]
    rw [hchars]
    rintro _ ⟨⟩
    rcases hc with hc | hc <;> cases hc
  | true =>
    have hgap : skipGap n.magnitude.chars = n.magnitude.chars := by
      refine skipGap_of_lexeme? (unsigned?_eq_some_iff.1 hread)
    rw [n.chars_of_negative hsign, numeral?, hgap, hread, Option.map_some]
    simp [magnitude, ← hsign]

end Numeral

namespace Literal

variable {l : Literal}

theorem tokens_of_isNumber (hl : l.WellFormed) (h : l.isNumber = true) :
    ∃ n : Numeral, n.Denotes l ∧ l.render.toList = n.chars ∧ l.tokens = n.tokens := by
  obtain ⟨n, hn, hchars⟩ := exists_numeral hl h
  refine ⟨n, hn, hchars, ?_⟩
  have hread : numeral? l.render.toList = some (n, []) := by
    rw [hchars, Numeral.numeral?_chars hn.written]
  cases l with
  | int | float | outOfRange => simp only [tokens, hread]
  | _ => cases h

theorem layout_tokens (hl : l.WellFormed) :
    layout (l.tokens.map .token) = l.render.toList := by
  cases hnumber : l.isNumber with
  | true =>
    obtain ⟨n, hn, hchars, htokens⟩ := tokens_of_isNumber hl hnumber
    rw [htokens, hchars, Numeral.tokens]
    split
    · rename_i hsign
      simp [layout, Piece.chars, Token.chars, n.chars_of_negative hsign]
    · simp [layout, Piece.chars, Token.chars]
  | false =>
    cases l with
    | int | float | outOfRange => cases hnumber
    | bool value => cases value <;> rfl
    | _ => simp [tokens, layout, Piece.chars, Token.chars, render]

theorem phrase_tokens (hl : l.WellFormed) : LiteralPhrase l l.tokens := by
  cases hnumber : l.isNumber with
  | true =>
    obtain ⟨n, hn, -, htokens⟩ := tokens_of_isNumber hl hnumber
    rw [htokens, Numeral.tokens, ← hn.literal]
    split
    · rename_i hsign
      have hphrase := LiteralPhrase.negative hn.written
      rwa [show { n.magnitude with negative := true } = n by simp [Numeral.magnitude, ← hsign]]
        at hphrase
    · rename_i hsign
      have hwritten := hn.written
      rw [Numeral.magnitude_eq (by simpa using hsign)] at hwritten
      exact .number hwritten
  | false =>
    cases l with
    | int | float | outOfRange => cases hnumber
    | bool value => cases value <;> constructor
    | _ => constructor

end Literal

section

variable {ps qs : List Piece} {p : Piece}

@[simp]
theorem layout_nil : layout [] = [] := rfl

@[simp]
theorem layout_append : layout (ps ++ qs) = layout ps ++ layout qs := List.flatMap_append

@[simp]
theorem layout_cons : layout (p :: ps) = p.chars ++ layout ps := List.flatMap_cons

@[simp]
theorem chars_space : Piece.space.chars = [' '] := rfl

@[simp]
theorem chars_word (w : String) : (Piece.token (.word w)).chars = w.toList := rfl

@[simp]
theorem chars_symbol (s : String) : (Piece.token (.symbol s)).chars = s.toList := rfl

theorem layout_joined (separator : List Piece) (xs : List (List Piece)) :
    layout (joined separator xs) = joined (layout separator) (xs.map layout) :=
  flatMap_joined Piece.chars separator xs

end

theorem Relation.layout_pieces (r : Relation) : layout r.pieces = r.symbol.toList := by
  cases r <;> rfl

theorem Passing.layout_tokens (p : Passing) :
    layout (p.tokens.map .token) = p.mark.toList := by
  cases p <;> simp [Passing.tokens, Passing.mark, layout, Piece.chars, Token.chars]

namespace Tree

theorem layout_piecesInOperand {t : Tree} (h : layout t.pieces = t.render.toList) :
    layout t.piecesInOperand = t.operandText.toList := by
  unfold piecesInOperand grouped operandText
  split
  · simp [h, parenthesized]
  · exact h

/-- A rendered list is laid out as its parts are. -/
theorem layout_joined_map {α : Type} {xs : List α} {f : α → List Piece} {g : α → String}
    {separator : List Piece} {text : String} (hseparator : layout separator = text.toList)
    (h : ∀ x ∈ xs, layout (f x) = (g x).toList) :
    layout (joined separator (xs.map f)) = (String.intercalate text (xs.map g)).toList := by
  rw [layout_joined, String.toList_intercalate, intercalate_eq_joined, hseparator, List.map_map,
    List.map_map]
  exact congrArg _ (List.map_congr_left h)

theorem render_tuple (items : List Tree) : (tuple items).render =
    "(" ++ String.intercalate ", " (items.map render) ++
      (if items.length == 1 then "," else "") ++ ")" := by
  match items with
  | [] => rfl
  | [item] => simp [render, String.append_assoc]
  | _ :: _ :: _ => simp [render, itemTexts_eq_map, itemTexts, String.append_assoc]

theorem layout_commaIf (comma : Bool) :
    layout ((commaIf comma).map .token) = (if comma then "," else "").toList := by
  cases comma <;> rfl

theorem layout_stepPieces {steps : List (Relation × Tree)}
    (h : ∀ s ∈ steps, layout s.2.piecesInOperand = s.2.operandText.toList) :
    layout (stepPieces steps) = (stepsText steps).toList := by
  induction steps with
  | nil => rfl
  | cons s steps ih =>
    obtain ⟨hs, hsteps⟩ := List.forall_mem_cons.1 h
    have hspace : " ".toList = [' '] := rfl
    unfold stepPieces stepsText
    simp only [spaced, layout_append, layout_cons, layout_nil, chars_space, String.toList_append,
      Relation.layout_pieces, ih hsteps, hspace, List.append_assoc, List.append_nil]
    exact congrArg (fun cs => [' '] ++ (s.1.symbol.toList ++ ([' '] ++ (cs ++ _)))) hs

/-- The pieces are laid out as the rendered text. -/
theorem layout_pieces {t : Tree} (ht : t.WellFormed) : layout t.pieces = t.render.toList := by
  induction t using Tree.induct with
  | node t ih =>
    obtain ⟨hnode, hchildren⟩ := wellFormed_iff.1 ht
    have ih (u : Tree) (hu : u ∈ t.children) : layout u.pieces = u.render.toList :=
      ih u hu (hchildren u hu)
    have ihOperand (u : Tree) (hu : u ∈ t.children) :
        layout u.piecesInOperand = u.operandText.toList := layout_piecesInOperand (ih u hu)
    have hcomma : layout commaSpace = ", ".toList := rfl
    cases t with
    | chain c operands =>
      rw [pieces, render, operandPieces_eq_map, operandTexts_eq_map]
      exact layout_joined_map (by cases c <;> rfl) ihOperand
    | not operand =>
      have hoperand := ihOperand operand (by simp [children])
      have hnot : "not ".toList = "not".toList ++ [' '] := rfl
      unfold pieces render
      rw [layout_cons, layout_cons, String.toList_append, hnot, List.append_assoc]
      exact congrArg (fun cs => "not".toList ++ ([' '] ++ cs)) hoperand
    | compare left steps =>
      have hleft := ihOperand left (by simp [children])
      have hsteps := layout_stepPieces fun s (hs : s ∈ steps) =>
        ihOperand s.2 (mem_children_of_step hs)
      unfold pieces render
      rw [layout_append, String.toList_append, hsteps]
      exact congrArg (· ++ (stepsText steps).toList) hleft
    | ident name => simp [pieces, render]
    | literal l => rw [pieces, render, Literal.layout_tokens hnode]
    | list items =>
      have hitems : layout (joined commaSpace (items.map pieces)) =
          (String.intercalate ", " (items.map render)).toList := layout_joined_map hcomma ih
      rw [pieces, render, itemPieces_eq_map, itemTexts_eq_map]
      simp [hitems]
    | tuple items =>
      have hitems : layout (joined commaSpace (items.map pieces)) =
          (String.intercalate ", " (items.map render)).toList := layout_joined_map hcomma ih
      rw [pieces, render_tuple, itemPieces_eq_map]
      simp only [layout_cons, layout_append, hitems, layout_commaIf]
      simp
    | attr base name =>
      rw [pieces, render]
      simp [ih base (by simp [children])]
    | call callee args =>
      have hargs : ∀ a ∈ args, layout (a.1.tokens.map .token ++ a.2.pieces) =
          (a.1.mark ++ a.2.render).toList := by
        intro a ha
        rw [layout_append, Passing.layout_tokens, String.toList_append,
          ih a.2 (mem_children_of_arg ha)]
      rw [pieces, render, argPieces_eq_map, argTexts_eq_map]
      simp [layout_joined_map hcomma hargs, ih callee (by simp [children])]

end Tree

end RowFilter
