import RowFilter.Proofs.Rendering.Pieces

/-! The tokens of a rendered text. Read without regard to operands and levels they are a
sentence for the tree, so every compositional relation holds of them too. -/

namespace RowFilter

open Grammar

namespace Grammar

section

variable {α : Type} {R : α → List Token → Prop} {f : α → List Token}

theorem series_joined {t : Token} {as : List α} (hne : as ≠ []) (h : ∀ a ∈ as, R a (f a)) :
    Series t R as (joined [t] (as.map f)) := by
  obtain ⟨a, as, rfl⟩ := List.exists_cons_of_ne_nil hne
  obtain ⟨ha, has⟩ := List.forall_mem_cons.1 h
  simp only [List.map_cons, joined, List.flatMap_map]
  exact .mk ha (repeats_flatMap fun a h => .mk (has a h))

theorem commas_joined {as : List α} (h : ∀ a ∈ as, R a (f a)) :
    Commas R as (joined [.symbol ","] (as.map f)) := by
  cases as with
  | nil => exact .inl ⟨rfl, rfl⟩
  | cons a as => exact .inr (series_joined (by simp) h)

end

end Grammar

section

variable {ps qs : List Piece} {p : Piece}

@[simp]
theorem tokensOf_nil : tokensOf [] = [] := rfl

@[simp]
theorem tokensOf_append : tokensOf (ps ++ qs) = tokensOf ps ++ tokensOf qs := List.flatMap_append

@[simp]
theorem tokensOf_cons : tokensOf (p :: ps) = p.tokens ++ tokensOf ps := List.flatMap_cons

@[simp]
theorem tokens_space : Piece.space.tokens = [] := rfl

@[simp]
theorem tokens_token (t : Token) : (Piece.token t).tokens = [t] := rfl

@[simp]
theorem tokensOf_map (ts : List Token) : tokensOf (ts.map .token) = ts := by
  induction ts with
  | nil => rfl
  | cons t ts ih => simp [ih]

theorem tokensOf_joined (separator : List Piece) (xs : List (List Piece)) :
    tokensOf (joined separator xs) = joined (tokensOf separator) (xs.map tokensOf) :=
  flatMap_joined Piece.tokens separator xs

end

theorem Relation.tokensOf_pieces (r : Relation) : tokensOf r.pieces = relationTokens r := by
  cases r <;> rfl

namespace Tree

def tokens (t : Tree) : List Token := tokensOf t.pieces

/-- The tokens of a tree where an operand is expected. -/
def tokensInOperand (t : Tree) : List Token := tokensOf t.piecesInOperand

def stepTokens (step : Relation × Tree) : List Token :=
  relationTokens step.1 ++ step.2.tokensInOperand

def argTokens (arg : Passing × Tree) : List Token := arg.1.tokens ++ arg.2.tokens

theorem tokensInOperand_of_loose {t : Tree} (h : t.isLoose = true) :
    t.tokensInOperand = .symbol "(" :: (t.tokens ++ [.symbol ")"]) := by
  simp [tokensInOperand, piecesInOperand, grouped, h, tokens]

theorem tokensInOperand_of_tight {t : Tree} (h : t.isLoose = false) :
    t.tokensInOperand = t.tokens := by
  simp [tokensInOperand, piecesInOperand, grouped, h, tokens]

theorem tokens_chain (c : Connective) (operands : List Tree) :
    (chain c operands).tokens = joined [connectiveToken c] (operands.map tokensInOperand) := by
  rw [tokens, pieces, operandPieces_eq_map, tokensOf_joined, List.map_map]
  rfl

theorem tokens_not (operand : Tree) :
    (Tree.not operand).tokens = .word "not" :: operand.tokensInOperand := by
  rw [tokens, pieces]
  rfl

theorem tokens_compare (left : Tree) (steps : List (Relation × Tree)) :
    (compare left steps).tokens = left.tokensInOperand ++ steps.flatMap stepTokens := by
  rw [tokens, pieces, stepPieces_eq_flatMap, tokensOf_append]
  refine congrArg (left.tokensInOperand ++ ·) ?_
  induction steps with
  | nil => rfl
  | cons step steps ih =>
    rw [List.flatMap_cons, List.flatMap_cons, tokensOf_append, ih]
    simp [spaced, stepTokens, tokensInOperand, Relation.tokensOf_pieces]

theorem tokens_ident (name : String) : (ident name).tokens = [.word name] := by
  simp [tokens, pieces]

theorem tokens_literal (l : Literal) : (literal l).tokens = l.tokens := by
  simp [tokens, pieces]

theorem tokensOf_items (items : List Tree) :
    tokensOf (joined commaSpace (itemPieces items)) = joined [.symbol ","] (items.map tokens) := by
  rw [itemPieces_eq_map, tokensOf_joined, List.map_map]
  rfl

theorem tokens_list (items : List Tree) : (list items).tokens =
    .symbol "[" :: (joined [.symbol ","] (items.map tokens) ++ [.symbol "]"]) := by
  simp [tokens, pieces, tokensOf_items]

theorem tokens_tuple (items : List Tree) : (tuple items).tokens =
    .symbol "(" :: (joined [.symbol ","] (items.map tokens) ++
      (commaIf (items.length == 1) ++ [.symbol ")"])) := by
  simp [tokens, pieces, tokensOf_items]

theorem tokens_attr (base : Tree) (name : String) :
    (attr base name).tokens = base.tokens ++ [.symbol ".", .word name] := by
  simp [tokens, pieces]

theorem tokens_call (callee : Tree) (args : List (Passing × Tree)) : (call callee args).tokens =
    callee.tokens ++ .symbol "(" ::
      (joined [.symbol ","] (args.map argTokens) ++ [.symbol ")"]) := by
  have hargs : tokensOf (joined commaSpace (argPieces args)) =
      joined [.symbol ","] (args.map argTokens) := by
    rw [argPieces_eq_map, tokensOf_joined, List.map_map]
    refine congrArg (joined _) (List.map_congr_left fun a _ => ?_)
    simp [argTokens, tokens]
  simp [tokens, pieces, hargs]

end Tree

namespace Grammar.Compositional

variable {M : Tree → List Token → Prop} (hM : Compositional M)

include hM

theorem inOperand {t : Tree} (h : M t t.tokens) : M t t.tokensInOperand := by
  cases hloose : t.isLoose with
  | true =>
    rw [Tree.tokensInOperand_of_loose hloose]
    exact hM.group h
  | false => rwa [Tree.tokensInOperand_of_tight hloose]

/-- A compositional relation holds of the rendered tokens of every well formed tree. -/
theorem tokens {t : Tree} (ht : t.WellFormed) : M t t.tokens := by
  induction t using Tree.induct with
  | node t ih =>
    obtain ⟨hnode, hchildren⟩ := Tree.wellFormed_iff.1 ht
    have ih (u : Tree) (hu : u ∈ t.children) : M u u.tokens := ih u hu (hchildren u hu)
    have ihOperand (u : Tree) (hu : u ∈ t.children) : M u u.tokensInOperand :=
      hM.inOperand (ih u hu)
    cases t with
    | chain c operands =>
      rw [Tree.tokens_chain]
      have hne : operands ≠ [] := by
        rintro rfl
        exact absurd hnode (by simp [Tree.NodeWellFormed])
      exact hM.chain (series_joined hne ihOperand) hnode
    | not operand =>
      rw [Tree.tokens_not]
      exact hM.not (ihOperand operand (by simp [Tree.children]))
    | compare left steps =>
      rw [Tree.tokens_compare]
      refine hM.compare (ihOperand left (by simp [Tree.children])) (repeats_flatMap ?_) hnode
      intro step hstep
      exact .mk step.1 (ihOperand step.2 (Tree.mem_children_of_step hstep))
    | ident name =>
      rw [Tree.tokens_ident]
      exact hM.ident hnode
    | literal l =>
      rw [Tree.tokens_literal]
      exact hM.literal (Literal.phrase_tokens hnode)
    | list items =>
      rw [Tree.tokens_list]
      exact hM.list false (commas_joined ih)
    | tuple items =>
      rw [Tree.tokens_tuple]
      exact hM.tuple _ (commas_joined ih)
    | attr base name =>
      rw [Tree.tokens_attr]
      exact hM.attr (ih base (by simp [Tree.children])) hnode
    | call callee args =>
      rw [Tree.tokens_call]
      refine hM.call false (ih callee (by simp [Tree.children])) (commas_joined ?_) hnode
      intro arg harg
      exact .mk arg.1 (ih arg.2 (Tree.mem_children_of_arg harg))

end Grammar.Compositional

end RowFilter
