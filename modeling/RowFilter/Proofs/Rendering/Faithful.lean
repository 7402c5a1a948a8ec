import RowFilter.Proofs.Rendering.Features

/-! Trees that their rendered text stands for. What the rendering leaves to chance is the
base of an attribute or a call, which gets no parentheses, and the number of levels, to
which it adds parentheses of its own. Where neither does harm, the rendered tokens are a
sentence for the tree. -/

namespace RowFilter

open Grammar

/-- The greatest of some numbers, zero if there are none. -/
def greatest (ns : List Nat) : Nat := ns.foldr max 0

theorem greatest_le {ns : List Nat} {n : Nat} : greatest ns ≤ n ↔ ∀ m ∈ ns, m ≤ n := by
  induction ns with
  | nil => simp [greatest]
  | cons m ns ih =>
    rw [List.forall_mem_cons, ← ih]
    exact Nat.max_le

namespace Tree

mutual

/-- How many levels the rendered text opens below the one it stands at. -/
def cost : Tree → Nat
  | .chain _ operands => greatest (operandCosts operands)
  | .not operand => 1 + (if operand.isLoose then 1 + operand.cost else operand.cost)
  | .compare left steps =>
    max (if left.isLoose then 1 + left.cost else left.cost) (greatest (stepCosts steps))
  | .ident _ => 0
  | .literal _ => 0
  | .list items => 1 + greatest (itemCosts items)
  | .tuple items => 1 + greatest (itemCosts items)
  | .attr base _ => base.cost
  | .call callee args => max callee.cost (1 + greatest (argCosts args))
termination_by structural t => t

def operandCosts : List Tree → List Nat
  | [] => []
  | t :: ts => (if t.isLoose then 1 + t.cost else t.cost) :: operandCosts ts
termination_by structural ts => ts

def itemCosts : List Tree → List Nat
  | [] => []
  | t :: ts => t.cost :: itemCosts ts
termination_by structural ts => ts

def stepCosts : List (Relation × Tree) → List Nat
  | [] => []
  | (_, right) :: steps => (if right.isLoose then 1 + right.cost else right.cost) :: stepCosts steps
termination_by structural steps => steps

def argCosts : List (Passing × Tree) → List Nat
  | [] => []
  | (_, value) :: args => value.cost :: argCosts args
termination_by structural args => args

end

/-- The levels opened where an operand is expected, its parentheses among them. -/
def costInOperand (t : Tree) : Nat := if t.isLoose then 1 + t.cost else t.cost

theorem operandCosts_eq_map (ts : List Tree) : operandCosts ts = ts.map costInOperand := by
  induction ts with
  | nil => rfl
  | cons t ts ih => simp [operandCosts, costInOperand, ih]

theorem itemCosts_eq_map (ts : List Tree) : itemCosts ts = ts.map cost := by
  induction ts with
  | nil => rfl
  | cons t ts ih => simp [itemCosts, ih]

theorem stepCosts_eq_map (steps : List (Relation × Tree)) :
    stepCosts steps = steps.map fun s => s.2.costInOperand := by
  induction steps with
  | nil => rfl
  | cons s steps ih => simp [stepCosts, costInOperand, ih]

theorem argCosts_eq_map (args : List (Passing × Tree)) :
    argCosts args = args.map fun a => a.2.cost := by
  induction args with
  | nil => rfl
  | cons a args ih => simp [argCosts, ih]

section

variable {n : Nat}

theorem one_add_le_iff {m : Nat} : 1 + m ≤ n ↔ ∃ levels, n = levels + 1 ∧ m ≤ levels := by
  cases n with
  | zero => simp
  | succ n => simp [Nat.add_comm 1]

theorem cost_chain_le {c : Connective} {operands : List Tree} :
    (chain c operands).cost ≤ n ↔ ∀ t ∈ operands, t.costInOperand ≤ n := by
  rw [cost, greatest_le, operandCosts_eq_map, List.forall_mem_map]

theorem cost_not_le {operand : Tree} : (Tree.not operand).cost ≤ n ↔
    ∃ levels, n = levels + 1 ∧ operand.costInOperand ≤ levels := by
  rw [cost, ← costInOperand, one_add_le_iff]

theorem cost_compare_le {left : Tree} {steps : List (Relation × Tree)} :
    (compare left steps).cost ≤ n ↔
      left.costInOperand ≤ n ∧ ∀ s ∈ steps, s.2.costInOperand ≤ n := by
  rw [cost, ← costInOperand, Nat.max_le, greatest_le, stepCosts_eq_map, List.forall_mem_map]

theorem cost_items_le {items : List Tree} : 1 + greatest (itemCosts items) ≤ n ↔
    ∃ levels, n = levels + 1 ∧ ∀ t ∈ items, t.cost ≤ levels := by
  simp only [one_add_le_iff, greatest_le, itemCosts_eq_map, List.forall_mem_map]

theorem cost_call_le {callee : Tree} {args : List (Passing × Tree)} :
    (call callee args).cost ≤ n ↔
      callee.cost ≤ n ∧ ∃ levels, n = levels + 1 ∧ ∀ a ∈ args, a.2.cost ≤ levels := by
  rw [cost, Nat.max_le]
  simp only [one_add_le_iff, greatest_le, argCosts_eq_map, List.forall_mem_map]

end

/-- Neither an attribute nor a call stands behind what binds looser than it. -/
def TightBase : Tree → Prop
  | .attr base _ => base.isLoose = false
  | .call callee _ => callee.isLoose = false
  | _ => True

/-- No point stands behind a whole numeral. -/
def NumeralApart : Tree → Prop
  | .attr (.literal value) _ => value.isWhole = false
  | _ => True

/-- The rendered text stands for the tree. -/
structure Faithful (t : Tree) : Prop where
  tight : t.Everywhere TightBase
  apart : t.Everywhere NumeralApart
  shallow : t.cost < maxNesting

variable {t : Tree} {depth : Nat}

/-- The rendered tokens are a sentence for the tree wherever its levels are left, and an
operand if it is tight. -/
def Sentential (t : Tree) : Prop :=
  ∀ depth, t.cost ≤ depth → Disjunction (phrases depth) t t.tokens ∧
    (t.isLoose = false → Operand (phrases depth) t t.tokens)

theorem sentential_of_operand
    (h : ∀ depth, t.cost ≤ depth → Operand (phrases depth) t t.tokens) : t.Sentential :=
  fun depth hcost => ⟨(h depth hcost).disjunction, fun _ => h depth hcost⟩

theorem sentential_of_loose (hloose : t.isLoose = true)
    (h : ∀ depth, t.cost ≤ depth → Disjunction (phrases depth) t t.tokens) : t.Sentential :=
  fun depth hcost => ⟨h depth hcost, fun htight => absurd hloose (by simp [htight])⟩

theorem Sentential.inOperand (h : t.Sentential) (hcost : t.costInOperand ≤ depth) :
    Operand (phrases depth) t t.tokensInOperand := by
  unfold costInOperand at hcost
  cases hloose : t.isLoose with
  | false =>
    rw [tokensInOperand_of_tight hloose]
    exact (h depth (by simpa [hloose] using hcost)).2 hloose
  | true =>
    rw [hloose, if_pos rfl] at hcost
    obtain ⟨levels, rfl, hlevel⟩ := one_add_le_iff.1 hcost
    rw [tokensInOperand_of_loose hloose]
    exact .group (h levels hlevel).1

theorem sentential_chain {c : Connective} {operands : List Tree} (hlen : 2 ≤ operands.length)
    (h : ∀ t ∈ operands, t.Sentential) : (chain c operands).Sentential := by
  refine sentential_of_loose rfl fun depth hcost => ?_
  have hne : operands ≠ [] := by
    rintro rfl
    simp at hlen
  have hnegation : ∀ t ∈ operands, Negation (phrases depth) t t.tokensInOperand := fun t ht =>
    ((h t ht).inOperand (cost_chain_le.1 hcost t ht)).negation
  rw [tokens_chain]
  exact .of_series (series_joined hne hnegation) hlen

theorem sentential_not (h : t.Sentential) : (Tree.not t).Sentential := by
  refine sentential_of_loose rfl fun depth hcost => ?_
  obtain ⟨levels, rfl, hoperand⟩ := cost_not_le.1 hcost
  rw [tokens_not]
  exact (Negation.not (h.inOperand hoperand).negation).disjunction

theorem sentential_compare {left : Tree} {steps : List (Relation × Tree)} (hne : steps ≠ [])
    (hleft : left.Sentential) (hright : ∀ s ∈ steps, s.2.Sentential) :
    (compare left steps).Sentential := by
  refine sentential_of_loose rfl fun depth hcost => ?_
  obtain ⟨hleftCost, hrightCost⟩ := cost_compare_le.1 hcost
  have hstep : ∀ s ∈ steps, Step (phrases depth) s (stepTokens s) := fun s hs =>
    .mk s.1 ((hright s hs).inOperand (hrightCost s hs))
  obtain ⟨s, more, rfl⟩ := List.exists_cons_of_ne_nil hne
  rw [tokens_compare]
  exact (Negation.comparison
    (.compare (hleft.inOperand hleftCost) (repeats_flatMap hstep))).disjunction

theorem sentential_ident {name : String} (h : IsName name) : (ident name).Sentential := by
  refine sentential_of_operand fun depth _ => ?_
  rw [tokens_ident]
  exact .primary (.ident h)

theorem sentential_literal {l : Literal} (h : l.WellFormed) : (literal l).Sentential := by
  refine sentential_of_operand fun depth _ => ?_
  rw [tokens_literal]
  exact .primary (.literal (Literal.phrase_tokens h))

theorem sentential_list {items : List Tree} (h : ∀ t ∈ items, t.Sentential) :
    (list items).Sentential := by
  refine sentential_of_operand fun depth hcost => ?_
  obtain ⟨levels, rfl, hitems⟩ := cost_items_le.1 hcost
  rw [tokens_list]
  by_cases hne : items = []
  · subst hne
    exact .primary (.emptyList trivial)
  · have hitem : ∀ t ∈ items, (phrases (levels + 1)).item t t.tokens := fun t ht =>
      (h t ht levels (hitems t ht)).1
    exact .primary (.list false (series_joined hne hitem))

theorem argument_argTokens {P : Phrases} {args : List (Passing × Tree)} {arg : Passing × Tree}
    (hname : Nameable args) (harg : arg ∈ args) (h : P.item arg.2 arg.2.tokens) :
    Argument P arg (argTokens arg) := by
  obtain ⟨passing, value⟩ := arg
  cases passing with
  | positional => exact .positional h
  | keyword name => exact .keyword (hname name value harg) h
  | starred => exact .starred h
  | doubleStarred => exact .doubleStarred h

theorem sentential_tuple {items : List Tree} (h : ∀ t ∈ items, t.Sentential) :
    (tuple items).Sentential := by
  refine sentential_of_operand fun depth hcost => ?_
  obtain ⟨levels, rfl, hitems⟩ := cost_items_le.1 hcost
  rw [tokens_tuple]
  by_cases hne : items = []
  · subst hne
    exact .primary (.parentheses false (.none trivial))
  · have hitem : ∀ t ∈ items, (phrases (levels + 1)).item t t.tokens := fun t ht =>
      (h t ht levels (hitems t ht)).1
    have htuple : parenthesis items (items.length == 1) = .tuple items :=
      parenthesis_eq_tuple fun hone => beq_iff_eq.2 hone
    rw [← htuple]
    exact .primary (.parentheses _ (.some (series_joined hne hitem)))

theorem sentential_attr {base : Tree} {name : String} (hname : IsName name)
    (htight : base.isLoose = false) (h : base.Sentential) : (attr base name).Sentential := by
  refine sentential_of_operand fun depth hcost => ?_
  rw [tokens_attr]
  exact .attr ((h depth hcost).2 htight) hname

theorem sentential_call {callee : Tree} {args : List (Passing × Tree)} (hname : Nameable args)
    (htight : callee.isLoose = false) (hcallee : callee.Sentential)
    (hvalues : ∀ a ∈ args, a.2.Sentential) : (call callee args).Sentential := by
  refine sentential_of_operand fun depth hcost => ?_
  obtain ⟨hcalleeCost, levels, rfl, hcosts⟩ := cost_call_le.1 hcost
  have hbase := (hcallee (levels + 1) hcalleeCost).2 htight
  rw [tokens_call]
  by_cases hne : args = []
  · subst hne
    exact .call hbase (.none trivial)
  · have harg : ∀ a ∈ args, Argument (phrases (levels + 1)) a (argTokens a) := fun a ha =>
      argument_argTokens hname ha (hvalues a ha levels (hcosts a ha)).1
    have hlist := Arguments.some (P := phrases (levels + 1)) false (series_joined hne harg)
    rw [commaIf, List.append_nil] at hlist
    exact .call hbase hlist

/-- The rendered tokens of a tree with tight bases are a sentence for it. -/
theorem sentential (ht : t.WellFormed) (htight : t.Everywhere TightBase) : t.Sentential := by
  induction t using Tree.induct with
  | node t ih =>
    obtain ⟨hnode, hchildren⟩ := wellFormed_iff.1 ht
    have ih (u : Tree) (hu : u ∈ t.children) : u.Sentential :=
      ih u hu (hchildren u hu) (htight.child hu)
    cases t with
    | chain c operands => exact sentential_chain hnode ih
    | not operand => exact sentential_not (ih operand (by simp [children]))
    | compare left steps =>
      exact sentential_compare hnode (ih left (by simp [children])) fun s hs =>
        ih s.2 (mem_children_of_step hs)
    | ident name => exact sentential_ident hnode
    | literal l => exact sentential_literal hnode
    | list items => exact sentential_list ih
    | tuple items => exact sentential_tuple ih
    | attr base name => exact sentential_attr hnode htight.here (ih base (by simp [children]))
    | call callee args =>
      exact sentential_call hnode htight.here (ih callee (by simp [children])) fun a ha =>
        ih a.2 (mem_children_of_arg ha)

end Tree

end RowFilter
