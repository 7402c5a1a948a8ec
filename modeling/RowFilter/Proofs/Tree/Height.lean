import RowFilter.Proofs.Grammar.Compositional
import RowFilter.Proofs.Grammar.Sentence
import RowFilter.Proofs.Tree.Subtrees

/-! How high the trees are that are read from a source. Each level of nesting adds a few
nodes to a path and the attributes and calls that stand one behind the other there. The
limit bounds the levels and not how many of these there are. -/

namespace RowFilter

open Grammar

namespace Tree

mutual

/-- The number of nodes on the longest path down. -/
def height : Tree → Nat
  | .chain _ operands => heightAll operands + 1
  | .not operand => operand.height + 1
  | .compare left steps => max left.height (heightSteps steps) + 1
  | .ident _ => 1
  | .literal _ => 1
  | .list items => heightAll items + 1
  | .tuple items => heightAll items + 1
  | .attr base _ => base.height + 1
  | .call callee args => max callee.height (heightArgs args) + 1
termination_by structural t => t

def heightAll : List Tree → Nat
  | [] => 0
  | t :: ts => max t.height (heightAll ts)
termination_by structural ts => ts

def heightSteps : List (Relation × Tree) → Nat
  | [] => 0
  | (_, right) :: steps => max right.height (heightSteps steps)
termination_by structural steps => steps

def heightArgs : List (Passing × Tree) → Nat
  | [] => 0
  | (_, value) :: args => max value.height (heightArgs args)
termination_by structural args => args

end

/-- How many attributes and calls stand one behind the other at the top. -/
def spine : Tree → Nat
  | .attr base _ => base.spine + 1
  | .call callee _ => callee.spine + 1
  | _ => 0
termination_by structural t => t

variable {n : Nat} {t : Tree}

theorem heightAll_le {ts : List Tree} : heightAll ts ≤ n ↔ ∀ t ∈ ts, t.height ≤ n := by
  induction ts with
  | nil => simp [heightAll]
  | cons t ts ih => rw [heightAll, Nat.max_le, ih, List.forall_mem_cons]

theorem heightSteps_le {steps : List (Relation × Tree)} :
    heightSteps steps ≤ n ↔ ∀ u ∈ steps.map Prod.snd, u.height ≤ n := by
  induction steps with
  | nil => simp [heightSteps]
  | cons s steps ih => rw [heightSteps, Nat.max_le, ih, List.map_cons, List.forall_mem_cons]

theorem heightArgs_le {args : List (Passing × Tree)} :
    heightArgs args ≤ n ↔ ∀ u ∈ args.map Prod.snd, u.height ≤ n := by
  induction args with
  | nil => simp [heightArgs]
  | cons a args ih => rw [heightArgs, Nat.max_le, ih, List.map_cons, List.forall_mem_cons]

/-- A tree is one higher than its children. -/
theorem height_le_succ : t.height ≤ n + 1 ↔ ∀ u ∈ t.children, u.height ≤ n := by
  cases t with
  | chain _ ts | list ts | tuple ts =>
    rw [height, Nat.add_le_add_iff_right, heightAll_le, children]
  | not operand => simp [height, children]
  | attr base _ => simp [height, children]
  | compare left steps =>
    rw [height, Nat.add_le_add_iff_right, Nat.max_le, heightSteps_le, children,
      List.forall_mem_cons]
  | call callee args =>
    rw [height, Nat.add_le_add_iff_right, Nat.max_le, heightArgs_le, children,
      List.forall_mem_cons]
  | ident | literal => simp [height, children]

theorem exists_height_eq_succ (t : Tree) :
    ∃ n, t.height = n + 1 ∧ ∀ u ∈ t.children, u.height ≤ n := by
  have hpos : 1 ≤ t.height := by cases t <;> simp [height]
  obtain ⟨n, hn⟩ := Nat.exists_eq_add_of_le' hpos
  exact ⟨n, hn, height_le_succ.1 (Nat.le_of_eq hn)⟩

theorem spine_le_height (t : Tree) : t.spine ≤ t.height := by
  induction t using induct with
  | node t ih =>
    cases t with
    | attr base _ => exact Nat.succ_le_succ (ih base (List.mem_singleton_self base))
    | call callee args =>
      have hcallee := ih callee List.mem_cons_self
      rw [spine, height]
      omega
    | _ => exact Nat.zero_le _

theorem spine_everywhere_le (t : Tree) : t.Everywhere fun u => u.spine ≤ t.height := by
  induction t using induct with
  | node t ih =>
    obtain ⟨n, hn, hchildren⟩ := t.exists_height_eq_succ
    refine .mk t.spine_le_height fun u hu => (ih u hu).imp fun v hv => ?_
    have hu := hchildren u hu
    omega

end Tree

namespace Grammar

open RowFilter.Tree

/-- Below a height of `levels` if no more than `run` attributes and calls stand anywhere one
behind the other. -/
def Bounded (run levels : Nat) (t : Tree) : Prop :=
  t.Everywhere (fun u => u.spine ≤ run) → t.height ≤ levels

variable {P : Phrases} {run levels : Nat} {t : Tree} {ts : List Token}

theorem Bounded.of_children (h : ∀ u ∈ t.children, Bounded run levels u) : Bounded run (levels + 1) t :=
  fun hruns => height_le_succ.2 fun u hu => h u hu (hruns.child hu)

section

variable (hitem : ∀ u us, P.item u us → Bounded run levels u)

include hitem

theorem Primary.height_le (h : Primary P t ts) : Bounded run (levels + 1) t := by
  cases h with
  | ident | literal => exact Bounded.of_children (by simp [Tree.children])
  | emptyList => exact Bounded.of_children (by simp [Tree.children])
  | list _ h => exact Bounded.of_children (h.forall hitem)
  | @parentheses items us comma h =>
    have hall : ∀ u ∈ items, Bounded run levels u := h.forall hitem
    rcases parenthesis_cases items comma with hmem | htuple
    · -- one item without a comma behind it is the phrase itself
      exact fun hruns => Nat.le_succ_of_le (hall _ hmem hruns)
    · rw [htuple]
      exact Bounded.of_children hall

/-- The attributes and calls of an operand add to the height of its primary. -/
theorem Operand.height_le (h : Operand P t ts) (hruns : t.Everywhere fun u => u.spine ≤ run) :
    t.height ≤ levels + 1 + t.spine := by
  induction h with
  | primary h => exact Nat.le_add_right_of_le (h.height_le hitem hruns)
  | @attr base name us _ _ ih =>
    have hbase := ih (hruns.child (by simp [children]))
    rw [spine, ← Nat.add_assoc, height_le_succ]
    simpa [children] using hbase
  | @call callee args us vs _ hargs ih =>
    have hcallee := ih (hruns.child (by simp [children]))
    rw [spine, ← Nat.add_assoc, height_le_succ, children, List.forall_mem_cons]
    refine ⟨hcallee, fun u hu => ?_⟩
    -- an argument starts a run of its own, one level deeper
    have hvalue := hargs.forall hitem u hu (hruns.child (List.mem_cons_of_mem _ hu))
    omega

theorem Operand.bounded (h : Operand P t ts) : Bounded run (levels + run + 1) t := by
  intro hruns
  have hheight := h.height_le hitem hruns
  have hspine := hruns.here
  omega

variable (hnegand : ∀ u us, P.negand u us → Bounded run levels u)

include hnegand

theorem Negation.bounded (h : Negation P t ts) : Bounded run (levels + run + 2) t := by
  cases h with
  | not h =>
    refine Bounded.of_children fun u hu => ?_
    obtain rfl := List.mem_singleton.1 hu
    intro hruns
    have hheight := hnegand _ _ h hruns
    omega
  | comparison h =>
    cases h with
    | operand h =>
      intro hruns
      exact Nat.le_succ_of_le (h.bounded hitem hruns)
    | compare h hsteps =>
      refine Bounded.of_children (List.forall_mem_cons.2 ⟨h.bounded hitem, ?_⟩)
      rw [List.forall_mem_map]
      refine hsteps.forall fun step us hstep => ?_
      cases hstep with
      | mk _ h => exact h.bounded hitem

omit hitem hnegand in
theorem ChainPhrase.bounded {c : Connective} {R : Tree → List Token → Prop}
    (hR : ∀ u us, R u us → Bounded run levels u) (h : ChainPhrase c R t ts) :
    Bounded run (levels + 1) t := by
  cases h with
  | single h =>
    intro hruns
    exact Nat.le_succ_of_le (hR _ _ h hruns)
  | chain h hmore => exact Bounded.of_children (Series.forall hR (.mk h hmore))

/-- One level of nesting adds a run of attributes and calls and four nodes at most. -/
theorem Disjunction.bounded (h : Disjunction P t ts) : Bounded run (levels + (run + 4)) t :=
  ChainPhrase.bounded (fun _ _ => ChainPhrase.bounded fun _ _ h => h.bounded hitem hnegand) h

end

theorem phrases_bounded (run depth : Nat) :
    (∀ t ts, (phrases depth).item t ts → Bounded run (depth * (run + 4)) t) ∧
      ∀ t ts, (phrases depth).negand t ts → Bounded run (depth * (run + 4)) t := by
  induction depth with
  | zero => exact ⟨fun _ _ => False.elim, fun _ _ => False.elim⟩
  | succ depth ih =>
    rw [Nat.succ_mul]
    refine ⟨fun t ts h => Disjunction.bounded ih.1 ih.2 h, fun t ts h hruns => ?_⟩
    have hheight := Negation.bounded ih.1 ih.2 h hruns
    omega

end Grammar

end RowFilter
