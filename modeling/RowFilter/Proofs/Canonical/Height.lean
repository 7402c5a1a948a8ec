import Mathlib
import RowFilter.Proofs.Canonical.Composition
import RowFilter.Proofs.Canonical.Rules
import RowFilter.Proofs.Rendering.Inverse
import RowFilter.Proofs.Tree.Height

/-! How high the queries are that are compiled from a source. A chain or a helper becomes as
many nodes one below the other as it has parts, so the width of the tree adds to the height of
the query. Over all sources neither the trees nor the queries have a greatest height. -/

namespace RowFilter

open Grammar

namespace Query

mutual

/-- The number of nodes on the longest path down. -/
def height : Query → Nat
  | .named _ => 1
  | .address _ => 1
  | .value _ => 1
  | .call _ args => heightAll args + 1
termination_by structural q => q

def heightAll : List Query → Nat
  | [] => 0
  | q :: qs => max q.height (heightAll qs)
termination_by structural qs => qs

end

variable {q : Query}

@[simp] theorem height_named (name : String) : (named name).height = 1 := rfl

@[simp] theorem height_value (v : Value) : (value v).height = 1 := rfl

@[simp] theorem height_unary (op : Operation) (p : Query) :
    (call op [p]).height = p.height + 1 := by
  simp [height, heightAll]

@[simp] theorem height_binary (op : Operation) (p q : Query) :
    (call op [p, q]).height = max p.height q.height + 1 := by
  simp [height, heightAll]

theorem height_pos : 1 ≤ q.height := by
  cases q <;> simp [height]

end Query

namespace Tree

/-- The number of parts of a chain or a call. -/
def width : Tree → Nat
  | .chain _ operands => operands.length
  | .call _ args => args.length
  | _ => 0

end Tree

namespace Rules

open Query

variable {op : Operation} {qs : List Query} {q : Query} {t : Tree} {ts : List Tree} {n w : Nat}

theorem Folds.length_pos (h : Folds op qs q) : 1 ≤ qs.length := by
  cases h <;> simp

/-- A fold has a node for every part but the last, and no part is below more than these. -/
theorem Folds.height_le (h : Folds op qs q) (hqs : ∀ p ∈ qs, p.height ≤ n) :
    q.height + 1 ≤ qs.length + n := by
  induction h with
  | single q =>
    have hq := hqs q (List.mem_singleton_self q)
    rw [List.length_singleton]
    omega
  | @cons q qs rest hfolds ih =>
    obtain ⟨hq, hmore⟩ := List.forall_mem_cons.1 hqs
    have hrest := ih hmore
    have hlen := hfolds.length_pos
    rw [height_binary, List.length_cons]
    omega

theorem Folds.le_height (h : Folds op qs q) :
    qs.length ≤ q.height ∧ ∀ p ∈ qs, p.height ≤ q.height := by
  induction h with
  | single q => simpa using height_pos
  | @cons q qs rest _ ih =>
    obtain ⟨hlen, hmem⟩ := ih
    rw [height_binary, List.length_cons, List.forall_mem_cons]
    refine ⟨by omega, by omega, fun p hp => ?_⟩
    have hp := hmem p hp
    omega

theorem Display.children (h : Display t ts) : t.children = ts := by
  cases h <;> rfl

/-- Neither wide nor deep in attributes and calls. -/
def Flat (t : Tree) : Prop := t.Everywhere fun u => u.spine = 0 ∧ u.width = 0

theorem flat_ident (name : String) : Flat (.ident name) := .mk ⟨rfl, rfl⟩ nofun

theorem flat_literal (l : Literal) : Flat (.literal l) := .mk ⟨rfl, rfl⟩ nofun

theorem Uniform.flat {v : Value} (h : Uniform ts v) : ∀ u ∈ ts, Flat u := by
  cases h with
  | ints values => exact List.forall_mem_map.2 fun value _ => flat_literal (.int value)
  | strs first more => exact List.forall_mem_map.2 fun text _ => flat_literal (.str text)

theorem Display.flat {v : Value} (h : Display t ts) (huniform : Uniform ts v) : Flat t := by
  refine .mk ?_ (h.children ▸ huniform.flat)
  cases h <;> exact ⟨rfl, rfl⟩

theorem Operand.flat (h : Operand t q) : Flat t := by
  cases h with
  | ident name => exact flat_ident name
  | int | float | str => exact flat_literal _
  | display hdisplay huniform => exact hdisplay.flat huniform

theorem Operand.height_eq (h : Operand t q) : q.height = 1 := by
  cases h <;> rfl

theorem Relates.height_le {left right : Query} {relation : Relation} (hleft : left.height = 1)
    (hright : right.height = 1) (h : Relates left right relation q) : q.height ≤ 3 := by
  cases h <;> simp [hleft, hright]

/-- The tests that a helper joins are two nodes high. -/
theorem height_tests {test : Operation} {names : List String} :
    ∀ q ∈ names.map fun name => call test [named name], q.height ≤ 2 :=
  List.forall_mem_map.2 fun _ _ => by simp

theorem Asks.height_le {callee : Tree} {args : List (Passing × Tree)}
    (h : Asks callee args q) : q.height ≤ args.length + 2 := by
  cases h with
  | hasAny | hasAll | hasCount | duplicates => simp
  | valid hfolds | missing hfolds =>
    have hheight := hfolds.height_le height_tests
    rw [List.length_map] at hheight ⊢
    omega

theorem Asks.everywhere {callee : Tree} {args : List (Passing × Tree)} (h : Asks callee args q) :
    (Tree.call callee args).Everywhere fun u => u.spine ≤ 2 ∧ u.width ≤ q.height := by
  have hflat {u : Tree} (hu : Flat u) :
      u.Everywhere fun u => u.spine ≤ 2 ∧ u.width ≤ q.height :=
    hu.imp fun u hu => ⟨by omega, by omega⟩
  have hmethod (name method : String) : (Tree.attr (.ident name) method).Everywhere
      fun u => u.spine ≤ 2 ∧ u.width ≤ q.height :=
    .mk ⟨Nat.le_succ 1, Nat.zero_le _⟩ (List.forall_mem_singleton.2 (hflat (flat_ident name)))
  have hnames (names : List String) : ∀ u ∈ (names.map fun name =>
      (Passing.positional, Tree.ident name)).map Prod.snd,
      u.Everywhere fun u => u.spine ≤ 2 ∧ u.width ≤ q.height := by
    rw [List.map_map]
    exact List.forall_mem_map.2 fun name _ => hflat (flat_ident name)
  cases h with
  | hasAny name hdisplay huniform | hasAll name hdisplay huniform =>
    exact .mk ⟨Nat.le_refl 2, height_pos⟩ (List.forall_mem_cons.2
      ⟨hmethod name _, List.forall_mem_singleton.2 (hflat (hdisplay.flat huniform))⟩)
  | hasCount name count =>
    exact .mk ⟨Nat.le_refl 2, height_pos⟩ (List.forall_mem_cons.2
      ⟨hmethod name _, List.forall_mem_singleton.2 (hflat (flat_literal _))⟩)
  | duplicates name =>
    exact .mk ⟨Nat.le_refl 2, Nat.zero_le _⟩ (List.forall_mem_singleton.2 (hmethod name _))
  | @valid names q hfolds | @missing names q hfolds =>
    refine .mk ⟨Nat.le_succ 1, ?_⟩ (List.forall_mem_cons.2 ⟨hflat (flat_ident _), hnames names⟩)
    simpa [Tree.width] using hfolds.le_height.1

/-- A filter has runs of two, `x.has_any(..)`, and its query is as high as it is wide
anywhere. -/
theorem Canonical.everywhere (h : Canonical t q) :
    t.Everywhere fun u => u.spine ≤ 2 ∧ u.width ≤ q.height := by
  induction t using Tree.induct generalizing q with
  | node t ih =>
    cases h with
    | all hall hfolds | any hall hfolds =>
      obtain ⟨hlen, hmem⟩ := hfolds.le_height
      refine .mk ⟨Nat.zero_le 2, Nat.le_trans (Nat.le_of_eq hall.length_eq) hlen⟩ fun u hu => ?_
      obtain ⟨p, hp, hcanonical⟩ := hall.exists_query u hu
      exact (ih u hu hcanonical).imp fun v hv => ⟨hv.1, Nat.le_trans hv.2 (hmem p hp)⟩
    | @not operand p hoperand =>
      refine .mk ⟨Nat.zero_le 2, Nat.zero_le _⟩ (List.forall_mem_singleton.2 ?_)
      rw [height_unary]
      exact (ih operand (List.mem_singleton_self operand) hoperand).imp
        fun v hv => ⟨hv.1, Nat.le_succ_of_le hv.2⟩
    | compare hleft hright =>
      refine .mk ⟨Nat.zero_le 2, Nat.zero_le _⟩ (List.forall_mem_cons.2
        ⟨hleft.flat.imp ?_, List.forall_mem_singleton.2 (hright.flat.imp ?_)⟩)
      · exact fun u hu => ⟨by omega, by omega⟩
      · exact fun u hu => ⟨by omega, by omega⟩
    | call hasks => exact hasks.everywhere

/-- Every node of a filter adds its parts to the height of the query, and a negated comparison
is three nodes. -/
theorem Canonical.height_le (h : Canonical t q) (hwidth : t.Everywhere fun u => u.width ≤ w) :
    q.height ≤ t.height * (w + 3) := by
  induction t using Tree.induct generalizing q with
  | node t ih =>
    -- one node of the tree pays for all nodes that its own parts add to the query
    obtain ⟨n, hn, hchildren⟩ := t.exists_height_eq_succ
    have hbelow {u : Tree} {p : Query} (hu : u ∈ t.children) (hp : Canonical u p) :
        p.height ≤ n * (w + 3) :=
      Nat.le_trans (ih u hu hp (hwidth.child hu)) (Nat.mul_le_mul_right _ (hchildren u hu))
    rw [hn, Nat.succ_mul]
    cases h with
    | all hall hfolds | any hall hfolds =>
      have hlen : _ ≤ w := hwidth.here
      rw [Tree.width, hall.length_eq] at hlen
      have hheight := hfolds.height_le fun p hp => by
        obtain ⟨u, hu, hcanonical⟩ := hall.exists_operand p hp
        exact hbelow hu hcanonical
      omega
    | @not operand p hoperand =>
      have hp := hbelow (List.mem_singleton_self operand) hoperand
      rw [height_unary]
      omega
    | compare hleft hright hrel =>
      have hheight := hrel.height_le hleft.height_eq hright.height_eq
      omega
    | call hasks =>
      have hheight := hasks.height_le
      have hlen : _ ≤ w := hwidth.here
      rw [Tree.width] at hlen
      omega

end Rules

namespace Tree

variable {source : String} {t : Tree}

/-- The limit of nesting bounds the height of a tree in terms of its longest run of attributes
and calls, and that of a query in terms of the widest chain or call; where the heights are
bounded, so are these. The tree of a filter has short runs only and is bounded itself. -/
theorem height_of_parse (h : parse source = .ok t) (k : Nat) :
    (t.Everywhere (fun u => u.spine ≤ k) → t.height ≤ maxNesting * (k + 4)) ∧
      (t.height ≤ k → t.Everywhere fun u => u.spine ≤ k) ∧
      ∀ q, compile source = .ok q → t.height ≤ maxNesting * 6 ∧
        (t.Everywhere (fun u => u.width ≤ k) → q.height ≤ maxNesting * 6 * (k + 3)) ∧
        (q.height ≤ k → t.Everywhere fun u => u.width ≤ k) := by
  have hbounded (run : Nat) (hrun : t.Everywhere fun u => u.spine ≤ run) :
      t.height ≤ maxNesting * (run + 4) := by
    obtain ⟨ts, rest, hsentence, -, -⟩ := parse_eq_ok_iff.1 h
    exact (phrases_bounded run maxNesting).1 t ts hsentence hrun
  refine ⟨hbounded k, fun hk => ?_, fun q hcompile => ?_⟩
  · exact t.spine_everywhere_le.imp fun u hu => Nat.le_trans hu hk
  · obtain ⟨u, hparse, hcanonical⟩ := compile_eq_ok_iff.1 hcompile
    cases hparse.symm.trans h
    have hrules := Rules.canonical_sound hcanonical
    have hheight := hbounded 2 (hrules.everywhere.imp fun u hu => hu.1)
    refine ⟨hheight, fun hwidth => ?_, fun hk => ?_⟩
    · exact Nat.le_trans (hrules.height_le hwidth) (Nat.mul_le_mul_right _ hheight)
    · exact hrules.everywhere.imp fun u hu => Nat.le_trans hu.2 hk

/-- `valid(x, y) and not z.duplicates()`: a chain and a helper of two. -/
theorem height_of_parse_valid : ∃ t q,
    parse "valid(x, y) and not z.duplicates()" = .ok t ∧
      compile "valid(x, y) and not z.duplicates()" = .ok q ∧
      t.height ≤ maxNesting * 6 ∧ q.height ≤ maxNesting * 6 * 5 := by
  have hparse : parse "valid(x, y) and not z.duplicates()" = .ok (.chain .and [
      .call (.ident "valid") [(.positional, .ident "x"), (.positional, .ident "y")],
      .not (.call (.attr (.ident "z") "duplicates") [])]) := by cbv
  have hcompile : compile "valid(x, y) and not z.duplicates()" = .ok (.call .and [
      .call .and [.call .isValid [.named "x"], .call .isValid [.named "y"]],
      .call .not [.call .duplicates [.named "z"]]]) :=
    compile_eq_ok_iff.2 ⟨_, hparse, by rfl⟩
  have hwidth : (Tree.chain .and [
      .call (.ident "valid") [(.positional, .ident "x"), (.positional, .ident "y")],
      .not (.call (.attr (.ident "z") "duplicates") [])]).Everywhere fun u => u.width ≤ 2 := by
    have hname (name : String) : (ident name).Everywhere fun u => u.width ≤ 2 :=
      (Rules.flat_ident name).imp fun u hu => by omega
    refine .mk (Nat.le_refl 2) (List.forall_mem_cons.2 ⟨?_, List.forall_mem_singleton.2 ?_⟩)
    · exact .mk (Nat.le_refl 2) (by simp [children, hname])
    · refine .mk (Nat.zero_le 2) (List.forall_mem_singleton.2 ?_)
      refine .mk (Nat.zero_le 2) (List.forall_mem_singleton.2 ?_)
      exact .mk (Nat.zero_le 2) (List.forall_mem_singleton.2 (hname "z"))
  obtain ⟨hheight, hquery, -⟩ := (height_of_parse hparse 2).2.2 _ hcompile
  exact ⟨_, _, hparse, hcompile, hheight, hquery hwidth⟩

/-! ### Heights without a bound -/

/-- `a.b.b..` with `n` attributes. -/
def attributes : Nat → Tree
  | 0 => .ident "a"
  | n + 1 => .attr (attributes n) "b"

/-- `a.duplicates() and a.duplicates() and ..` with `n + 2` operands. -/
def conjunction (n : Nat) : Tree :=
  .chain .and (List.replicate (n + 2) (.call (.attr (.ident "a") "duplicates") []))

theorem height_attributes (n : Nat) : (attributes n).height = n + 1 := by
  induction n with
  | zero => rfl
  | succ n ih => rw [attributes, height, ih]

theorem isName_a : IsName "a" := ⟨isWord_of_all rfl rfl rfl, by decide⟩

/-- No attribute is counted as a level. -/
theorem parse_attributes (n : Nat) : parse (attributes n).render = .ok (attributes n) := by
  have hb : IsName "b" := ⟨isWord_of_all rfl rfl rfl, by decide⟩
  have hprintable : (attributes n).Everywhere NodePrintable ∧ (attributes n).cost = 0 := by
    induction n with
    | zero => exact ⟨.mk isName_a nofun, rfl⟩
    | succ n ih =>
      refine ⟨.mk ⟨hb, ?_, ?_⟩ (List.forall_mem_singleton.2 ih.1), ih.2⟩
      · cases n <;> rfl
      · cases n <;> nofun
  obtain ⟨ht, htight, happart⟩ := printable_iff.1 hprintable.1
  exact parse_render ht ⟨htight, happart, by rw [hprintable.2]; decide⟩

/-- No operand is counted as a level either. -/
theorem parse_conjunction (n : Nat) : parse (conjunction n).render = .ok (conjunction n) := by
  have hd : IsName "duplicates" := ⟨isWord_of_all rfl rfl rfl, by decide⟩
  have hident : (ident "a").Everywhere NodePrintable := .mk isName_a nofun
  have hattr : (attr (.ident "a") "duplicates").Everywhere NodePrintable :=
    .mk ⟨hd, rfl, nofun⟩ (List.forall_mem_singleton.2 hident)
  have hcall : (call (.attr (.ident "a") "duplicates") []).Everywhere NodePrintable :=
    .mk ⟨rfl, nofun⟩ (List.forall_mem_singleton.2 hattr)
  have hprintable : (conjunction n).Everywhere NodePrintable := by
    refine .mk (by simp [conjunction, NodePrintable]) fun u hu => ?_
    rwa [List.eq_of_mem_replicate hu]
  obtain ⟨ht, htight, happart⟩ := printable_iff.1 hprintable
  have hcost : (conjunction n).cost ≤ 1 := by
    refine cost_chain_le.2 fun u hu => ?_
    rw [List.eq_of_mem_replicate hu]
    decide
  exact parse_render ht ⟨htight, happart, Nat.lt_of_le_of_lt hcost (by decide)⟩

theorem exists_canonical_conjunction (n : Nat) :
    ∃ q, (conjunction n).canonical = .ok q ∧ n + 2 ≤ q.height := by
  let test : Query := .call .duplicates [.named "a"]
  have hall (m : Nat) : Rules.CanonicalAll
      (List.replicate m (.call (.attr (.ident "a") "duplicates") [])) (List.replicate m test) := by
    induction m with
    | zero => exact .nil
    | succ m ih => exact .cons (.call (.duplicates "a")) ih
  cases hfold : Query.foldRight .and (List.replicate (n + 2) test) with
  | none => cases Query.foldRight_eq_none_iff.1 hfold
  | some q =>
    have hfolds := Rules.foldRight_eq_some_iff.1 hfold
    refine ⟨q, Rules.canonical_complete (.all (hall (n + 2)) hfolds), ?_⟩
    simpa using hfolds.le_height.1

/-- Over all sources neither the trees nor the queries have a greatest height. -/
theorem height_unbounded :
    (¬ ∃ bound, ∀ source t, parse source = .ok t → t.height ≤ bound) ∧
      ¬ ∃ bound, ∀ source q, compile source = .ok q → q.height ≤ bound := by
  refine ⟨fun h => ?_, fun h => ?_⟩
  · obtain ⟨bound, hbound⟩ := h
    have hheight := hbound _ _ (parse_attributes bound)
    rw [height_attributes] at hheight
    omega
  · obtain ⟨bound, hbound⟩ := h
    obtain ⟨q, hcanonical, hhigh⟩ := exists_canonical_conjunction bound
    have hcompile := compile_eq_ok_iff.2 ⟨_, parse_conjunction bound, hcanonical⟩
    have hheight := hbound _ q hcompile
    omega

end Tree

end RowFilter
