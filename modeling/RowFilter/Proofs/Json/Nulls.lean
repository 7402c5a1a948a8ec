import RowFilter.Proofs.Json.Payload
import RowFilter.Proofs.Tree.Levels
import RowFilter.Proofs.Tree.WellFormed

/-! Where a payload tells a `null`. Only a number that is not finite is sent as one, and the
trees that are read have no such number: each of their nodes is well formed and stands on one
of the levels that may be opened. -/

namespace RowFilter

open Grammar

namespace Json

/-- The value stands somewhere in the document. -/
inductive Part (k : Json) : Json → Prop
  | here : Part k k
  | item {items : List Json} {j : Json} : j ∈ items → Part k j → Part k (.list items)
  | field {fields : List (String × Json)} {key : String} {j : Json} :
    (key, j) ∈ fields → Part k j → Part k (.record fields)

@[simp] theorem null_part_list {items : List Json} :
    Part .null (.list items) ↔ ∃ j ∈ items, Part .null j := by
  constructor
  · intro h
    cases h with
    | item hmem hpart => exact ⟨_, hmem, hpart⟩
  · intro h
    obtain ⟨j, hmem, hpart⟩ := h
    exact .item hmem hpart

@[simp] theorem null_part_record {fields : List (String × Json)} :
    Part .null (.record fields) ↔ ∃ field ∈ fields, Part .null field.2 := by
  constructor
  · intro h
    cases h with
    | field hmem hpart => exact ⟨_, hmem, hpart⟩
  · intro h
    obtain ⟨field, hmem, hpart⟩ := h
    exact .field hmem hpart

@[simp] theorem not_null_part_int (value : Int) : ¬ Part .null (.int value) := nofun

@[simp] theorem not_null_part_float (value : Binary64) : ¬ Part .null (.float value) := nofun

@[simp] theorem not_null_part_str (text : String) : ¬ Part .null (.str text) := nofun

end Json

open Json

theorem Value.null_part_iff (v : Value) :
    Part .null v.toJson.asWritten ↔ ∃ x, v = .float x ∧ x.isFinite = false := by
  cases v with
  | int => simp [asWritten_int]
  | str => simp [asWritten_str]
  | ints => simp [asWritten_ints]
  | strs => simp [asWritten_strs]
  | float x =>
    rw [asWritten_float]
    cases hx : x.isFinite with
    | true => simp [hx]
    | false => simp [hx, Part.here]

namespace Query

mutual

/-- A payload tells no `null` if and only if every number in the query is finite. -/
theorem no_null_iff : ∀ q : Query, ¬ Part .null q.toJson.asWritten ↔ q.FiniteFloats
  | .named name => by
    have hfinite : (named name).FiniteFloats := finiteFloats_of_leaf rfl nofun
    simp [toJson, asWritten, asWrittenFields, hfinite]
  | .address text => by
    have hfinite : (address text).FiniteFloats := finiteFloats_of_leaf rfl nofun
    simp [toJson, asWritten, asWrittenFields, hfinite]
  | .value v => by
    simp [toJson, asWritten, asWrittenFields, Value.null_part_iff, finiteFloats_value]
  | .call op args => by
    rw [finiteFloats_call, ← no_null_all_iff args]
    simp [toJson, asWritten, asWrittenFields]
termination_by structural q => q

theorem no_null_all_iff : ∀ qs : List Query,
    (∀ j ∈ asWrittenItems (toJsonAll qs), ¬ Part .null j) ↔ ∀ q ∈ qs, q.FiniteFloats
  | [] => by simp [toJsonAll, asWrittenItems]
  | q :: qs => by
    rw [toJsonAll, asWrittenItems, List.forall_mem_cons, List.forall_mem_cons, no_null_iff q,
      no_null_all_iff qs]
termination_by structural qs => qs

end

end Query

namespace Rules

open Query

variable {t : Tree} {q : Query} {qs : List Query}

theorem Operand.finiteFloats (h : Operand t q) (ht : t.WellFormed) : q.FiniteFloats := by
  cases h with
  | ident => exact finiteFloats_of_leaf rfl nofun
  | int | str => exact finiteFloats_value.2 nofun
  | float value =>
    have hvalue : value.isFinite = true := ht.here
    exact finiteFloats_value.2 fun x hx => by cases hx; exact hvalue
  | display _ hu => cases hu <;> exact finiteFloats_value.2 nofun

theorem Relates.finiteFloats {left right : Query} {relation : Relation}
    (hleft : left.FiniteFloats) (hright : right.FiniteFloats)
    (h : Relates left right relation q) : q.FiniteFloats := by
  cases h <;> simp [finiteFloats_call, hleft, hright]

theorem Folds.finiteFloats {op : Operation} (h : Folds op qs q)
    (hqs : ∀ q ∈ qs, q.FiniteFloats) : q.FiniteFloats :=
  h.of_parts (fun a b ha hb => finiteFloats_call.2 (by simpa using ⟨ha, hb⟩)) hqs

/-- No float may be asked for: the lists are of integers or of strings. -/
theorem Asks.finiteFloats {callee : Tree} {args : List (Passing × Tree)}
    (h : Asks callee args q) : q.FiniteFloats := by
  have hname (name : String) : (named name).FiniteFloats := finiteFloats_of_leaf rfl nofun
  have htests (op : Operation) (names : List String) :
      ∀ q ∈ names.map fun name => call op [.named name], q.FiniteFloats :=
    List.forall_mem_map.2 fun name _ => finiteFloats_call.2 (by simpa using hname name)
  cases h with
  | hasAny name _ hu | hasAll name _ hu =>
    cases hu <;> simp [finiteFloats_call, finiteFloats_value, hname]
  | hasCount => simp [finiteFloats_call, finiteFloats_value, hname]
  | duplicates => simp [finiteFloats_call, hname]
  | valid hfolds | missing hfolds => exact hfolds.finiteFloats (htests _ _)

/-- The floats of a query are those of the tree, which are finite where it is well formed. -/
theorem Canonical.finiteFloats (h : Canonical t q) (ht : t.WellFormed) : q.FiniteFloats := by
  induction t using Tree.induct generalizing q with
  | node t ih =>
    cases h with
    | all hall hfolds | any hall hfolds =>
      refine hfolds.finiteFloats fun p hp => ?_
      obtain ⟨u, hu, hcanonical⟩ := hall.exists_operand p hp
      exact ih u hu hcanonical (ht.child hu)
    | @not operand p hoperand =>
      have hmem : operand ∈ (Tree.not operand).children := List.mem_singleton_self operand
      have hp := ih operand hmem hoperand (ht.child hmem)
      exact finiteFloats_call.2 (List.forall_mem_singleton.2 hp)
    | @compare left right l r _ relation hleft hright hrel =>
      have hchildren := List.forall_mem_cons.1 (Tree.wellFormed_iff.1 ht).2
      exact hrel.finiteFloats (hleft.finiteFloats hchildren.1)
        (hright.finiteFloats (hchildren.2 right (by simp)))
    | call hasks => exact hasks.finiteFloats

end Rules

/-- Every node of a tree that is read is well formed and has at most 63 items, arguments and
negated trees on its path; what is out of range is a numeral that has no number. No text that
is sent for the source tells a `null`. -/
theorem Tree.parse_invariants {source : String} {t : Tree} (h : Tree.parse source = .ok t) :
    (∀ levels u, Path levels t u → levels ≤ 63 ∧ u.NodeWellFormed ∧
      ∀ text, u = .literal (.outOfRange text) →
        ∃ n : Numeral, n.magnitude.Written ∧ n.text = text ∧ n.OutOfRange) ∧
    ∀ q, compile source = .ok q → ∀ j : Json, j.compact = q.payload → ¬ Part .null j.asWritten := by
  have hwell := wellFormed_of_parse h
  refine ⟨fun levels u hpath => ⟨?_, ?_, ?_⟩, fun q hq j hj => ?_⟩
  · exact Nat.le_of_lt_succ (crossesLess_of_parse h levels u hpath)
  · exact everywhere_iff_path.1 hwell levels u hpath
  · rintro text rfl
    have hliteral : (Literal.outOfRange text).WellFormed :=
      everywhere_iff_path.1 hwell levels _ hpath
    exact hliteral.outOfRange
  · obtain ⟨u, hparse, hcanonical⟩ := compile_eq_ok_iff.1 hq
    cases hparse.symm.trans h
    rw [compact_eq_iff.1 hj, Query.no_null_iff]
    exact (Rules.canonical_sound hcanonical).finiteFloats hwell

set_option maxRecDepth 2000 in
/-- The last item is three levels down in `not a.has_any([1, 2]) or x == -0.0`. The item in
`x in [-9223372036854775809]` is one less than fits. -/
theorem Tree.parse_nested_items :
    (∃ t q, Tree.parse "not a.has_any([1, 2]) or x == -0.0" = .ok t ∧
      compile "not a.has_any([1, 2]) or x == -0.0" = .ok q ∧
      Path 3 t (.literal (.int 2)) ∧ 3 ≤ 63 ∧ ¬ Part .null q.toJson.asWritten) ∧
    ∃ n : Numeral, n.text = "-9223372036854775809" ∧ n.OutOfRange := by
  let items : Tree := .list [.literal (.int 1), .literal (.int 2)]
  let method : Tree := .call (.attr (.ident "a") "has_any") [(.positional, items)]
  let zero : Binary64 := .zero true
  let filter : Tree :=
    .chain .or [.not method, .compare (.ident "x") [(.eq, .literal (.float zero))]]
  let list : Tree := .list [.literal (.outOfRange "-9223372036854775809")]
  have hparse : Tree.parse "not a.has_any([1, 2]) or x == -0.0" = .ok filter := by cbv
  have hlist : Tree.parse "x in [-9223372036854775809]" =
      .ok (.compare (.ident "x") [(.isIn, list)]) := by cbv
  have hcompile := compile_eq_ok_iff.2 ⟨_, hparse, rfl⟩
  have hitem : Path 3 filter (.literal (.int 2)) :=
    .beside (u := .not method) (by simp [filter, beside]) <|
      .inside (u := method) (by simp [inside]) <|
        .inside (u := items) (by simp [method, inside]) <|
          .inside (u := .literal (.int 2)) (by simp [items, inside]) (.here _)
  have hrange : Path 1 (.compare (.ident "x") [(.isIn, list)])
      (.literal (.outOfRange "-9223372036854775809")) :=
    .beside (u := list) (by simp [beside]) <|
      .inside (by simp [list, inside]) (.here _)
  obtain ⟨hnodes, hnull⟩ := parse_invariants hparse
  obtain ⟨n, -, htext, hn⟩ := ((parse_invariants hlist).1 1 _ hrange).2.2 _ rfl
  exact ⟨⟨filter, _, hparse, hcompile, hitem, (hnodes 3 _ hitem).1, hnull _ hcompile _ rfl⟩, n,
    htext, hn⟩

end RowFilter
