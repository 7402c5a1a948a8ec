import RowFilter.Filter
import RowFilter.Proofs.Canonical.Composition
import RowFilter.Proofs.Canonical.Predicate
import RowFilter.Proofs.Json.Documents

/-! A payload identifies its query. What a payload does not tell is whether a variable is
meant by name or by address, of which kind a list without items is, and which number that is
not finite was meant. None of this can differ between the queries of filters with finite
numbers. -/

namespace RowFilter

namespace Value

/-- The value as its payload tells it. -/
def sent : Value → Value
  | .int value => .int value
  | .float x => .float (if x.isFinite then x else .nan)
  | .str text => .str text
  | .ints items => .ints items
  | .strs items => if items = [] then .ints [] else .strs items

theorem asWritten_int (value : Int64) :
    (Value.int value).toJson.asWritten = .int value.toInt := rfl

theorem asWritten_float (x : Binary64) :
    (Value.float x).toJson.asWritten = if x.isFinite then .float x else .null := by
  cases x <;> rfl

theorem asWritten_str (text : String) : (Value.str text).toJson.asWritten = .str text := rfl

theorem asWritten_ints (items : List Int64) :
    (Value.ints items).toJson.asWritten = .list (items.map fun item => .int item.toInt) := by
  rw [toJson, Json.asWritten, Json.asWrittenItems_eq_map, List.map_map]
  rfl

theorem asWritten_strs (items : List String) :
    (Value.strs items).toJson.asWritten = .list (items.map .str) := by
  rw [toJson, Json.asWritten, Json.asWrittenItems_eq_map, List.map_map]
  rfl

theorem asWritten_eq_iff (v w : Value) :
    v.toJson.asWritten = w.toJson.asWritten ↔ v.sent = w.sent := by
  have hint (i j : Int64) (h : i.toInt = j.toInt) : i = j := Int64.toInt_inj.1 h
  have hints (is js : List Int64) : (is.map fun i => Json.int i.toInt) =
      (js.map fun i => .int i.toInt) ↔ is = js :=
    List.map_inj_right fun i j h => hint i j (Json.int.inj h)
  have hstrs (ss ts : List String) : ss.map Json.str = ts.map .str ↔ ss = ts :=
    List.map_inj_right fun _ _ h => Json.str.inj h
  have hmixed (is : List Int64) (ss : List String) :
      (is.map fun i => Json.int i.toInt) = ss.map .str ↔ is = [] ∧ ss = [] := by
    cases is <;> cases ss <;> simp
  have hnan : Binary64.nan.isFinite = false := rfl
  cases v <;> cases w <;>
    grind [sent, asWritten_int, asWritten_float, asWritten_str, asWritten_ints, asWritten_strs]

theorem sent_eq_self {v : Value} (hlist : v ≠ .strs [])
    (hfinite : ∀ x, v = .float x → x.isFinite = true) : v.sent = v := by
  cases v with
  | float x => rw [sent, if_pos (hfinite x rfl)]
  | strs items => rw [sent, if_neg fun h => hlist (congrArg Value.strs h)]
  | int | str | ints => rfl

end Value

theorem Operation.name_inj {op other : Operation} : op.name = other.name ↔ op = other := by
  refine ⟨fun h => ?_, congrArg name⟩
  have hname := ofName?_name op
  rw [h, ofName?_name] at hname
  exact (Option.some.inj hname).symm

namespace Query

mutual

/-- The query as its payload tells it, with a name for every address. -/
def sent : Query → Query
  | .named name => .named name
  | .address text => .named text
  | .value v => .value v.sent
  | .call op args => .call op (sentAll args)
termination_by structural q => q

def sentAll : List Query → List Query
  | [] => []
  | q :: qs => q.sent :: sentAll qs
termination_by structural qs => qs

end

mutual

theorem asWritten_eq_iff : ∀ q r : Query,
    q.toJson.asWritten = r.toJson.asWritten ↔ q.sent = r.sent
  | .named _, r => by cases r <;> simp [toJson, Json.asWritten, Json.asWrittenFields, sent]
  | .address _, r => by cases r <;> simp [toJson, Json.asWritten, Json.asWrittenFields, sent]
  | .value v, r => by
    cases r <;>
      simp [toJson, Json.asWritten, Json.asWrittenFields, sent, Value.asWritten_eq_iff]
  | .call op args, r => by
    cases r <;>
      simp [toJson, Json.asWritten, Json.asWrittenFields, sent, Operation.name_inj,
        asWrittenAll_eq_iff args]
termination_by structural q => q

theorem asWrittenAll_eq_iff : ∀ qs rs : List Query,
    Json.asWrittenItems (toJsonAll qs) = Json.asWrittenItems (toJsonAll rs) ↔
      sentAll qs = sentAll rs
  | [], rs => by cases rs <;> simp [toJsonAll, Json.asWrittenItems, sentAll]
  | q :: qs, rs => by
    cases rs <;>
      simp [toJsonAll, Json.asWrittenItems, sentAll, asWritten_eq_iff q, asWrittenAll_eq_iff qs]
termination_by structural qs => qs

end

/-- Every number in it is finite. -/
def FiniteFloats (q : Query) : Prop := ∀ x, .value (.float x) ∈ q.parts → x.isFinite = true

theorem finiteFloats_of_leaf {q : Query} (hleaf : q.parts = [q])
    (hvalue : ∀ v, q ≠ .value v) : q.FiniteFloats := by
  intro x hx
  rw [hleaf] at hx
  exact absurd (List.mem_singleton.1 hx).symm (hvalue _)

theorem finiteFloats_value {v : Value} :
    FiniteFloats (.value v) ↔ ∀ x, v = .float x → x.isFinite = true := by
  constructor
  · rintro h x rfl
    exact h x List.mem_cons_self
  · intro h x hx
    exact h x (Query.value.inj (List.mem_singleton.1 hx)).symm

theorem finiteFloats_call {op : Operation} {args : List Query} :
    FiniteFloats (.call op args) ↔ ∀ q ∈ args, FiniteFloats q := by
  constructor
  · exact fun h q hq x hx => h x (List.mem_cons_of_mem _ (mem_partsAll.2 ⟨q, hq, hx⟩))
  · intro h x hx
    rcases List.mem_cons.1 hx with heq | hmem
    · cases heq
    · obtain ⟨q, hq, hx⟩ := mem_partsAll.1 hmem
      exact h q hq x hx

theorem sent_call {op : Operation} {args : List Query} (hfinite : FiniteFloats (.call op args))
    (h : ∀ q ∈ args, q.FiniteFloats → q.sent = q) : (Query.call op args).sent = .call op args := by
  have hall (qs : List Query) (hqs : ∀ q ∈ qs, q.sent = q) : sentAll qs = qs := by
    induction qs with
    | nil => rfl
    | cons q qs ih =>
      obtain ⟨hq, hqs⟩ := List.forall_mem_cons.1 hqs
      rw [sentAll, hq, ih hqs]
  rw [sent, hall args fun q hq => h q hq (finiteFloats_call.1 hfinite q hq)]

theorem sent_value {v : Value} (hlist : v ≠ .strs []) (hfinite : FiniteFloats (.value v)) :
    (Query.value v).sent = .value v := by
  rw [sent, Value.sent_eq_self hlist (finiteFloats_value.1 hfinite)]

theorem IsOperand.sent_eq {q : Query} (h : IsOperand q) (hfinite : q.FiniteFloats) :
    q.sent = q := by
  cases h with
  | named => rfl
  | value hlist => exact sent_value hlist hfinite

/-- Nothing is lost of the query of a filter. -/
theorem IsPredicate.sent_eq {q : Query} (h : IsPredicate q) : q.FiniteFloats → q.sent = q := by
  induction h with
  | and _ _ ihp ihq | or _ _ ihp ihq =>
    exact fun hfinite => sent_call hfinite (by simpa using ⟨ihp, ihq⟩)
  | not _ ih => exact fun hfinite => sent_call hfinite (by simpa using ih)
  | comparison _ hleft hright =>
    exact fun hfinite => sent_call hfinite (by simpa using ⟨hleft.sent_eq, hright.sent_eq⟩)
  | listTest name _ _ hlist =>
    exact fun hfinite => sent_call hfinite (by simpa using ⟨fun _ => rfl, sent_value hlist⟩)
  | hasCount | variableTest => exact fun _ => rfl

/-- Queries have the same payload if and only if they differ in nothing but what no payload
tells. The queries of filters with finite numbers do not differ even in this. -/
theorem payload_eq_iff (q r : Query) :
    (q.payload = r.payload ↔ q.sent = r.sent) ∧
      ∀ t u : Tree, t.canonical = .ok q → u.canonical = .ok r → q.FiniteFloats →
        r.FiniteFloats → q ≠ r → q.payload ≠ r.payload := by
  have hsent : q.payload = r.payload ↔ q.sent = r.sent :=
    Json.compact_eq_iff.trans (asWritten_eq_iff q r)
  refine ⟨hsent, fun t u ht hu hq hr hne hpayload => hne ?_⟩
  have hequal := hsent.1 hpayload
  rwa [(Rules.canonical_sound ht).isPredicate.sent_eq hq,
    (Rules.canonical_sound hu).isPredicate.sent_eq hr] at hequal

set_option maxRecDepth 2000 in
/-- The two zeros are one number, and are sent as two. -/
theorem payload_zeros :
    let query (negative : Bool) : Query :=
      .call .eq [.named "a", .value (.float (.zero negative))]
    compile "a == 0.0" = .ok (query false) ∧ compile "a == -0.0" = .ok (query true) ∧
      (query false).payload ≠ (query true).payload := by
  intro query
  let tree (negative : Bool) : Tree :=
    .compare (.ident "a") [(.eq, .literal (.float (.zero negative)))]
  have hcanonical (negative : Bool) : (tree negative).canonical = .ok (query negative) := rfl
  have hfinite (negative : Bool) : (query negative).FiniteFloats := by
    intro x hx
    have hzero : x = .zero negative := by simpa [query, parts, partsAll] using hx
    rw [hzero]
    rfl
  have hpositive : Tree.parse "a == 0.0" = .ok (tree false) := by cbv
  have hnegative : Tree.parse "a == -0.0" = .ok (tree true) := by cbv
  have hne : query false ≠ query true := by simp [query, Binary64.zero]
  refine ⟨Grammar.compile_eq_ok_iff.2 ⟨_, hpositive, hcanonical false⟩,
    Grammar.compile_eq_ok_iff.2 ⟨_, hnegative, hcanonical true⟩, ?_⟩
  exact (payload_eq_iff _ _).2 _ _ (hcanonical false) (hcanonical true) (hfinite false)
    (hfinite true) hne

end Query

end RowFilter
