import RowFilter.Proofs.Resolution.Calls

/-! The shape of what is sent. The resolution of a filter is built from the connectives,
comparisons of addresses and values, tests of single columns, and the two tests of whole arrays.
Where no array shares its address with a single column, no test of one is sent for the other. -/

namespace RowFilter

/-- The address of an array as a whole. -/
def IsArrayAddress (lookup : Lookup) (text : String) : Prop :=
  ∃ name m, lookup name = .ok m ∧ m.isArray = true ∧ m.address = text

/-- The address of a single column: of a name that is no array, or of a sub-element that an array
lists. -/
inductive IsColumnAddress (lookup : Lookup) : String → Prop
  | ofName {name : String} {m : Metadata} :
    lookup name = .ok m → m.isArray = false → IsColumnAddress lookup m.address
  | listed {name address : String} {subs : List Subvariable} {sub : Subvariable} :
    lookup name = .ok ⟨address, .array subs⟩ → sub ∈ subs → IsColumnAddress lookup sub.address

theorem Lookup.mem_of_ofList {answers : List (String × Metadata)} {name : String} {m : Metadata}
    (h : Lookup.ofList answers name = .ok m) : (name, m) ∈ answers := by
  unfold Lookup.ofList at h
  split at h
  · rename_i hfound
    cases h
    obtain ⟨before, behind, rfl, -⟩ := List.lookup_eq_some_iff.1 hfound
    simp
  · cases h

namespace Query

/-- A side of a resolved comparison. -/
def IsConstant (q : Query) : Prop := (∃ text, q = .address text) ∨ ∃ v, q = .value v

/-- The arguments that an operation has in a resolved filter. -/
def WellShaped (lookup : Lookup) (op : Operation) (args : List Query) : Prop :=
  match op with
  | .and | .or => ∃ p q, args = [p, q]
  | .not => ∃ p, args = [p]
  | .eq | .ne | .lt | .le | .gt | .ge | .isIn =>
    ∃ left right, args = [left, right] ∧ IsConstant left ∧ IsConstant right
  | .any | .all | .hasCount | .duplicates | .isValid | .isMissing =>
    ∃ (text : String) (values : List Value), args = .address text :: values.map .value ∧
      IsColumnAddress lookup text ∧ ¬ IsArrayAddress lookup text
  | .allValid | .allMissing =>
    ∃ text, args = [.address text] ∧ IsArrayAddress lookup text ∧ ¬ IsColumnAddress lookup text

def comparisons : List Operation := [.eq, .ne, .lt, .le, .gt, .ge, .isIn]

/-- The operations on one variable. -/
def columnTests : List Operation := [.any, .all, .hasCount, .duplicates, .isValid, .isMissing]

/-- A resolved filter. -/
inductive Sendable (lookup : Lookup) : Query → Prop
  | and {p q : Query} : Sendable lookup p → Sendable lookup q → Sendable lookup (.call .and [p, q])
  | or {p q : Query} : Sendable lookup p → Sendable lookup q → Sendable lookup (.call .or [p, q])
  | not {p : Query} : Sendable lookup p → Sendable lookup (.call .not [p])
  | comparison {op : Operation} {left right : Query} : op ∈ comparisons →
    IsConstant left → IsConstant right → Sendable lookup (.call op [left, right])
  | columnTest {op : Operation} {name : String} {m : Metadata} (values : List Value) :
    op ∈ columnTests → lookup name = .ok m → m.isArray = false →
    Sendable lookup (.call op (.address m.address :: values.map .value))
  | wholeTest {op : Operation} {name : String} {m : Metadata} :
    op ∈ [.allValid, .allMissing] → lookup name = .ok m → m.isArray = true →
    Sendable lookup (.call op [.address m.address])

variable {lookup : Lookup} {q r : Query} {qs : List Query} {op : Operation}

/-! ### Filters resolve to what can be sent -/

theorem isConstant_of_resolves (h : IsOperand q) (hr : Resolves lookup q r) : IsConstant r := by
  cases h with
  | named name =>
    obtain ⟨m, -, rfl⟩ := resolves_named_iff.1 hr
    exact .inl ⟨_, rfl⟩
  | value => exact .inr ⟨_, resolves_value_iff.1 hr⟩

theorem eq_of_resolves_values {values : List Value} {rs : List Query}
    (h : List.Forall₂ (Resolves lookup) (values.map .value) rs) : rs = values.map .value := by
  induction values generalizing rs with
  | nil =>
    cases h
    rfl
  | cons v values ih =>
    cases h with
    | cons hv hvalues => rw [List.map_cons, resolves_value_iff.1 hv, ih hvalues]

theorem sendable_foldRight {join : Operation} (hjoin : join = .and ∨ join = .or)
    (h : foldRight join qs = some r) (hqs : ∀ q ∈ qs, Sendable lookup q) : Sendable lookup r := by
  induction qs generalizing r with
  | nil => cases h
  | cons first more ih =>
    obtain ⟨hfirst, hmore⟩ := List.forall_mem_cons.1 hqs
    rw [foldRight] at h
    cases hrest : foldRight join more with
    | none =>
      rw [hrest] at h
      cases h
      exact hfirst
    | some rest =>
      rw [hrest] at h
      cases h
      rcases hjoin with rfl | rfl
      · exact .and hfirst (ih hrest hmore)
      · exact .or hfirst (ih hrest hmore)

theorem isArray_of_arrayArgument? {name : String} {m : Metadata} {args : List Query}
    (hm : lookup name = .ok m) (h : arrayArgument? lookup (.named name :: args) = none) :
    m.isArray = false := by
  rw [arrayArgument?, hm] at h
  exact isArray_eq_false h

/-- A test of a variable is kept for a single column, and never for an array. -/
theorem sendable_of_columnTest (hop : op ∈ columnTests) {name : String} (values : List Value)
    (hr : Resolves lookup (.call op (.named name :: values.map .value)) r) : Sendable lookup r := by
  obtain ⟨rs, hrs, hstep⟩ := callStep_of_resolves hr
  cases hstep with
  | kept hkept =>
    have hrule : ∀ op ∈ columnTests, op.arrayRule? ≠ none := by decide
    have harray := hkept.resolve_left (hrule op hop)
    cases hrs with
    | cons hname hvalues =>
      obtain ⟨m, hm, rfl⟩ := resolves_named_iff.1 hname
      rw [eq_of_resolves_values hvalues]
      exact .columnTest values hop hm (isArray_of_arrayArgument? hm harray)
  | someElement _ _ hfold =>
    refine sendable_foldRight (.inr rfl) hfold (List.forall_mem_map.2 fun sub _ => ?_)
    exact .comparison (by decide) (.inl ⟨_, rfl⟩) (.inr ⟨_, rfl⟩)
  | everyElement _ _ _ hfold =>
    refine sendable_foldRight (.inl rfl) hfold (List.forall_mem_map.2 fun sub _ => ?_)
    exact .comparison (by decide) (.inl ⟨_, rfl⟩) (.inr ⟨_, rfl⟩)
  | @ownTest _ test array harray hrule =>
    obtain ⟨rest, -, hm⟩ := arrayArgument?_eq_some_iff.1 harray
    have htest : test ∈ [.allValid, .allMissing] := by
      cases op <;> cases hrule <;> decide
    exact .wholeTest htest hm rfl

theorem exists_pair {p q : Query} {rs : List Query}
    (h : List.Forall₂ (Resolves lookup) [p, q] rs) :
    ∃ p' q', Resolves lookup p p' ∧ Resolves lookup q q' ∧ rs = [p', q'] := by
  cases h with
  | cons hp h => cases h with
    | cons hq hnil =>
      cases hnil
      exact ⟨_, _, hp, hq, rfl⟩

theorem IsPredicate.sendable (h : IsPredicate q) (hr : Resolves lookup q r) :
    Sendable lookup r := by
  induction h generalizing r with
  | and _ _ ihp ihq =>
    obtain ⟨rs, hrs, rfl⟩ := (resolves_call_iff rfl).1 hr
    obtain ⟨p, q, hp, hq, rfl⟩ := exists_pair hrs
    exact .and (ihp hp) (ihq hq)
  | or _ _ ihp ihq =>
    obtain ⟨rs, hrs, rfl⟩ := (resolves_call_iff rfl).1 hr
    obtain ⟨p, q, hp, hq, rfl⟩ := exists_pair hrs
    exact .or (ihp hp) (ihq hq)
  | not _ ih =>
    obtain ⟨rs, hrs, rfl⟩ := (resolves_call_iff rfl).1 hr
    cases hrs with
    | cons hp hnil =>
      cases hnil
      exact .not (ih hp)
  | @comparison op left right hop hleft hright =>
    have hrule : ∀ op ∈ comparisons, op.arrayRule? = none := by decide
    obtain ⟨rs, hrs, rfl⟩ := (resolves_call_iff (hrule op hop)).1 hr
    obtain ⟨l, r, hl, hr', rfl⟩ := exists_pair hrs
    exact .comparison hop (isConstant_of_resolves hleft hl) (isConstant_of_resolves hright hr')
  | @listTest op name v hop _ _ =>
    have htest : ∀ op ∈ [Operation.any, .all], op ∈ columnTests := by decide
    exact sendable_of_columnTest (htest op hop) [v] hr
  | hasCount name count => exact sendable_of_columnTest (by decide) [.int count] hr
  | @variableTest op name hop =>
    have htest : ∀ op ∈ [Operation.duplicates, .isValid, .isMissing], op ∈ columnTests := by decide
    exact sendable_of_columnTest (htest op hop) [] hr

/-! ### What can be sent is in shape -/

theorem IsConstant.isCall (h : IsConstant q) : q.isCall = false := by
  rcases h with ⟨text, rfl⟩ | ⟨v, rfl⟩ <;> rfl

theorem wellShaped_comparison {left right : Query} (hop : op ∈ comparisons)
    (hleft : IsConstant left) (hright : IsConstant right) :
    WellShaped lookup op [left, right] := by
  simp only [comparisons, List.mem_cons, List.not_mem_nil, or_false] at hop
  rcases hop with rfl | rfl | rfl | rfl | rfl | rfl | rfl <;>
    exact ⟨left, right, rfl, hleft, hright⟩

theorem wellShaped_columnTest {text : String} (hop : op ∈ columnTests) (values : List Value)
    (hcolumn : IsColumnAddress lookup text) (harray : ¬ IsArrayAddress lookup text) :
    WellShaped lookup op (.address text :: values.map .value) := by
  simp only [columnTests, List.mem_cons, List.not_mem_nil, or_false] at hop
  rcases hop with rfl | rfl | rfl | rfl | rfl | rfl <;>
    exact ⟨text, values, rfl, hcolumn, harray⟩

theorem wellShaped_wholeTest {text : String} (hop : op ∈ [.allValid, .allMissing])
    (harray : IsArrayAddress lookup text) (hcolumn : ¬ IsColumnAddress lookup text) :
    WellShaped lookup op [.address text] := by
  simp only [List.mem_cons, List.not_mem_nil, or_false] at hop
  rcases hop with rfl | rfl <;> exact ⟨text, rfl, harray, hcolumn⟩

theorem Sendable.wellShaped
    (hdisjoint : ∀ text, IsArrayAddress lookup text → ¬ IsColumnAddress lookup text)
    (h : Sendable lookup r) : EveryCall (WellShaped lookup) r.parts := by
  induction h with
  | and _ _ ihp ihq | or _ _ ihp ihq =>
    exact everyCall_cons.2 ⟨⟨_, _, rfl⟩, everyCall_append.2 ⟨ihp,
      everyCall_append.2 ⟨ihq, everyCall_nil⟩⟩⟩
  | not _ ih => exact everyCall_cons.2 ⟨⟨_, rfl⟩, everyCall_append.2 ⟨ih, everyCall_nil⟩⟩
  | comparison hop hleft hright =>
    refine everyCall_cons.2 ⟨wellShaped_comparison hop hleft hright, everyCall_front ?_⟩
    simp [hleft.isCall, hright.isCall]
  | columnTest values hop hm harray =>
    have hcolumn := IsColumnAddress.ofName hm harray
    have hnot := fun hwhole => hdisjoint _ hwhole hcolumn
    refine everyCall_cons.2 ⟨wellShaped_columnTest hop values hcolumn hnot, everyCall_front ?_⟩
    simp [isCall]
  | wholeTest hop hm harray =>
    have hwhole : IsArrayAddress lookup _ := ⟨_, _, hm, harray, rfl⟩
    refine everyCall_cons.2 ⟨wellShaped_wholeTest hop hwhole (hdisjoint _ hwhole), ?_⟩
    exact everyCall_front (by simp [isCall])

/-- Where no array has the address of a single column, every call in the resolution of a filter
has the arguments that its operation takes: a test of single columns is on one, and a test of
whole arrays is on an array. -/
theorem wellShaped_of_canonical {t : Tree}
    (hdisjoint : ∀ text, IsArrayAddress lookup text → ¬ IsColumnAddress lookup text)
    (hq : t.canonical = .ok q) (hr : (q.resolve lookup).outcome = .ok r) :
    EveryCall (WellShaped lookup) r.parts :=
  ((Rules.canonical_sound hq).isPredicate.sendable hr).wellShaped hdisjoint

/-- An array that is spread, one that has a test of its own, and a column beside it. -/
theorem wellShaped_of_canonical_grid :
    let lookup := Lookup.ofList
      [("grid", ⟨"/grid", .array [⟨"a", "/grid/a"⟩, ⟨"b", "/grid/b"⟩]⟩), ("age", ⟨"/age", .scalar⟩)]
    let t : Tree := .chain .or [
      .not (.call (.attr (.ident "grid") "has_any") [(.positional, .list [.literal (.int 1)])]),
      .call (.ident "valid") [(.positional, .ident "grid"), (.positional, .ident "age")],
      .compare (.ident "age") [(.notIn, .ident "grid")]]
    let q : Query := .call .or [.call .not [.call .any [.named "grid", .value (.ints [1])]],
      .call .or [.call .and [.call .isValid [.named "grid"], .call .isValid [.named "age"]],
        .call .not [.call .isIn [.named "age", .named "grid"]]]]
    let r : Query := .call .or [.call .not [.call .or [
        .call .isIn [.address "/grid/a", .value (.ints [1])],
        .call .isIn [.address "/grid/b", .value (.ints [1])]]],
      .call .or [.call .and [.call .allValid [.address "/grid"], .call .isValid [.address "/age"]],
        .call .not [.call .isIn [.address "/age", .address "/grid"]]]]
    (∀ text, IsArrayAddress lookup text → ¬ IsColumnAddress lookup text) ∧
      t.canonical = .ok q ∧ (q.resolve lookup).outcome = .ok r ∧
      EveryCall (WellShaped lookup) r.parts := by
  intro lookup t q r
  have hanswer {name : String} {m : Metadata} (hm : lookup name = .ok m) :
      m = ⟨"/grid", .array [⟨"a", "/grid/a"⟩, ⟨"b", "/grid/b"⟩]⟩ ∨ m = ⟨"/age", .scalar⟩ := by
    have hmem := Lookup.mem_of_ofList hm
    simp only [List.mem_cons, List.not_mem_nil, or_false, Prod.mk.injEq] at hmem
    exact hmem.imp And.right And.right
  have hdisjoint : ∀ text, IsArrayAddress lookup text → ¬ IsColumnAddress lookup text := by
    rintro _ ⟨name, m, hm, harray, rfl⟩ hcolumn
    obtain rfl : m = ⟨"/grid", .array [⟨"a", "/grid/a"⟩, ⟨"b", "/grid/b"⟩]⟩ := by
      rcases hanswer hm with rfl | rfl
      · rfl
      · cases harray
    generalize htext : "/grid" = text at hcolumn
    cases hcolumn with
    | ofName hm' hscalar =>
      rcases hanswer hm' with rfl | rfl
      · cases hscalar
      · exact absurd htext (by decide)
    | listed hm' hsub =>
      rcases hanswer hm' with heq | heq
      · cases heq
        simp only [List.mem_cons, List.not_mem_nil, or_false] at hsub
        rcases hsub with rfl | rfl <;> exact absurd htext (by decide)
      · cases heq
  have hq : t.canonical = .ok q := by rfl
  have hr : (q.resolve lookup).outcome = .ok r := by rfl
  exact ⟨hdisjoint, hq, hr, wellShaped_of_canonical hdisjoint hq hr⟩

end Query

end RowFilter
