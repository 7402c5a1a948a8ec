import RowFilter.Proofs.Canonical.Rules
import RowFilter.Proofs.Meaning.Truth
import RowFilter.Proofs.Resolution.Steps

/-! Examination and resolution keep the meaning. Whatever query a tree has and whatever
the names in it resolve to, the resolved query has the truth value that the tree has,
under every look-up and every assignment to the atoms. -/

namespace RowFilter.Meaning

open Query (Resolves isArray_eq_false)

variable {lookup : Lookup} {v : Assignment}

theorem listOf?_eq {t : Tree} {items : List Tree} {values : Value} (hd : Rules.Display t items)
    (hu : Rules.Uniform items values) : t.listOf? = some values := by
  have hitems : t.listOf? =
      ((items.mapM Tree.int?).map Value.ints).or ((items.mapM Tree.str?).map .strs) := by
    cases hd <;> rfl
  rw [hitems]
  cases hu with
  | ints ns => rw [(Outcome.mapM_eq_some_iff Rules.int?_eq_some_iff _ _).2 rfl]; rfl
  | strs first more =>
    have hints : ((first :: more).map fun text => Tree.literal (.str text)).mapM Tree.int? =
        none := rfl
    rw [hints, (Outcome.mapM_eq_some_iff Rules.str?_eq_some_iff _ _).2 rfl]
    rfl

theorem side?_display {t : Tree} {items : List Tree} (hd : Rules.Display t items) :
    t.side? lookup = t.listOf?.map .value := by
  cases hd <;> rfl

/-- A side of a comparison resolves to the constant that it stands for. -/
theorem side?_of_resolves {t : Tree} {q r : Query} (ho : Rules.Operand t q)
    (hr : Resolves lookup q r) :
    ∃ c, t.side? lookup = some c ∧ r.constant? = some c := by
  cases ho with
  | ident name =>
    obtain ⟨m, hm, rfl⟩ := Query.resolves_named_iff.1 hr
    exact ⟨_, by simp only [Tree.side?, hm], rfl⟩
  | int | float | str =>
    obtain rfl := Query.resolves_value_iff.1 hr
    exact ⟨_, rfl, rfl⟩
  | display hd hu =>
    obtain rfl := Query.resolves_value_iff.1 hr
    exact ⟨_, by rw [side?_display hd, listOf?_eq hd hu]; rfl, rfl⟩

/-- The atom of a comparison that is kept. -/
theorem truth_pair {op : Operation} {l r : Query} {a b : Constant} (hl : l.constant? = some a)
    (hr : r.constant? = some b) (hop : (.call op [l, r] : Query).truth v =
      ([l, r].mapM Query.constant?).map (v op)) :
    (Query.call op [l, r]).truth v = some (v op [a, b]) := by
  rw [hop, List.mapM_cons, List.mapM_cons, List.mapM_nil, hl, hr]
  rfl

theorem truth_not {q : Query} {b : Bool} (h : q.truth v = some b) :
    (Query.call .not [q]).truth v = some !b := by
  simp only [Query.truth, Query.truthAll, h]

/-- Resolving a fold resolves its members. -/
theorem resolves_folds {op : Operation} (hop : op.arrayRule? = none) {qs : List Query}
    {q r : Query} (hf : Rules.Folds op qs q) (hr : Resolves lookup q r) :
    ∃ rs, List.Forall₂ (Resolves lookup) qs rs ∧ Rules.Folds op rs r := by
  induction hf generalizing r with
  | single q => exact ⟨[r], .cons hr .nil, .single r⟩
  | cons q _ ih =>
    obtain ⟨rs, hrs, rfl⟩ := (Query.resolves_call_iff hop).1 hr
    cases hrs with
    | cons hfirst hrs =>
      cases hrs with
      | cons hrest hnil =>
        cases hnil
        obtain ⟨rs, hrs, hf⟩ := ih hrest
        exact ⟨_ :: rs, .cons hfirst hrs, .cons _ hf⟩

/-- A fold has the truth values of its members joined, if one call joins two. -/
theorem truth_folds {join : Operation} (joined : List Bool → Bool)
    (hsingle : ∀ b, joined [b] = b)
    (hcall : ∀ {q r : Query} {b : Bool} {bs : List Bool}, q.truth v = some b →
      r.truth v = some (joined bs) → (Query.call join [q, r]).truth v = some (joined (b :: bs)))
    {rs : List Query} {bs : List Bool} {r : Query} (hf : Rules.Folds join rs r)
    (hb : List.Forall₂ (fun q b => q.truth v = some b) rs bs) : r.truth v = some (joined bs) := by
  induction hf generalizing bs with
  | single q =>
    cases hb with
    | cons h hnil =>
      cases hnil
      rw [h, hsingle]
  | cons q _ ih =>
    cases hb with
    | cons h hb => exact hcall h (ih hb)

theorem truth_folds_and {rs : List Query} {bs : List Bool} {r : Query}
    (hf : Rules.Folds .and rs r) (hb : List.Forall₂ (fun q b => q.truth v = some b) rs bs) :
    r.truth v = some (bs.all id) :=
  truth_folds (·.all id) (by simp)
    (fun hq hr => by simp [Query.truth, Query.truthAll, hq, hr]) hf hb

theorem truth_folds_or {rs : List Query} {bs : List Bool} {r : Query}
    (hf : Rules.Folds .or rs r) (hb : List.Forall₂ (fun q b => q.truth v = some b) rs bs) :
    r.truth v = some (bs.any id) :=
  truth_folds (·.any id) (by simp)
    (fun hq hr => by simp [Query.truth, Query.truthAll, hq, hr]) hf hb

/-- A comparison resolves to the atom of its relation, negated for `not in`. -/
theorem comparisonTruth_of_resolves {t u : Tree} {relation : Relation} {left right q r : Query}
    (hleft : Rules.Operand t left) (hright : Rules.Operand u right)
    (hrel : Rules.Relates left right relation q) (hr : Resolves lookup q r) :
    ∃ a b c, t.side? lookup = some a ∧ u.side? lookup = some b ∧
      Tree.comparisonTruth v a b relation = some c ∧ r.truth v = some c := by
  have hpair {op : Operation} {r : Query} (hop : op.arrayRule? = none)
      (hr : Resolves lookup (.call op [left, right]) r) :
      ∃ a b l x, t.side? lookup = some a ∧ u.side? lookup = some b ∧
        r = .call op [l, x] ∧ l.constant? = some a ∧ x.constant? = some b := by
    obtain ⟨rs, hrs, rfl⟩ := (Query.resolves_call_iff hop).1 hr
    cases hrs with
    | cons hl hrs =>
      cases hrs with
      | cons hx hnil =>
        cases hnil
        obtain ⟨a, ha, hla⟩ := side?_of_resolves hleft hl
        obtain ⟨b, hb, hxb⟩ := side?_of_resolves hright hx
        exact ⟨a, b, _, _, ha, hb, rfl, hla, hxb⟩
  cases hrel with
  | eq | ne | lt | le | gt | ge | isIn =>
    obtain ⟨a, b, l, x, ha, hb, rfl, hl, hx⟩ := hpair rfl hr
    exact ⟨a, b, _, ha, hb, rfl, truth_pair hl hx rfl⟩
  | notIn =>
    obtain ⟨rs, hrs, rfl⟩ := (Query.resolves_call_iff rfl).1 hr
    cases hrs with
    | cons hin hnil =>
      cases hnil
      obtain ⟨a, b, l, x, ha, hb, rfl, hl, hx⟩ := hpair rfl hin
      exact ⟨a, b, _, ha, hb, rfl, truth_not (truth_pair hl hx rfl)⟩

/-- One test for each sub-element, joined: the tests have the truth values of their
atoms. -/
theorem folds_of_perSubvariable {array : ArrayTarget} {join : Operation} {test : Query → Query}
    {r : Query} (h : Query.perSubvariable array join test = .ok r) :
    Rules.Folds join (array.subvariables.map fun sub => test (.address sub.address)) r :=
  Rules.foldRight_eq_some_iff.1 (Query.perSubvariable_eq_ok_iff.1 h)

theorem forall₂_truth_map {subs : List Subvariable} {test : Subvariable → Query}
    {atom : Subvariable → Bool} (h : ∀ sub, (test sub).truth v = some (atom sub)) :
    List.Forall₂ (fun q b => q.truth v = some b) (subs.map test) (subs.map atom) := by
  rw [List.forall₂_map_left_iff, List.forall₂_map_right_iff, List.forall₂_same]
  exact fun sub _ => h sub

theorem kind_of_arrayOf {m : Metadata} {name : String} {array : ArrayTarget}
    (h : Query.arrayOf name m = some array) :
    m.kind = .array array.subvariables ∧ array.address = m.address := by
  obtain ⟨address, kind⟩ := m
  cases kind <;> cases h
  exact ⟨rfl, rfl⟩

theorem anyTruth_of_resolves {name : String} {values : Value} {r : Query}
    (hr : Resolves lookup (.call .any [.named name, .value values]) r) :
    ∃ m, lookup name = .ok m ∧ r.truth v = some (Tree.anyTruth v m values) := by
  obtain ⟨m, hm, hr⟩ := (Query.resolves_call_named_iff rfl [values]).1 hr
  refine ⟨m, hm, ?_⟩
  cases ha : Query.arrayOf name m with
  | none =>
    rw [ha] at hr
    obtain rfl := hr
    obtain ⟨address, kind⟩ := m
    cases kind <;> first | rfl | cases ha
  | some array =>
    rw [ha] at hr
    obtain ⟨hkind, -⟩ := kind_of_arrayOf ha
    obtain ⟨list, hlist, hjoin⟩ := Outcome.bind_eq_ok_iff.1 hr
    obtain rfl := Query.eq_of_listArgument hlist
    rw [truth_folds_or (folds_of_perSubvariable hjoin) (forall₂_truth_map fun sub => rfl),
      Tree.anyTruth, hkind]
    simp only [List.any_map, Function.comp_def, id]
    rfl

theorem allTruth_of_resolves {name : String} {values : Value} {r : Query}
    (hr : Resolves lookup (.call .all [.named name, .value values]) r) :
    ∃ m b, lookup name = .ok m ∧ Tree.allTruth v m values = some b ∧ r.truth v = some b := by
  obtain ⟨m, hm, hr⟩ := (Query.resolves_call_named_iff rfl [values]).1 hr
  cases ha : Query.arrayOf name m with
  | none =>
    rw [ha] at hr
    obtain rfl := hr
    refine ⟨m, _, hm, ?_, rfl⟩
    obtain ⟨address, kind⟩ := m
    cases kind <;> first | rfl | cases ha
  | some array =>
    rw [ha] at hr
    obtain ⟨hkind, -⟩ := kind_of_arrayOf ha
    obtain ⟨list, hlist, hjoin⟩ := Outcome.bind_eq_ok_iff.1 hr
    obtain rfl := Query.eq_of_listArgument hlist
    split at hjoin
    · rename_i target hs
      refine ⟨m, _, hm, ?_, truth_folds_and (folds_of_perSubvariable hjoin)
        (forall₂_truth_map fun sub => rfl)⟩
      simp only [Tree.allTruth, hkind, hs, List.all_map, Function.comp_def, id]
      rfl
    · cases hjoin

/-- A test of one variable resolves to the atom of the element test or the array test. -/
theorem ownTest_of_resolves {single whole : Operation}
    (hrule : single.arrayRule? = some (.ownTest whole)) {name : String} {r : Query}
    (hr : Resolves lookup (.call single [.named name]) r) :
    ∃ m, lookup name = .ok m ∧
      r = .call (if m.isArray then whole else single) [.address m.address] := by
  obtain ⟨m, hm, hr⟩ := (Query.resolves_call_named_iff hrule []).1 hr
  refine ⟨m, hm, ?_⟩
  cases ha : Query.arrayOf name m with
  | none =>
    rw [ha] at hr
    rw [isArray_eq_false ha]
    exact hr
  | some array =>
    rw [ha] at hr
    obtain ⟨hkind, haddress⟩ := kind_of_arrayOf ha
    obtain rfl := Outcome.pure_eq_ok_iff.1 hr
    simp [Metadata.isArray, hkind, haddress]

/-- A test of every name resolves to the conjunction of the tests of each. -/
theorem everyTruth_of_resolves {single whole : Operation}
    (hrule : single.arrayRule? = some (.ownTest whole))
    (hatom : ∀ (isArray : Bool) (text : String),
      (Query.call (if isArray then whole else single) [.address text]).truth v =
        some (v (if isArray then whole else single) [.address text]))
    {names : List String} {q r : Query}
    (hf : Rules.Folds .and (names.map fun name => .call single [.named name]) q)
    (hr : Resolves lookup q r) :
    ∃ b, Tree.everyTruth lookup v single whole
      (names.map fun name => (.positional, .ident name)) = some b ∧ r.truth v = some b := by
  have htests (names : List String) (rs : List Query)
      (hrs : List.Forall₂ (Resolves lookup)
        (names.map fun name => .call single [.named name]) rs) :
      ∃ bs : List Bool, Tree.everyTruth lookup v single whole
        (names.map fun name => (.positional, .ident name)) = some (bs.all id) ∧
        List.Forall₂ (fun q b => q.truth v = some b) rs bs := by
    induction names generalizing rs with
    | nil =>
      cases hrs
      exact ⟨[], rfl, .nil⟩
    | cons name names ih =>
      rw [List.map_cons] at hrs
      cases hrs with
      | cons hfirst hrs =>
        obtain ⟨m, hm, rfl⟩ := ownTest_of_resolves hrule hfirst
        obtain ⟨bs, hbs, hall⟩ := ih _ hrs
        refine ⟨_ :: bs, ?_, .cons (hatom m.isArray m.address) hall⟩
        simp only [List.map_cons, Tree.everyTruth, hm, hbs, List.all_cons, id]
  obtain ⟨rs, hrs, hf⟩ := resolves_folds rfl hf hr
  obtain ⟨bs, hbs, hall⟩ := htests names rs hrs
  exact ⟨_, hbs, truth_folds_and hf hall⟩

/-- A test that the service has for single variables only is kept as it is. -/
theorem singleTest_of_resolves {op : Operation} (hrule : op.arrayRule? = some .undefined)
    {name : String} (values : List Value) {r : Query}
    (hr : Resolves lookup (.call op (.named name :: values.map .value)) r) :
    ∃ m, lookup name = .ok m ∧ r = .call op (.address m.address :: values.map .value) := by
  obtain ⟨m, hm, hr⟩ := (Query.resolves_call_named_iff hrule values).1 hr
  refine ⟨m, hm, ?_⟩
  cases ha : Query.arrayOf name m with
  | none =>
    rw [ha] at hr
    exact hr
  | some array =>
    rw [ha] at hr
    cases hr

/-- Methods and helpers keep their meaning. -/
theorem callTruth_of_resolves {callee : Tree} {args : List (Passing × Tree)} {q r : Query}
    (ha : Rules.Asks callee args q) (hr : Resolves lookup q r) :
    ∃ b, Tree.callTruth lookup v callee args = some b ∧ r.truth v = some b := by
  cases ha with
  | hasAny name hd hu =>
    obtain ⟨m, hm, htruth⟩ := anyTruth_of_resolves hr
    refine ⟨_, ?_, htruth⟩
    rw [Tree.callTruth_method lookup v hm, Tree.methodTruth_hasAny, listOf?_eq hd hu]
    rfl
  | hasAll name hd hu =>
    obtain ⟨m, b, hm, hb, htruth⟩ := allTruth_of_resolves hr
    refine ⟨b, ?_, htruth⟩
    rw [Tree.callTruth_method lookup v hm, Tree.methodTruth_hasAll, listOf?_eq hd hu]
    exact hb
  | hasCount name count =>
    obtain ⟨m, hm, rfl⟩ := singleTest_of_resolves rfl [.int count] hr
    exact ⟨_, by rw [Tree.callTruth_method lookup v hm, Tree.methodTruth_hasCount]; rfl, rfl⟩
  | duplicates name =>
    obtain ⟨m, hm, rfl⟩ := singleTest_of_resolves rfl [] hr
    exact ⟨_, by rw [Tree.callTruth_method lookup v hm, Tree.methodTruth_duplicates]; rfl, rfl⟩
  | valid hf =>
    exact everyTruth_of_resolves rfl (fun isArray text => by cases isArray <;> rfl) hf hr
  | missing hf =>
    exact everyTruth_of_resolves rfl (fun isArray text => by cases isArray <;> rfl) hf hr

mutual

theorem truth_of_canonical : ∀ {t : Tree} {q r : Query}, Rules.Canonical t q →
    Resolves lookup q r → ∃ b, t.truth lookup v = some b ∧ r.truth v = some b
  | .chain .and operands, q, r, hq, hr => by
    cases hq with
    | all hall hf =>
      obtain ⟨rs, hrs, hf⟩ := resolves_folds rfl hf hr
      obtain ⟨bs, hbs, hb⟩ := truthAll_of_canonicalAll hall hrs
      exact ⟨_, by rw [Tree.truth, hbs]; rfl, truth_folds_and hf hb⟩
  | .chain .or operands, q, r, hq, hr => by
    cases hq with
    | any hall hf =>
      obtain ⟨rs, hrs, hf⟩ := resolves_folds rfl hf hr
      obtain ⟨bs, hbs, hb⟩ := truthAll_of_canonicalAll hall hrs
      exact ⟨_, by rw [Tree.truth, hbs]; rfl, truth_folds_or hf hb⟩
  | .not operand, q, r, hq, hr => by
    cases hq with
    | not hoperand =>
      obtain ⟨rs, hrs, rfl⟩ := (Query.resolves_call_iff rfl).1 hr
      cases hrs with
      | cons hfirst hnil =>
        cases hnil
        obtain ⟨b, ht, hb⟩ := truth_of_canonical hoperand hfirst
        exact ⟨_, by rw [Tree.truth, ht]; rfl, truth_not hb⟩
  | .compare left steps, q, r, hq, hr => by
    cases hq with
    | compare hleft hright hrel =>
      obtain ⟨a, b, c, ha, hb, hc, htruth⟩ := comparisonTruth_of_resolves hleft hright hrel hr
      exact ⟨c, by rw [Tree.truth, ha, hb]; exact hc, htruth⟩
  | .call callee args, q, r, hq, hr => by
    cases hq with
    | call hasks => exact callTruth_of_resolves hasks hr
  | .ident _, _, _, hq, _ => by cases hq
  | .literal _, _, _, hq, _ => by cases hq
  | .list _, _, _, hq, _ => by cases hq
  | .tuple _, _, _, hq, _ => by cases hq
  | .attr _ _, _, _, hq, _ => by cases hq
termination_by structural t => t

theorem truthAll_of_canonicalAll : ∀ {ts : List Tree} {qs rs : List Query},
    Rules.CanonicalAll ts qs → List.Forall₂ (Resolves lookup) qs rs →
    ∃ bs, Tree.truthAll lookup v ts = some bs ∧
      List.Forall₂ (fun q b => q.truth v = some b) rs bs
  | [], qs, rs, hqs, hrs => by
    cases hqs
    cases hrs
    exact ⟨[], rfl, .nil⟩
  | t :: ts, qs, rs, hqs, hrs => by
    cases hqs with
    | cons hq hqs =>
      cases hrs with
      | cons hr hrs =>
        obtain ⟨b, ht, hb⟩ := truth_of_canonical hq hr
        obtain ⟨bs, hts, hbs⟩ := truthAll_of_canonicalAll hqs hrs
        exact ⟨b :: bs, by rw [Tree.truthAll, ht, hts], .cons hb hbs⟩
termination_by structural ts => ts

end

end RowFilter.Meaning
