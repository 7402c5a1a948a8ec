import RowFilter.Canonical.Form
import RowFilter.Proofs.Outcome

/-! The filter language as rules: which query is the canonical form of a tree. The rules
name every accepted shape and mention no rejection. `canonical` accepts a tree with a
query exactly if the rules derive it, one lemma for each function of the examination. -/

namespace RowFilter.Rules

/-- A list or tuple with its items. -/
inductive Display : Tree → List Tree → Prop
  | list (items : List Tree) : Display (.list items) items
  | tuple (items : List Tree) : Display (.tuple items) items

/-- Items that are all integers or all strings. Without items they count as integers. -/
inductive Uniform : List Tree → Value → Prop
  | ints (values : List Int64) :
    Uniform (values.map fun value => .literal (.int value)) (.ints values)
  | strs (first : String) (more : List String) :
    Uniform ((first :: more).map fun text => .literal (.str text)) (.strs (first :: more))

/-- What may stand on a side of a comparison. -/
inductive Operand : Tree → Query → Prop
  | ident (name : String) : Operand (.ident name) (.named name)
  | int (value : Int64) : Operand (.literal (.int value)) (.value (.int value))
  | float (value : Binary64) : Operand (.literal (.float value)) (.value (.float value))
  | str (text : String) : Operand (.literal (.str text)) (.value (.str text))
  | display {t : Tree} {items : List Tree} {values : Value} :
    Display t items → Uniform items values → Operand t (.value values)

/-- The query that relates a left and a right side. Identity relates nothing. -/
inductive Relates (left right : Query) : Relation → Query → Prop
  | eq : Relates left right .eq (.call .eq [left, right])
  | ne : Relates left right .ne (.call .ne [left, right])
  | lt : Relates left right .lt (.call .lt [left, right])
  | le : Relates left right .le (.call .le [left, right])
  | gt : Relates left right .gt (.call .gt [left, right])
  | ge : Relates left right .ge (.call .ge [left, right])
  | isIn : Relates left right .isIn (.call .isIn [left, right])
  | notIn : Relates left right .notIn (.call .not [.call .isIn [left, right]])

/-- One or more queries joined from the right: `op(a, op(b, c))`. -/
inductive Folds (op : Operation) : List Query → Query → Prop
  | single (q : Query) : Folds op [q] q
  | cons (q : Query) {qs : List Query} {rest : Query} :
    Folds op qs rest → Folds op (q :: qs) (.call op [q, rest])

/-- The four methods of a variable and the two helpers, all arguments plain. -/
inductive Asks : Tree → List (Passing × Tree) → Query → Prop
  | hasAny (name : String) {t : Tree} {items : List Tree} {values : Value} :
    Display t items → Uniform items values →
    Asks (.attr (.ident name) "has_any") [(.positional, t)] (.call .any [.named name, .value values])
  | hasAll (name : String) {t : Tree} {items : List Tree} {values : Value} :
    Display t items → Uniform items values →
    Asks (.attr (.ident name) "has_all") [(.positional, t)] (.call .all [.named name, .value values])
  | hasCount (name : String) (count : Int64) :
    Asks (.attr (.ident name) "has_count") [(.positional, .literal (.int count))]
      (.call .hasCount [.named name, .value (.int count)])
  | duplicates (name : String) :
    Asks (.attr (.ident name) "duplicates") [] (.call .duplicates [.named name])
  | valid {names : List String} {q : Query} :
    Folds .and (names.map fun name => .call .isValid [.named name]) q →
    Asks (.ident "valid") (names.map fun name => (.positional, .ident name)) q
  | missing {names : List String} {q : Query} :
    Folds .and (names.map fun name => .call .isMissing [.named name]) q →
    Asks (.ident "missing") (names.map fun name => (.positional, .ident name)) q

mutual

/-- The query is the canonical form of the tree. -/
inductive Canonical : Tree → Query → Prop
  | all {operands : List Tree} {queries : List Query} {q : Query} :
    CanonicalAll operands queries → Folds .and queries q → Canonical (.chain .and operands) q
  | any {operands : List Tree} {queries : List Query} {q : Query} :
    CanonicalAll operands queries → Folds .or queries q → Canonical (.chain .or operands) q
  | not {t : Tree} {q : Query} : Canonical t q → Canonical (.not t) (.call .not [q])
  | compare {left right : Tree} {l r q : Query} {relation : Relation} :
    Operand left l → Operand right r → Relates l r relation q →
    Canonical (.compare left [(relation, right)]) q
  | call {callee : Tree} {args : List (Passing × Tree)} {q : Query} :
    Asks callee args q → Canonical (.call callee args) q

inductive CanonicalAll : List Tree → List Query → Prop
  | nil : CanonicalAll [] []
  | cons {t : Tree} {q : Query} {ts : List Tree} {qs : List Query} :
    Canonical t q → CanonicalAll ts qs → CanonicalAll (t :: ts) (q :: qs)

end

section

variable {ts : List Tree} {qs : List Query}

theorem CanonicalAll.length_eq (h : CanonicalAll ts qs) : ts.length = qs.length := by
  induction ts generalizing qs with
  | nil =>
    cases h
    rfl
  | cons t ts ih =>
    cases h with
    | cons _ hts => rw [List.length_cons, List.length_cons, ih hts]

/-- Every operand has its query among the queries. -/
theorem CanonicalAll.exists_query (h : CanonicalAll ts qs) : ∀ t ∈ ts, ∃ q ∈ qs, Canonical t q := by
  induction ts generalizing qs with
  | nil => simp
  | cons t ts ih =>
    cases h with
    | @cons _ q _ qs ht hts =>
      refine List.forall_mem_cons.2 ⟨⟨q, List.mem_cons_self, ht⟩, fun u hu => ?_⟩
      obtain ⟨p, hp, hcanonical⟩ := ih hts u hu
      exact ⟨p, List.mem_cons_of_mem q hp, hcanonical⟩

/-- Every query has its operand among the operands. -/
theorem CanonicalAll.exists_operand (h : CanonicalAll ts qs) :
    ∀ q ∈ qs, ∃ t ∈ ts, Canonical t q := by
  induction ts generalizing qs with
  | nil =>
    cases h
    simp
  | cons t ts ih =>
    cases h with
    | @cons _ q _ qs ht hts =>
      refine List.forall_mem_cons.2 ⟨⟨t, List.mem_cons_self, ht⟩, fun p hp => ?_⟩
      obtain ⟨u, hu, hcanonical⟩ := ih hts p hp
      exact ⟨u, List.mem_cons_of_mem t hu, hcanonical⟩

end

theorem items?_eq_some_iff {t : Tree} {items : List Tree} :
    t.items? = some items ↔ Display t items := by
  constructor
  · intro h
    cases t <;> cases h
    · exact .list items
    · exact .tuple items
  · intro h
    cases h <;> rfl

theorem foldRight_eq_some_iff {op : Operation} {qs : List Query} {q : Query} :
    Query.foldRight op qs = some q ↔ Folds op qs q := by
  induction qs generalizing q with
  | nil =>
    constructor
    · intro h
      cases h
    · intro h
      cases h
  | cons first more ih =>
    rw [Query.foldRight]
    cases hm : Query.foldRight op more with
    | none =>
      obtain rfl := Query.foldRight_eq_none_iff.1 hm
      constructor
      · intro h
        cases h
        exact .single first
      · intro h
        cases h with
        | single => rfl
        | cons _ hrest => cases hrest
    | some rest =>
      constructor
      · intro h
        cases h
        exact .cons first (ih.1 hm)
      · intro h
        cases h with
        | single => cases hm
        | cons _ hrest => rw [Option.some.inj (hm.symm.trans (ih.2 hrest))]

/-- What calls of the operation keep and every part has, the joined query has. -/
theorem Folds.of_parts {op : Operation} {qs : List Query} {q : Query} {p : Query → Prop}
    (h : Folds op qs q) (hcall : ∀ a b, p a → p b → p (.call op [a, b]))
    (hqs : ∀ q ∈ qs, p q) : p q := by
  induction h with
  | single q => exact hqs q (List.mem_singleton_self q)
  | cons q _ ih =>
    obtain ⟨hq, hmore⟩ := List.forall_mem_cons.1 hqs
    exact hcall q _ hq (ih hmore)

theorem int?_eq_some_iff (t : Tree) (value : Int64) :
    t.int? = some value ↔ t = .literal (.int value) := by
  unfold Tree.int?
  split <;> simp_all

theorem str?_eq_some_iff (t : Tree) (text : String) :
    t.str? = some text ↔ t = .literal (.str text) := by
  unfold Tree.str?
  split <;> simp_all

theorem Uniform.isOutOfRange {items : List Tree} {values : Value} (h : Uniform items values) :
    ∀ t ∈ items, t.isOutOfRange = false := by
  intro t ht
  cases h with
  | ints values =>
    obtain ⟨value, _, rfl⟩ := List.mem_map.1 ht
    rfl
  | strs first more =>
    obtain ⟨text, _, rfl⟩ := List.mem_map.1 ht
    rfl

theorem listValue_eq_ok_iff {whole : Tree} {items : List Tree} {values : Value} :
    Tree.listValue whole items = .ok values ↔ Uniform items values := by
  rw [Tree.listValue]
  constructor
  · intro h
    split at h
    · cases h
    · split at h
      · rename_i hints
        cases h
        rw [(Outcome.mapM_eq_some_iff int?_eq_some_iff _ _).1 hints]
        exact .ints _
      · rename_i hints
        split at h
        · rename_i texts hstrs
          cases h
          rw [Outcome.mapM_eq_some_iff str?_eq_some_iff] at hstrs
          cases texts with
          | nil =>
            -- without items the integers would have been found first
            rw [hstrs] at hints
            cases hints
          | cons first more =>
            rw [hstrs]
            exact .strs first more
        · cases h
  · intro h
    have hrange : items.find? Tree.isOutOfRange = none :=
      List.find?_eq_none.2 fun t ht => by simp [h.isOutOfRange t ht]
    rw [hrange]
    cases h with
    | ints values => rw [(Outcome.mapM_eq_some_iff int?_eq_some_iff _ _).2 rfl]
    | strs first more =>
      have hints : ((first :: more).map fun text => Tree.literal (.str text)).mapM Tree.int? =
          none := rfl
      rw [hints, (Outcome.mapM_eq_some_iff str?_eq_some_iff _ _).2 rfl]

theorem operandQuery_eq_ok_iff {t : Tree} {q : Query} :
    t.operandQuery = .ok q ↔ Operand t q := by
  constructor
  · intro h
    unfold Tree.operandQuery at h
    split at h
    · cases h
      exact .ident _
    · cases h
      exact .int _
    · cases h
      exact .float _
    · cases h
      exact .str _
    · obtain ⟨values, hv, rfl⟩ := Outcome.map_eq_ok_iff.1 h
      exact .display (.list _) (listValue_eq_ok_iff.1 hv)
    · obtain ⟨values, hv, rfl⟩ := Outcome.map_eq_ok_iff.1 h
      exact .display (.tuple _) (listValue_eq_ok_iff.1 hv)
    · cases h
  · intro h
    cases h with
    | ident | int | float | str => rfl
    | display hd hu =>
      cases hd <;> exact Outcome.map_eq_ok_iff.2 ⟨_, listValue_eq_ok_iff.2 hu, rfl⟩

theorem comparisonQuery_eq_ok_iff {whole left : Tree} {steps : List (Relation × Tree)}
    {q : Query} :
    Tree.comparisonQuery whole left steps = .ok q ↔
      ∃ relation right l r, steps = [(relation, right)] ∧ Operand left l ∧ Operand right r ∧
        Relates l r relation q := by
  constructor
  · intro h
    unfold Tree.comparisonQuery at h
    split at h
    · rename_i relation right
      split at h
      · cases h
      · rename_i op negated hop
        obtain ⟨l, hl, h⟩ := Outcome.bind_eq_ok_iff.1 h
        obtain ⟨r, hr, h⟩ := Outcome.bind_eq_ok_iff.1 h
        obtain rfl := Outcome.pure_eq_ok_iff.1 h
        refine ⟨relation, right, l, r, rfl, operandQuery_eq_ok_iff.1 hl,
          operandQuery_eq_ok_iff.1 hr, ?_⟩
        cases relation <;> cases hop <;> constructor
    · cases h
  · intro hparts
    obtain ⟨relation, right, l, r, rfl, hl, hr, hrel⟩ := hparts
    cases hrel <;>
      exact Outcome.bind_eq_ok_iff.2 ⟨l, operandQuery_eq_ok_iff.2 hl,
        Outcome.bind_eq_ok_iff.2 ⟨r, operandQuery_eq_ok_iff.2 hr, rfl⟩⟩

theorem positional_eq_ok_iff {function : String} {args : List (Passing × Tree)}
    {plain : List Tree} :
    Tree.positional function args = .ok plain ↔ args = plain.map fun t => (.positional, t) := by
  have hread : Tree.positional function args = .ok plain ↔
      ∃ ts : List Tree, args = ts.map (fun t => (.positional, t)) ∧ plain = ts.map id := by
    apply Outcome.mapM_eq_ok_iff
    rintro ⟨passing, t⟩ t'
    cases passing <;> simp [eq_comm]
  simpa using hread

/-- Reading bare names gives their tests, and only bare names are read. -/
theorem checks_eq_ok_iff {op : Operation} {fault : Tree → Rejection} {args : List Tree}
    {checks : List Query} :
    (args.mapM fun arg => (match arg with
      | .ident name => .ok (Query.call op [.named name])
      | _ => .error (fault arg) : Except Rejection Query)) = .ok checks ↔
      ∃ names : List String, args = names.map Tree.ident ∧
        checks = names.map fun name => .call op [.named name] := by
  apply Outcome.mapM_eq_ok_iff
  intro t q
  cases t <;> simp [eq_comm]

theorem listMethodQuery_eq_ok_iff {op : Operation} {name : String} {target q : Query}
    {args : List Tree} :
    Tree.listMethodQuery op name target args = .ok q ↔
      ∃ t items values, args = [t] ∧ Display t items ∧ Uniform items values ∧
        q = .call op [target, .value values] := by
  constructor
  · intro h
    unfold Tree.listMethodQuery at h
    split at h
    · split at h
      · rename_i t _ items hitems
        obtain ⟨values, hv, h⟩ := Outcome.bind_eq_ok_iff.1 h
        obtain rfl := Outcome.pure_eq_ok_iff.1 h
        exact ⟨t, items, values, rfl, items?_eq_some_iff.1 hitems, listValue_eq_ok_iff.1 hv, rfl⟩
      · cases h
    · cases h
  · intro hparts
    obtain ⟨t, items, values, rfl, hd, hu, rfl⟩ := hparts
    simp only [Tree.listMethodQuery, items?_eq_some_iff.2 hd]
    exact Outcome.bind_eq_ok_iff.2 ⟨values, listValue_eq_ok_iff.2 hu, rfl⟩

def methodName : Method → String
  | .hasAny => "has_any"
  | .hasAll => "has_all"
  | .hasCount => "has_count"
  | .duplicates => "duplicates"

def helperName : Helper → String
  | .valid => "valid"
  | .missing => "missing"

theorem methodName_eq {name : String} {method : Method} (h : Method.ofName? name = some method) :
    name = methodName method := by
  unfold Method.ofName? at h
  split at h <;> cases h <;> rfl

theorem helperName_eq {name : String} {helper : Helper} (h : Helper.ofName? name = some helper) :
    name = helperName helper := by
  unfold Helper.ofName? at h
  split at h <;> cases h <;> rfl

theorem methodQuery_eq_ok_iff {variableName name : String} {args : List (Passing × Tree)}
    {q : Query} :
    Tree.methodQuery variableName name args = .ok q ↔
      Asks (.attr (.ident variableName) name) args q := by
  constructor
  · intro h
    unfold Tree.methodQuery at h
    split at h
    · cases h
    · rename_i method hm
      obtain ⟨plain, hp, hq⟩ := Outcome.bind_eq_ok_iff.1 h
      obtain rfl := positional_eq_ok_iff.1 hp
      rw [methodName_eq hm]
      cases method
      case hasAny =>
        obtain ⟨t, items, values, rfl, hd, hu, rfl⟩ := listMethodQuery_eq_ok_iff.1 hq
        exact .hasAny variableName hd hu
      case hasAll =>
        obtain ⟨t, items, values, rfl, hd, hu, rfl⟩ := listMethodQuery_eq_ok_iff.1 hq
        exact .hasAll variableName hd hu
      case hasCount =>
        simp only at hq
        split at hq
        · split at hq
          · rename_i count hc
            obtain rfl := (int?_eq_some_iff _ _).1 hc
            obtain rfl := Outcome.pure_eq_ok_iff.1 hq
            exact .hasCount variableName count
          · cases hq
        · cases hq
      case duplicates =>
        simp only at hq
        split at hq
        · obtain rfl := Outcome.pure_eq_ok_iff.1 hq
          exact .duplicates variableName
        · cases hq
  · intro h
    cases h with
    | hasAny _ hd hu | hasAll _ hd hu =>
      exact Outcome.bind_eq_ok_iff.2
        ⟨_, positional_eq_ok_iff.2 rfl, listMethodQuery_eq_ok_iff.2 ⟨_, _, _, rfl, hd, hu, rfl⟩⟩
    | hasCount _ count =>
      exact Outcome.bind_eq_ok_iff.2
        ⟨[.literal (.int count)], positional_eq_ok_iff.2 rfl, rfl⟩
    | duplicates => rfl

theorem helperQuery_eq_ok_iff {name : String} {args : List (Passing × Tree)} {q : Query} :
    Tree.helperQuery name args = .ok q ↔ Asks (.ident name) args q := by
  constructor
  · intro h
    unfold Tree.helperQuery at h
    split at h
    · cases h
    · rename_i helper hh
      obtain ⟨plain, hp, hq⟩ := Outcome.bind_eq_ok_iff.1 h
      obtain rfl := positional_eq_ok_iff.1 hp
      obtain ⟨checks, hc, hf⟩ := Outcome.bind_eq_ok_iff.1 hq
      obtain ⟨names, rfl, rfl⟩ := checks_eq_ok_iff.1 hc
      split at hf
      · rename_i query hfold
        obtain rfl := Outcome.pure_eq_ok_iff.1 hf
        rw [List.map_map, helperName_eq hh]
        cases helper
        · exact .valid (foldRight_eq_some_iff.1 hfold)
        · exact .missing (foldRight_eq_some_iff.1 hfold)
      · cases hf
  · intro h
    cases h with
    | valid hf | missing hf =>
      refine Outcome.bind_eq_ok_iff.2 ⟨_, positional_eq_ok_iff.2 (List.map_map.symm), ?_⟩
      refine Outcome.bind_eq_ok_iff.2 ⟨_, checks_eq_ok_iff.2 ⟨_, rfl, rfl⟩, ?_⟩
      simp only [Helper.operation, foldRight_eq_some_iff.2 hf]
      rfl

theorem callQuery_eq_ok_iff {whole callee : Tree} {args : List (Passing × Tree)} {q : Query} :
    Tree.callQuery whole callee args = .ok q ↔ Asks callee args q := by
  unfold Tree.callQuery
  split
  · exact methodQuery_eq_ok_iff
  · exact helperQuery_eq_ok_iff
  · rename_i hmethod hhelper
    constructor
    · intro h
      cases h
    · intro h
      cases h with
      | hasAny | hasAll | hasCount | duplicates => exact absurd rfl (hmethod _ _)
      | valid | missing => exact absurd rfl (hhelper _)

mutual

theorem canonical_sound : ∀ {t : Tree} {q : Query}, t.canonical = .ok q → Canonical t q
  | .chain connective operands, q, h => by
    obtain ⟨queries, hq, h⟩ := Outcome.bind_eq_ok_iff.1 h
    split at h
    · rename_i query hf
      obtain rfl := Outcome.pure_eq_ok_iff.1 h
      cases connective
      · exact .all (canonicalAll_sound hq) (foldRight_eq_some_iff.1 hf)
      · exact .any (canonicalAll_sound hq) (foldRight_eq_some_iff.1 hf)
    · cases h
  | .not operand, q, h => by
    obtain ⟨query, hq, h⟩ := Outcome.bind_eq_ok_iff.1 h
    obtain rfl := Outcome.pure_eq_ok_iff.1 h
    exact .not (canonical_sound hq)
  | .compare left steps, q, h => by
    obtain ⟨relation, right, l, r, rfl, hl, hr, hrel⟩ := comparisonQuery_eq_ok_iff.1 h
    exact .compare hl hr hrel
  | .call callee args, q, h => .call (callQuery_eq_ok_iff.1 h)
  | .ident _, _, h => by cases h
  | .literal _, _, h => by cases h
  | .list _, _, h => by cases h
  | .tuple _, _, h => by cases h
  | .attr _ _, _, h => by cases h
termination_by structural t => t

theorem canonicalAll_sound : ∀ {ts : List Tree} {qs : List Query},
    Tree.canonicalAll ts = .ok qs → CanonicalAll ts qs
  | [], qs, h => by
    obtain rfl := Outcome.pure_eq_ok_iff.1 h
    exact .nil
  | t :: ts, qs, h => by
    obtain ⟨q, hq, h⟩ := Outcome.bind_eq_ok_iff.1 h
    obtain ⟨more, hm, h⟩ := Outcome.bind_eq_ok_iff.1 h
    obtain rfl := Outcome.pure_eq_ok_iff.1 h
    exact .cons (canonical_sound hq) (canonicalAll_sound hm)
termination_by structural ts => ts

end

mutual

theorem canonical_complete : ∀ {t : Tree} {q : Query}, Canonical t q → t.canonical = .ok q
  | .chain connective operands, q, h => by
    cases h with
    | all hall hf | any hall hf =>
      refine Outcome.bind_eq_ok_iff.2 ⟨_, canonicalAll_complete hall, ?_⟩
      simp only [Connective.operation, foldRight_eq_some_iff.2 hf]
      rfl
  | .not operand, q, h => by
    cases h with
    | not ht => exact Outcome.bind_eq_ok_iff.2 ⟨_, canonical_complete ht, rfl⟩
  | .compare left steps, q, h => by
    cases h with
    | compare hl hr hrel =>
      exact comparisonQuery_eq_ok_iff.2 ⟨_, _, _, _, rfl, hl, hr, hrel⟩
  | .call callee args, q, h => by
    cases h with
    | call ha => exact callQuery_eq_ok_iff.2 ha
  | .ident _, _, h => by cases h
  | .literal _, _, h => by cases h
  | .list _, _, h => by cases h
  | .tuple _, _, h => by cases h
  | .attr _ _, _, h => by cases h
termination_by structural t => t

theorem canonicalAll_complete : ∀ {ts : List Tree} {qs : List Query},
    CanonicalAll ts qs → Tree.canonicalAll ts = .ok qs
  | [], qs, h => by
    cases h
    rfl
  | t :: ts, qs, h => by
    cases h with
    | cons ht hts =>
      exact Outcome.bind_eq_ok_iff.2 ⟨_, canonical_complete ht,
        Outcome.bind_eq_ok_iff.2 ⟨_, canonicalAll_complete hts, rfl⟩⟩
termination_by structural ts => ts

end

/-- The examination accepts exactly the filter language, with the query that the rules
give. -/
theorem canonical_eq_ok_iff (t : Tree) (q : Query) : t.canonical = .ok q ↔ Canonical t q :=
  ⟨canonical_sound, canonical_complete⟩

end RowFilter.Rules
