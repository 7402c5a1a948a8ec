import Mathlib
import RowFilter.Filter
import RowFilter.Proofs.Grammar.Compositional
import RowFilter.Proofs.Grammar.Limit
import RowFilter.Proofs.Grammar.Locality
import RowFilter.Proofs.Outcome
import RowFilter.Query.Build

/-! Sources joined by `or`, `and` and `not` without parentheses compile to what the builders
make of them. A source is read in the joined text as it is read alone, because what follows
it there starts with a space or a closing parenthesis. -/

namespace RowFilter

open Text Grammar

/-- A text that stands for its source as an operand of `not`, `and` and `or`: the source in
parentheses, or the source itself unless it is a chain of `and` or `or`. -/
inductive IsAtom : String → String → Prop
  | grouped (source : String) : trim source.toList = source.toList →
    IsAtom ("(" ++ source ++ ")") source
  | plain (source : String) (t : Tree) : trim source.toList = source.toList →
    Tree.parse source = .ok t → (∀ c operands, t ≠ .chain c operands) → IsAtom source source

/-- An atom with a number of negations before it. -/
structure Item where
  negations : Nat
  atom : String
  source : String
  query : Query
  isAtom : IsAtom atom source
  compiles : compile source = .ok query

namespace Item

def text (item : Item) : String := Nat.repeat ("not " ++ ·) item.negations item.atom

def built (item : Item) : Query := Nat.repeat Query.not item.negations item.query

end Item

/-- Groups with `or` between them, of items with `and` between them. -/
def joinedText (groups : List (List Item)) : String :=
  String.intercalate " or " (groups.map fun group =>
    String.intercalate " and " (group.map Item.text))

/-- The query that the builders make of the groups. -/
def built? (groups : List (List Item)) : Option Query :=
  (groups.mapM fun group => Query.allOf (group.map Item.built)) >>= Query.anyOf

namespace Grammar

/-- An operand of `and`, at whatever depth. -/
def Negated (t : Tree) (ts : List Token) : Prop := ∃ depth, Negation (phrases depth) t ts

/-- Wherever it stands, the text is read as a tree of the kind that compiles to the query. -/
structure Means (R : Tree → List Token → Prop) (cs : List Char) (q : Query) : Prop where
  unpadded : Unpadded cs
  phrase : ∃ t ts, R t ts ∧ ts ≠ [] ∧ Locally ts cs ∧ t.canonical = .ok q

variable {cs ds rest : List Char} {q : Query} {R : Tree → List Token → Prop} {c : Connective}

theorem compile_eq_ok_iff {source : String} :
    compile source = .ok q ↔ ∃ t, Tree.parse source = .ok t ∧ t.canonical = .ok q := by
  rw [compile, Outcome.bind_eq_ok_iff]
  simp only [Outcome.mapError_eq_ok_iff]

/-- A trimmed source that is accepted is spelled to its end, wherever it stands. -/
theorem locally_of_parse {source : String} {t : Tree} (htrim : trim source.toList = source.toList)
    (h : Tree.parse source = .ok t) :
    Unpadded source.toList ∧ ∃ ts, Sentence t ts ∧ Locally ts source.toList := by
  obtain ⟨ts, rest, hsentence, hspells, hblank⟩ := Tree.parse_eq_ok_iff.1 h
  obtain rfl := eq_nil_of_suffix_trim hspells.suffix hblank
  rw [htrim] at hspells
  have hne : source.toList ≠ [] := by
    intro hnil
    rw [hnil] at hspells
    cases hspells with
    | nil => exact absurd rfl (phrases_item_starts hsentence).ne_nil
    | cons hnext _ => cases hnext
  exact ⟨(trim_eq_self_iff hne).1 htrim, ts, hsentence, hspells.locally⟩

theorem Negation.of_disjunction {P : Phrases} {t : Tree} {ts : List Token} (h : Disjunction P t ts)
    (hchain : ∀ c operands, t ≠ .chain c operands) : Negation P t ts := by
  cases h with
  | chain => exact absurd rfl (hchain _ _)
  | single h =>
    cases h with
    | chain => exact absurd rfl (hchain _ _)
    | single h => exact h

theorem IsAtom.means {atom source : String} (h : IsAtom atom source)
    (hcompiles : compile source = .ok q) : Means Negated atom.toList q := by
  obtain ⟨t, hparse, hcanonical⟩ := compile_eq_ok_iff.1 hcompiles
  cases h with
  | grouped _ htrim =>
    obtain ⟨-, ts, hsentence, hlocally⟩ := locally_of_parse htrim hparse
    refine ⟨⟨⟨'(', source.toList ++ [')'], by simp, rfl⟩, '(' :: source.toList, ')', by simp, rfl⟩,
      t, _, ⟨_, (Operand.group hsentence).negation⟩, by simp, ?_, hcanonical⟩
    simpa using hlocally.grouped
  | plain _ u htrim hu hchain =>
    cases hu.symm.trans hparse
    obtain ⟨hunpadded, ts, hsentence, hlocally⟩ := locally_of_parse htrim hparse
    exact ⟨hunpadded, t, ts, ⟨_, Negation.of_disjunction hsentence hchain⟩,
      (phrases_item_starts hsentence).ne_nil, hlocally, hcanonical⟩

theorem means_not (h : Means Negated cs q) : Means Negated ("not ".toList ++ cs) q.not := by
  obtain ⟨hunpadded, t, ts, ⟨depth, hnegation⟩, hne, hlocally, hcanonical⟩ := h
  have hword : IsWord "not" := isWord_of_all rfl rfl rfl
  refine ⟨?_, .not t, .word "not" :: ts, ⟨depth + 1, .not hnegation⟩, by simp, ?_, ?_⟩
  · obtain ⟨-, front, c, rfl, hc⟩ := hunpadded
    exact ⟨⟨'n', _, rfl, rfl⟩, "not ".toList ++ front, c, by simp, hc⟩
  · exact (Locally.word hword).spaced hlocally hne
  · exact Outcome.bind_eq_ok_iff.2 ⟨q, hcanonical, rfl⟩

theorem item_means (item : Item) : Means Negated item.text.toList item.built := by
  obtain ⟨negations, atom, source, query, hatom, hcompiles⟩ := item
  induction negations with
  | zero => exact IsAtom.means hatom hcompiles
  | succ negations ih =>
    have hnot := means_not ih
    rwa [← String.toList_append] at hnot

/-- Parts with a connective between them, as one series of operands. -/
theorem series_means {parts : List (List Char × Query)} (hne : parts ≠ [])
    (h : ∀ part ∈ parts, Means R part.1 part.2) :
    Unpadded (List.intercalate (' ' :: c.word.toList ++ [' ']) (parts.map Prod.fst)) ∧
    ∃ ts us, Series (connectiveToken c) R ts us ∧ us ≠ [] ∧ ts.length = parts.length ∧
      Locally us (List.intercalate (' ' :: c.word.toList ++ [' ']) (parts.map Prod.fst)) ∧
      Tree.canonicalAll ts = .ok (parts.map Prod.snd) := by
  induction parts with
  | nil => exact absurd rfl hne
  | cons part parts ih =>
    obtain ⟨hfirst, hmore⟩ := List.forall_mem_cons.1 h
    obtain ⟨hunpadded, t, us, hR, hus, hlocally, hcanonical⟩ := hfirst
    cases parts with
    | nil =>
      refine ⟨by simpa using hunpadded, [t], us, series_singleton.2 hR, hus, rfl,
        by simpa using hlocally, ?_⟩
      exact Outcome.bind_eq_ok_iff.2 ⟨_, hcanonical, rfl⟩
    | cons part' parts =>
      obtain ⟨hunpadded', ts, vs, hseries, hvs, hlength, hlocally', hall⟩ := ih (by simp) hmore
      have hword : connectiveToken c = .word c.word ∧ IsWord c.word := by
        cases c <;> exact ⟨rfl, isWord_of_all rfl rfl rfl⟩
      have hjoined : List.intercalate (' ' :: c.word.toList ++ [' '])
          ((part :: part' :: parts).map Prod.fst) = part.1 ++ ' ' :: (c.word.toList ++ ' ' ::
            List.intercalate (' ' :: c.word.toList ++ [' ']) ((part' :: parts).map Prod.fst)) := by
        simp [List.intercalate_cons_cons]
      rw [hjoined]
      refine ⟨?_, t :: ts, us ++ connectiveToken c :: vs, ?_, by simp, by simp [hlength], ?_, ?_⟩
      · have happend := hunpadded.append (' ' :: c.word.toList ++ [' ']) hunpadded'
        simpa using happend
      · cases hseries with
        | mk hR' hrest => exact .mk hR (.cons (.mk hR') hrest)
      · rw [hword.1]
        exact hlocally.spaced ((Locally.word hword.2).spaced hlocally' hvs) (by simp)
      · exact Outcome.bind_eq_ok_iff.2 ⟨_, hcanonical, Outcome.bind_eq_ok_iff.2 ⟨_, hall, rfl⟩⟩

/-- The parts make a chain, or the one part stays as it is. -/
theorem chain_means {parts : List (List Char × Query)} (hne : parts ≠ [])
    (h : ∀ part ∈ parts, Means R part.1 part.2) :
    ∃ q, Query.foldRight c.operation (parts.map Prod.snd) = some q ∧
      Means (ChainPhrase c R) (List.intercalate (' ' :: c.word.toList ++ [' '])
        (parts.map Prod.fst)) q := by
  obtain ⟨hunpadded, ts, us, hseries, hus, hlength, hlocally, hall⟩ := series_means (c := c) hne h
  have hfold : Query.foldRight c.operation (parts.map Prod.snd) ≠ none := by
    simpa [Query.foldRight_eq_none_iff] using hne
  obtain ⟨q, hq⟩ := Option.ne_none_iff_exists'.1 hfold
  refine ⟨q, hq, hunpadded, ?_⟩
  by_cases hlong : 2 ≤ ts.length
  · refine ⟨.chain c ts, us, .of_series hseries hlong, hus, hlocally, ?_⟩
    refine Outcome.bind_eq_ok_iff.2 ⟨_, hall, ?_⟩
    rw [hq]
    rfl
  · -- one part stays as it is
    cases hseries with
    | @mk t more us vs hR hrest =>
      cases hrest with
      | cons => simp at hlong
      | nil =>
        obtain ⟨query, hcanonical, hqueries⟩ := Outcome.bind_eq_ok_iff.1 hall
        rw [← Outcome.pure_eq_ok_iff.1 hqueries] at hq
        cases hq
        exact ⟨t, _, .single hR, by simpa using hus, by simpa using hlocally, hcanonical⟩

/-- The text of a group means the conjunction of its items. -/
theorem group_means {group : List Item} (hne : group ≠ []) :
    ∃ q, Query.allOf (group.map Item.built) = some q ∧
      Means (ChainPhrase .and Negated)
        (String.intercalate " and " (group.map Item.text)).toList q := by
  have hparts : ∀ part ∈ group.map fun item => (item.text.toList, item.built),
      Means Negated part.1 part.2 := by
    rw [List.forall_mem_map]
    exact fun item _ => item_means item
  obtain ⟨q, hq, hmeans⟩ := chain_means (c := .and) (by simpa using hne) hparts
  rw [List.map_map] at hq hmeans
  refine ⟨q, hq, ?_⟩
  rw [String.toList_intercalate, List.map_map]
  exact hmeans

theorem groups_mean {groups : List (List Item)} (h : ∀ group ∈ groups, group ≠ []) :
    ∃ parts : List (List Char × Query),
      (groups.mapM fun group => Query.allOf (group.map Item.built)) = some (parts.map Prod.snd) ∧
      parts.map Prod.fst = groups.map (fun group =>
        (String.intercalate " and " (group.map Item.text)).toList) ∧
      ∀ part ∈ parts, Means (ChainPhrase .and Negated) part.1 part.2 := by
  induction groups with
  | nil => exact ⟨[], rfl, rfl, by simp⟩
  | cons group groups ih =>
    obtain ⟨hfirst, hmore⟩ := List.forall_mem_cons.1 h
    obtain ⟨q, hq, hmeans⟩ := group_means hfirst
    obtain ⟨parts, hparts, htexts, hall⟩ := ih hmore
    refine ⟨((String.intercalate " and " (group.map Item.text)).toList, q) :: parts, ?_, ?_,
      List.forall_mem_cons.2 ⟨hmeans, hall⟩⟩
    · rw [List.mapM_cons, hq, hparts]
      rfl
    · rw [List.map_cons, List.map_cons, htexts]

/-- A text compiles to what it means, unless it is too deep. -/
theorem Means.compile {source : String}
    (h : Means (ChainPhrase .or (ChainPhrase .and Negated)) source.toList q) :
    compile source = .ok q ∨ ∃ place, compile source = .error (.parse ⟨.tooDeep, place⟩) := by
  obtain ⟨hunpadded, t, ts, hphrase, hne, hlocally, hcanonical⟩ := h
  have hnegation {t : Tree} {ts : List Token} {cs rest : List Char} (h : Negated t ts)
      (hs : Spells ts cs rest) (hends : Ends comparisonLeads rest) :
      (negation unlimited).Reads 1 cs t rest := by
    obtain ⟨depth, h⟩ := h
    exact negation_reads (unlimited_complete depth 1) h hs hends
  have hspells : Spells ts source.toList [] := by
    have hs := hlocally [] quiet_nil
    rwa [List.append_nil] at hs
  have hreads : unlimited.item.Reads 0 source.toList t [] := by
    rw [unlimited_item]
    exact (chain_reads rfl (chain_reads rfl hnegation (by decide)) (by decide) hphrase hspells
      (ends_of_blank rfl _)).nested (.inl rfl)
  have hnonempty : source.toList ≠ [] := by
    obtain ⟨⟨c, more, hcs, -⟩, -⟩ := hunpadded
    simp [hcs]
  have htrim : trim source.toList = source.toList := (trim_eq_self_iff hnonempty).2 hunpadded
  rw [← htrim] at hreads hnonempty
  rcases Tree.parse_of_reads hnonempty hreads rfl with hparse | ⟨place, hparse⟩
  · exact .inl (compile_eq_ok_iff.2 ⟨t, hparse, hcanonical⟩)
  · refine .inr ⟨place, ?_⟩
    rw [RowFilter.compile, hparse]
    rfl

end Grammar

/-- Joined without parentheses, sources compile to what the builders make of their queries:
a disjunction of conjunctions of negations. The only failure is a text that is too deep. -/
theorem compile_joinedText {groups : List (List Item)} (hgroups : groups ≠ [])
    (hitems : ∀ group ∈ groups, group ≠ []) :
    ∃ q, built? groups = some q ∧ (compile (joinedText groups) = .ok q ∨
      ∃ place, compile (joinedText groups) = .error (.parse ⟨.tooDeep, place⟩)) := by
  obtain ⟨parts, hparts, htexts, hmeans⟩ := groups_mean hitems
  have hne : parts ≠ [] := by
    rintro rfl
    rw [List.map_nil, eq_comm, List.map_eq_nil_iff] at htexts
    exact hgroups htexts
  obtain ⟨q, hq, hjoined⟩ := chain_means (c := .or) hne hmeans
  refine ⟨q, ?_, Means.compile ?_⟩
  · rw [built?, hparts]
    exact hq
  · rw [joinedText, String.toList_intercalate, List.map_map]
    rw [htexts] at hjoined
    exact hjoined

set_option maxRecDepth 2000 in
theorem joinedText_of_atoms : ∃ groups : List (List Item),
    groups ≠ [] ∧ (∀ group ∈ groups, group ≠ []) ∧
    joinedText groups = "not not (a == 1 or b < 2) and c.duplicates() or d in [4]" ∧
    ∃ q, built? groups = some q ∧ (compile (joinedText groups) = .ok q ∨
      ∃ place, compile (joinedText groups) = .error (.parse ⟨.tooDeep, place⟩)) := by
  have hgrouped : compile "a == 1 or b < 2" = .ok (.or (.eq "a" (.int 1)) (.lt "b" (.int 2))) :=
    compile_eq_ok_iff.2 ⟨.chain .or [.compare (.ident "a") [(.eq, .literal (.int 1))],
      .compare (.ident "b") [(.lt, .literal (.int 2))]], by cbv, by rfl⟩
  have hmethod : Tree.parse "c.duplicates()" = .ok (.call (.attr (.ident "c") "duplicates") []) := by
    cbv
  have hlist : Tree.parse "d in [4]" =
      .ok (.compare (.ident "d") [(.isIn, .list [.literal (.int 4)])]) := by cbv
  have hmethod' : compile "c.duplicates()" = .ok (.call .duplicates [.named "c"]) :=
    compile_eq_ok_iff.2 ⟨_, hmethod, by rfl⟩
  have hlist' : compile "d in [4]" = .ok (.isIn "d" (.ints [4])) :=
    compile_eq_ok_iff.2 ⟨_, hlist, by rfl⟩
  let groups : List (List Item) := [
    [⟨2, _, _, _, .grouped "a == 1 or b < 2" (by decide +kernel), hgrouped⟩,
      ⟨0, _, _, _, .plain "c.duplicates()" _ (by decide +kernel) hmethod (by simp), hmethod'⟩],
    [⟨0, _, _, _, .plain "d in [4]" _ (by decide +kernel) hlist (by simp), hlist'⟩]]
  have hitems : ∀ group ∈ groups, group ≠ [] := by simp [groups]
  exact ⟨groups, by simp [groups], hitems, by rfl, compile_joinedText (by simp [groups]) hitems⟩

end RowFilter
