import RowFilter.Proofs.Rendering.Tokens
import RowFilter.Proofs.Tree.Same

/-! What the tokens of a phrase tell about its tree whatever brackets and commas stand in
it: the words and signs that connect operands, and which numerals are whole, in order. Two
phrases for the same tree therefore agree on it. -/

namespace RowFilter

open Grammar

inductive Feature where
  | operator
  | numeral (whole : Bool)
  deriving DecidableEq

namespace Grammar

def Token.features : Token → List Feature
  | .word w => if ["and", "or", "not", "in", "is"].contains w then [.operator] else []
  | .number n => [.numeral n.isWhole]
  | .text _ => []
  | .symbol s => if ["==", "!=", "<", "<=", ">", ">="].contains s then [.operator] else []

def features (ts : List Token) : List Feature := ts.flatMap Token.features

end Grammar

/-- Written with digits only, its sign apart. -/
def Literal.isWhole : Literal → Bool
  | .int _ => true
  | .outOfRange text => text.toList.all fun c => c.isDigit || c == '-'
  | _ => false

def Literal.features (l : Literal) : List Feature :=
  if l.isNumber then [.numeral l.isWhole] else []

def Relation.features (r : Relation) : List Feature := Grammar.features (relationTokens r)

namespace Tree

mutual

def features : Tree → List Feature
  | .chain _ operands => joined [.operator] (listFeatures operands)
  | .not operand => .operator :: operand.features
  | .compare left steps => left.features ++ stepFeatures steps
  | .ident _ => []
  | .literal value => value.features
  | .list items => (listFeatures items).flatten
  | .tuple items => (listFeatures items).flatten
  | .attr base _ => base.features
  | .call callee args => callee.features ++ argFeatures args
termination_by structural t => t

def listFeatures : List Tree → List (List Feature)
  | [] => []
  | t :: ts => t.features :: listFeatures ts
termination_by structural ts => ts

def stepFeatures : List (Relation × Tree) → List Feature
  | [] => []
  | (relation, right) :: steps => relation.features ++ (right.features ++ stepFeatures steps)
termination_by structural steps => steps

def argFeatures : List (Passing × Tree) → List Feature
  | [] => []
  | (_, value) :: args => value.features ++ argFeatures args
termination_by structural args => args

end

theorem listFeatures_eq_map (ts : List Tree) : listFeatures ts = ts.map features := by
  induction ts with
  | nil => rfl
  | cons t ts ih => simp [listFeatures, ih]

theorem stepFeatures_eq_flatMap (steps : List (Relation × Tree)) :
    stepFeatures steps = steps.flatMap fun s => s.1.features ++ s.2.features := by
  induction steps with
  | nil => rfl
  | cons s steps ih => simp [stepFeatures, ih]

theorem argFeatures_eq_flatMap (args : List (Passing × Tree)) :
    argFeatures args = args.flatMap fun a => a.2.features := by
  induction args with
  | nil => rfl
  | cons a args ih => simp [argFeatures, ih]

end Tree

theorem literalOf_isNumber (n : Numeral) : (literalOf n).isNumber = true := by
  unfold literalOf
  split
  · split <;> rfl
  · split <;> rfl

/-- The text of a numeral consists of digits and a sign exactly if the numeral is whole. -/
theorem Numeral.all_chars {n : Numeral} (hn : n.magnitude.Written) :
    (n.chars.all fun c => c.isDigit || c == '-') = n.isWhole := by
  have hwhole : (n.whole.all fun c => c.isDigit || c == '-') = true :=
    List.all_eq_true.2 fun c hc => by simp [hn.whole c hc]
  have hsign : ((if n.negative then ['-'] else []).all fun c => c.isDigit || c == '-') = true := by
    split <;> rfl
  have hexponent : ∀ e : ExponentPart, (e.chars.all fun c => c.isDigit || c == '-') = false := by
    intro e
    obtain ⟨capital, sign, digits⟩ := e
    rcases sign with _ | _ | _ <;> cases capital <;> rfl
  simp only [chars, List.all_append, hwhole, hsign, Bool.true_and, isWhole]
  cases n.fraction with
  | some ds => rfl
  | none => cases n.exponent with
    | some e => simp [hexponent]
    | none => rfl

theorem literalOf_isWhole {n : Numeral} (hn : n.magnitude.Written) :
    (literalOf n).isWhole = n.isWhole := by
  have htext : (Literal.outOfRange n.text).isWhole = n.isWhole := by
    rw [Literal.isWhole, Numeral.text, String.toList_ofList, Numeral.all_chars hn]
  unfold literalOf
  split
  · rename_i hwhole
    split
    · exact hwhole.symm
    · exact htext
  · rename_i hwhole
    split
    · exact (Bool.eq_false_iff.2 hwhole).symm
    · exact htext

namespace Grammar

variable {ts us : List Token} {t : Token}

@[simp]
theorem features_nil : features [] = [] := rfl

@[simp]
theorem features_cons : features (t :: ts) = t.features ++ features ts := List.flatMap_cons

@[simp]
theorem features_append : features (ts ++ us) = features ts ++ features us := List.flatMap_append

@[simp]
theorem features_commaIf (comma : Bool) : features (commaIf comma) = [] := by
  cases comma <;> rfl

theorem features_name {name : String} (h : IsName name) : (Token.word name).features = [] := by
  have hreserved : ∀ w ∈ ["and", "or", "not", "in", "is"], w ∈ reserved := by decide
  have hword : name ∉ ["and", "or", "not", "in", "is"] := fun hmem =>
    h.notReserved (hreserved _ hmem)
  simpa [Token.features] using hword

theorem LiteralPhrase.features {l : Literal} (h : LiteralPhrase l ts) :
    Grammar.features ts = l.features := by
  have hnumeral {n : Numeral} (hn : n.magnitude.Written) :
      (literalOf n).features = [.numeral n.isWhole] := by
    rw [Literal.features, literalOf_isNumber, if_pos rfl, literalOf_isWhole hn]
  cases h with
  | @number n hn => exact (hnumeral (by rwa [Numeral.magnitude_eq hn.unsigned])).symm
  | @negative n hn =>
    have hn' : ({ n with negative := Bool.true } : Numeral).magnitude = n :=
      Numeral.magnitude_eq hn.unsigned
    exact (hnumeral (by rwa [hn'])).symm
  | _ => rfl

section

variable {α : Type} {R : α → List Token → Prop} {f : α → List Feature} {as : List α}

theorem joined_nil (xs : List (List α)) : joined [] xs = xs.flatten := by
  cases xs with
  | nil => rfl
  | cons x xs => simp [joined, List.flatMap_id']

theorem Repeats.features (h : ∀ a us, R a us → Grammar.features us = f a)
    (hrep : Repeats R as ts) : Grammar.features ts = as.flatMap f := by
  induction hrep with
  | nil => rfl
  | cons hR _ ih => rw [features_append, h _ _ hR, ih, List.flatMap_cons]

theorem Series.features (h : ∀ a us, R a us → Grammar.features us = f a)
    (hseries : Series t R as ts) : Grammar.features ts = joined t.features (as.map f) := by
  cases hseries with
  | mk hR hmore =>
    have hled : ∀ a us, Led t R a us → Grammar.features us = t.features ++ f a := by
      rintro _ _ ⟨hR⟩
      rw [features_cons, h _ _ hR]
    rw [features_append, h _ _ hR, hmore.features hled, List.map_cons, joined, List.flatMap_map]

theorem Commas.features (h : ∀ a us, R a us → Grammar.features us = f a)
    (hcommas : Commas R as ts) : Grammar.features ts = (as.map f).flatten := by
  rcases hcommas with ⟨rfl, rfl⟩ | hseries
  · rfl
  · rw [hseries.features h, ← joined_nil]
    rfl

end

theorem Behind.features {α : Type} {lead : α → List Token} {pair : α × Tree}
    (h : Behind lead (fun t ts => Grammar.features ts = t.features) pair ts) :
    Grammar.features ts = Grammar.features (lead pair.1) ++ pair.2.features := by
  cases h with
  | mk a h => rw [features_append, h]

theorem features_connective (c : Connective) : (connectiveToken c).features = [.operator] := by
  cases c <;> rfl

theorem compositional_features : Compositional fun t ts => features ts = t.features where
  ident hname := by
    rw [features_cons, features_name hname]
    rfl
  literal h := by rw [h.features, Tree.features]
  group {t ts} h := by
    rw [features_cons, features_append, h]
    exact List.append_nil _
  tuple comma h := by
    rw [Tree.features, Tree.listFeatures_eq_map, ← h.features fun _ _ h => h]
    simp only [features_cons, features_append, features_commaIf, features_nil]
    exact List.append_nil _
  list comma h := by
    rw [Tree.features, Tree.listFeatures_eq_map, ← h.features fun _ _ h => h]
    simp only [features_cons, features_append, features_commaIf, features_nil]
    exact List.append_nil _
  attr h hname := by
    rw [Tree.features, features_append, h, features_cons, features_cons, features_name hname]
    exact List.append_nil _
  call {callee args ts us} comma h hargs hname := by
    have hpassing : ∀ a ∈ args, features a.1.tokens ++ a.2.features = a.2.features := by
      rintro ⟨p, t⟩ ha
      cases p with
      | keyword name =>
        rw [Passing.tokens, features_cons, features_name (hname name t ha)]
        rfl
      | _ => rfl
    have hvalues : features us = args.flatMap fun a => a.2.features := by
      rw [hargs.features fun _ _ h => h.features, ← List.flatMap_def]
      exact List.flatMap_congr hpassing
    rw [Tree.features, Tree.argFeatures_eq_flatMap, ← hvalues, ← h]
    simp only [features_cons, features_append, features_commaIf, features_nil]
    exact congrArg (features ts ++ ·) (List.append_nil _)
  compare h hsteps _ := by
    rw [features_append, h, hsteps.features fun _ _ h => h.features, Tree.features,
      Tree.stepFeatures_eq_flatMap]
    rfl
  not h := by
    rw [features_cons, h, Tree.features]
    rfl
  chain {c _ _} h _ := by
    rw [h.features fun _ _ h => h, features_connective, Tree.features, Tree.listFeatures_eq_map]

end Grammar

theorem map_eq_map_of_forall₂ {α β γ : Type} {R : α → β → Prop} {f : α → γ} {g : β → γ}
    {as : List α} {bs : List β} (h : List.Forall₂ R as bs)
    (hfg : ∀ b ∈ bs, ∀ a, R a b → f a = g b) : as.map f = bs.map g := by
  induction h with
  | nil => rfl
  | cons hR _ ih =>
    obtain ⟨hb, hbs⟩ := List.forall_mem_cons.1 hfg
    rw [List.map_cons, List.map_cons, hb _ hR, ih hbs]

/-- Trees that are the same have the same features. -/
theorem Tree.Alike.features {t u : Tree} (h : t.Alike u) : t.features = u.features := by
  induction u using Tree.induct generalizing t with
  | node u ih =>
    have ih (b : Tree) (hb : b ∈ u.children) (a : Tree) (hab : a.Alike b) :
        a.features = b.features := ih b hb hab
    cases u with
    | chain c bs =>
      obtain ⟨as, rfl, has⟩ := h.chain
      simp only [Tree.features, listFeatures_eq_map, map_eq_map_of_forall₂ has ih]
    | not b =>
      obtain ⟨a, rfl, ha⟩ := h.not
      rw [Tree.features, Tree.features, ih b (by simp [children]) a ha]
    | compare b bs =>
      obtain ⟨a, as, rfl, ha, has⟩ := h.compare
      have hsteps := map_eq_map_of_forall₂ (f := fun s => s.1.features ++ s.2.features)
        (g := fun s => s.1.features ++ s.2.features) has fun s hs r hr => by
          rw [hr.1, ih s.2 (mem_children_of_step hs) r.2 hr.2]
      simp only [Tree.features, stepFeatures_eq_flatMap, List.flatMap_def, hsteps,
        ih b (by simp [children]) a ha]
    | ident => rw [h.ident]
    | literal l =>
      obtain ⟨k, rfl, hk⟩ := h.literal
      rw [Tree.features, Tree.features]
      cases k <;> cases l <;> first | rfl | cases hk | rw [beq_iff_eq.1 hk]
    | list bs =>
      obtain ⟨as, rfl, has⟩ := h.list
      simp only [Tree.features, listFeatures_eq_map, map_eq_map_of_forall₂ has ih]
    | tuple bs =>
      obtain ⟨as, rfl, has⟩ := h.tuple
      simp only [Tree.features, listFeatures_eq_map, map_eq_map_of_forall₂ has ih]
    | attr b =>
      obtain ⟨a, rfl, ha⟩ := h.attr
      rw [Tree.features, Tree.features, ih b (by simp [children]) a ha]
    | call b bs =>
      obtain ⟨a, as, rfl, ha, has⟩ := h.call
      have hargs := map_eq_map_of_forall₂ (f := fun s => s.2.features)
        (g := fun s => s.2.features) has fun s hs r hr =>
          ih s.2 (mem_children_of_arg hs) r.2 hr.2
      simp only [Tree.features, argFeatures_eq_flatMap, List.flatMap_def, hargs,
        ih b (by simp [children]) a ha]

end RowFilter
