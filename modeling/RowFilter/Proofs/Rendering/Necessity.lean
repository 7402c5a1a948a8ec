import RowFilter.Proofs.Grammar.Alignment
import RowFilter.Proofs.Rendering.Faithful

/-! A tree whose rendered tokens are a sentence for it has tight bases and no more levels
than are left. The sentence is taken apart beside the tree: rendered tokens are never a
group, so each node comes from its own rule, and the operands and items of the rule are
aligned with the rendered ones. -/

namespace RowFilter

open Grammar

namespace Grammar

variable {depth : Nat} {P : Phrases} {t : Tree} {ts : List Token}

theorem Disjunction.flat (h : Disjunction (phrases depth) t ts) : Flat ts :=
  (compositional_flat.sentences (depth + 1)).1 t ts h

theorem Disjunction.features (h : Disjunction (phrases depth) t ts) :
    Grammar.features ts = t.features :=
  (compositional_features.sentences (depth + 1)).1 t ts h

theorem phrases_item_flat (h : (phrases depth).item t ts) : Flat ts :=
  (compositional_flat.sentences depth).1 t ts h

/-- A phrase in parentheses that only group it. -/
def Group (P : Phrases) (t : Tree) (ts : List Token) : Prop :=
  ∃ us, P.item t us ∧ ts = .symbol "(" :: (us ++ [.symbol ")"])

/-- An operand that comes from the rule for its own kind of tree. -/
inductive ProperOperand (P : Phrases) : Tree → List Token → Prop
  | ident (name : String) : ProperOperand P (.ident name) [.word name]
  | literal {l : Literal} {ts : List Token} : LiteralPhrase l ts → ProperOperand P (.literal l) ts
  | tuple {items : List Tree} {ts : List Token} (comma : Bool) : Items P items ts →
    ProperOperand P (.tuple items) (.symbol "(" :: (ts ++ (commaIf comma ++ [.symbol ")"])))
  | list {items : List Tree} {ts : List Token} (comma : Bool) : Items P items ts →
    ProperOperand P (.list items) (.symbol "[" :: (ts ++ (commaIf comma ++ [.symbol "]"])))
  | attr {base : Tree} {ts : List Token} (name : String) : Operand P base ts →
    ProperOperand P (.attr base name) (ts ++ [.symbol ".", .word name])
  | call {callee : Tree} {args : List (Passing × Tree)} {ts us : List Token} :
    Operand P callee ts → Arguments P args us →
    ProperOperand P (.call callee args) (ts ++ .symbol "(" :: (us ++ [.symbol ")"]))

/-- A phrase that comes from the rule for its own kind of tree. -/
inductive Proper (P : Phrases) : Tree → List Token → Prop
  | operand {t : Tree} {ts : List Token} : ProperOperand P t ts → Proper P t ts
  | chain {c : Connective} {operands : List Tree} {ts : List Token} :
    Series (connectiveToken c) (Disjunction P) operands ts → 2 ≤ operands.length →
    Proper P (.chain c operands) ts
  | not {t : Tree} {ts : List Token} : P.negand t ts → Proper P (.not t) (.word "not" :: ts)
  | compare {left : Tree} {steps : List (Relation × Tree)} {ts us : List Token} :
    Operand P left ts → Repeats (Step P) steps us → steps ≠ [] →
    Proper P (.compare left steps) (ts ++ us)

theorem Operand.cases (h : Operand P t ts) : Group P t ts ∨ ProperOperand P t ts := by
  cases h with
  | attr h _ => exact .inr (.attr _ h)
  | call h hargs => exact .inr (.call h hargs)
  | primary h =>
    cases h with
    | ident => exact .inr (.ident _)
    | literal h => exact .inr (.literal h)
    | emptyList hopened => exact .inr (.list false (.none hopened))
    | list comma h => exact .inr (.list comma (.some h))
    | @parentheses items _ comma h =>
      unfold parenthesis
      split
      · cases h with
        | some h => exact .inl ⟨_, series_singleton.1 h, by simp [commaIf]⟩
      · exact .inr (.tuple comma h)

/-- What binds looser than an operand is one in parentheses only. -/
theorem Operand.group_of_loose (h : Operand P t ts) (ht : t.isLoose = true) : Group P t ts := by
  rcases h.cases with hgroup | hproper
  · exact hgroup
  · cases hproper <;> cases ht

theorem Negation.cases (h : Negation P t ts) : Group P t ts ∨ Proper P t ts := by
  cases h with
  | not h => exact .inr (.not h)
  | comparison h =>
    cases h with
    | operand h => exact h.cases.imp_right .operand
    | compare h hsteps => exact .inr (.compare h hsteps (by simp))

/-- A phrase is a group or comes from the rule for its own kind of tree. -/
theorem Disjunction.cases (h : Disjunction P t ts) : Group P t ts ∨ Proper P t ts := by
  cases h with
  | chain h hmore =>
    exact .inr (.chain (Series.mono (fun _ _ h => ChainPhrase.single h) (.mk h hmore)) (by simp))
  | single h =>
    cases h with
    | chain h hmore =>
      exact .inr (.chain (Series.mono (fun _ _ h => h.disjunction) (.mk h hmore)) (by simp))
    | single h => exact h.cases

/-- A loose tree in parentheses is a group. -/
theorem Disjunction.group_of_loose {us : List Token}
    (h : Disjunction (phrases depth) t (.symbol "(" :: (us ++ [.symbol ")"])))
    (ht : t.isLoose = true) (hus : Balanced us) : (phrases depth).item t us := by
  generalize hts : Token.symbol "(" :: (us ++ [.symbol ")"]) = ts at h
  rcases h.cases with ⟨vs, hitem, rfl⟩ | hproper
  · obtain rfl : us = vs := by simpa using hts
    exact hitem
  · -- an operand that is not the whole group comes first
    cases hproper with
    | operand h => cases h <;> cases ht
    | not h => cases hts
    | chain h hlen =>
      cases h with
      | @mk _ more xs _ hR hmore =>
        cases hmore with
        | nil => simp at hlen
        | cons hled =>
          cases hled
          cases hR.flat.eq_nil_of_group hus hts.symm
    | compare hleft hsteps hne =>
      have hmore := hleft.disjunction.flat.eq_nil_of_group hus hts.symm
      cases hsteps with
      | nil => exact absurd rfl hne
      | cons hstep =>
        cases hstep with
        | mk r h => cases r <;> cases hmore

end Grammar

namespace Tree

variable {t : Tree}

theorem flat_tokens (ht : t.WellFormed) : Flat t.tokens := compositional_flat.tokens ht

theorem flat_tokensInOperand (ht : t.WellFormed) : Flat t.tokensInOperand :=
  compositional_flat.inOperand (flat_tokens ht)

/-- The rendered tokens of a tree are never one group. -/
theorem tokens_ne_group (ht : t.WellFormed) {us : List Token} (hus : Flat us) :
    t.tokens ≠ .symbol "(" :: (us ++ [.symbol ")"]) := by
  obtain ⟨hnode, hchildren⟩ := wellFormed_iff.1 ht
  intro h
  cases t with
  | chain c operands =>
    rw [tokens_chain] at h
    rcases operands with _ | ⟨t, _ | ⟨u, operands⟩⟩
    · exact absurd hnode (by simp [NodeWellFormed])
    · exact absurd hnode (by simp [NodeWellFormed])
    · exact absurd ((flat_tokensInOperand (hchildren t (by simp [children]))).eq_nil_of_group
        hus.balanced h) (by simp)
  | not operand =>
    rw [tokens_not] at h
    cases h
  | compare left steps =>
    rw [tokens_compare] at h
    have hmore := (flat_tokensInOperand (hchildren left (by simp [children]))).eq_nil_of_group
      hus.balanced h
    obtain ⟨step, steps, rfl⟩ := List.exists_cons_of_ne_nil hnode
    obtain ⟨r, right⟩ := step
    cases r <;> cases hmore
  | ident name =>
    rw [tokens_ident] at h
    cases h
  | literal l =>
    rw [tokens_literal] at h
    have hphrase := Literal.phrase_tokens hnode
    rw [h] at hphrase
    generalize hus' : Token.symbol "(" :: (us ++ [.symbol ")"]) = ts at hphrase
    cases hphrase <;> simp at hus'
  | list items =>
    rw [tokens_list] at h
    simp at h
  | tuple items =>
    rw [tokens_tuple] at h
    have hinner : joined [.symbol ","] (items.map tokens) ++ commaIf (items.length == 1) = us := by
      simpa [← List.append_assoc] using h
    subst hinner
    rcases items with _ | ⟨item, _ | ⟨other, items⟩⟩
    · exact hus.nonempty rfl
    · exact (flat_tokens (hchildren item (by simp [children]))).not_stop rfl
        (by simpa [joined, commaIf] using hus)
    · simp only [List.map_cons, joined, List.flatMap_cons, List.append_assoc, List.cons_append,
        List.nil_append] at hus
      exact (flat_tokens (hchildren item (by simp [children]))).not_stop rfl hus
  | attr base name =>
    rw [tokens_attr] at h
    exact absurd ((flat_tokens (hchildren base (by simp [children]))).eq_nil_of_group
      hus.balanced h) (by simp)
  | call callee args =>
    rw [tokens_call] at h
    exact absurd ((flat_tokens (hchildren callee (by simp [children]))).eq_nil_of_group
      hus.balanced h) (by simp)

def Featured (s : Token) : Prop := s.features ≠ []

theorem features_append_cons_ne {s : Token} {xs more : List Token} (hs : Featured s) :
    Grammar.features (xs ++ s :: more) ≠ Grammar.features xs := by
  simp [show s.features ≠ [] from hs]

/-- Texts with the same features end before the same operator. -/
theorem determined_of_features {xs xs' : List Token}
    (h : Grammar.features xs = Grammar.features xs') :
    Determined Featured xs xs' := by
  apply determined_of_ne
  · rintro s more hs rfl
    exact features_append_cons_ne hs h
  · rintro s more hs rfl
    exact features_append_cons_ne hs h.symm

theorem features_tokensInOperand (ht : t.WellFormed) :
    Grammar.features t.tokensInOperand = t.features :=
  compositional_features.inOperand (compositional_features.tokens ht)

theorem determined_operand {u : Tree} {depth : Nat} {us : List Token} (ht : t.WellFormed)
    (hu : u.Alike t) (h : Disjunction (phrases depth) u us) :
    Determined Featured us t.tokensInOperand :=
  determined_of_features (by rw [h.features, hu.features, features_tokensInOperand ht])

/-- What is required of a tree by the levels that are left to its sentence. -/
structure Fitting (levels : Nat) (t : Tree) : Prop where
  tight : t.Everywhere TightBase
  cost : t.cost ≤ levels

/-- Wherever the rendered tokens are a sentence for the tree, it fits. -/
def FitsAsRead (t : Tree) : Prop :=
  ∀ levels u, u.Alike t → Disjunction (phrases levels) u t.tokens → Fitting levels t

theorem FitsAsRead.inOperand {u : Tree} {depth : Nat} (ht : t.WellFormed) (hfits : FitsAsRead t)
    (hu : u.Alike t) (h : Disjunction (phrases depth) u t.tokensInOperand) :
    t.Everywhere TightBase ∧ t.costInOperand ≤ depth := by
  unfold costInOperand
  cases hloose : t.isLoose with
  | false =>
    rw [tokensInOperand_of_tight hloose] at h
    obtain ⟨htight, hcost⟩ := hfits depth u hu h
    exact ⟨htight, by simpa using hcost⟩
  | true =>
    rw [tokensInOperand_of_loose hloose] at h
    have hitem := h.group_of_loose (hu.isLoose.trans hloose) (flat_tokens ht).balanced
    cases depth with
    | zero => exact hitem.elim
    | succ levels =>
      obtain ⟨htight, hcost⟩ := hfits levels u hu hitem
      exact ⟨htight, by
        rw [if_pos rfl]
        omega⟩

theorem tight_of_operand {u : Tree} {depth : Nat} (ht : t.WellFormed) (hu : u.Alike t)
    (h : Operand (phrases depth) u t.tokens) : t.isLoose = false := by
  cases hloose : t.isLoose with
  | false => rfl
  | true =>
    obtain ⟨us, hitem, htokens⟩ := h.group_of_loose (hu.isLoose.trans hloose)
    exact absurd htokens (tokens_ne_group ht (phrases_item_flat hitem))

/-- The items of a bracket are aligned with the rendered ones, one level deeper. -/
theorem items_aligned {as bs : List Tree} {depth : Nat} {us r r' : List Token}
    (hab : List.Forall₂ Alike as bs) (hbs : ∀ b ∈ bs, b.WellFormed)
    (hitems : Items (phrases depth) as us)
    (h : us ++ r = joined [.symbol ","] (bs.map tokens) ++ r')
    (hr : StopsAt EndsItem r) (hr' : StopsAt EndsItem r') :
    ∃ levels, depth = levels + 1 ∧
      ∀ b ∈ bs, ∃ a, a.Alike b ∧ Disjunction (phrases levels) a b.tokens := by
  cases hitems with
  | none hopened =>
    cases hab
    cases depth with
    | zero => exact hopened.elim
    | succ levels => exact ⟨levels, rfl, by simp⟩
  | some hseries =>
    cases hab with
    | nil => cases hseries
    | @cons a b as bs hQ hab =>
      cases depth with
      | zero =>
        cases hseries with
        | mk hitem => exact hitem.elim
      | succ levels =>
        have hcomma : EndsItem (.symbol ",") := rfl
        refine ⟨levels, rfl, hseries.aligned (.cons hQ hab) ?_ hcomma hr hr' ?_⟩
        · simpa [joined, List.flatMap_map] using h
        · exact fun b hb a us _ hitem => hitem.flat.determined (flat_tokens (hbs b hb))

theorem argument_flat {arg : Passing × Tree} {depth : Nat} {us : List Token}
    (h : Argument (phrases depth) arg us) : Flat us := by
  have hbehind := h.behind fun _ _ h => phrases_item_flat h
  cases hbehind with
  | mk p hflat => exact ⟨by simp [hflat.nonempty], nesting_lead (inert_passing p) hflat.nesting⟩

theorem balanced_commas {α : Type} {R : α → List Token → Prop} {as : List α} {ts : List Token}
    (hR : ∀ a us, R a us → Flat us) (h : Commas R as ts) (comma : Bool) :
    Balanced (ts ++ commaIf comma) :=
  h.nesting rfl (fun a us h => (hR a us h).balanced) comma

theorem balanced_arguments {args : List (Passing × Tree)} {depth : Nat} {us : List Token}
    (h : Arguments (phrases depth) args us) : Balanced us := by
  cases h with
  | none => rfl
  | some comma h => exact balanced_commas (fun _ _ => argument_flat) (.inr h) comma

theorem flat_argTokens {arg : Passing × Tree} (h : arg.2.WellFormed) : Flat (argTokens arg) :=
  ⟨by simp [argTokens, (flat_tokens h).nonempty],
    nesting_lead (inert_passing arg.1) (flat_tokens h).nesting⟩

theorem balanced_args {args : List (Passing × Tree)} (h : ∀ a ∈ args, a.2.WellFormed) :
    Balanced (joined [.symbol ","] (args.map argTokens)) := by
  have hcommas : Commas (fun _ us => Flat us) args (joined [.symbol ","] (args.map argTokens)) :=
    commas_joined fun a ha => flat_argTokens (h a ha)
  have := balanced_commas (fun _ _ h => h) hcommas false
  rwa [commaIf, List.append_nil] at this

theorem Argument.item {P : Phrases} {p : Passing} {u : Tree} {us : List Token}
    (h : Argument P (p, u) (p.tokens ++ us)) : P.item u us := by
  cases p <;> cases h <;> assumption

/-- The arguments of a call are aligned with the rendered ones, one level deeper. -/
theorem args_aligned {as bs : List (Passing × Tree)} {depth : Nat} {us : List Token}
    (hab : List.Forall₂ AlikeBehind as bs) (hbs : ∀ b ∈ bs, b.2.WellFormed)
    (hargs : Arguments (phrases depth) as us)
    (h : us = joined [.symbol ","] (bs.map argTokens)) :
    ∃ levels, depth = levels + 1 ∧
      ∀ b ∈ bs, ∃ a, a.Alike b.2 ∧ Disjunction (phrases levels) a b.2.tokens := by
  cases hargs with
  | none hopened =>
    cases hab
    cases depth with
    | zero => exact hopened.elim
    | succ levels => exact ⟨levels, rfl, by simp⟩
  | @some _ ts comma hseries =>
    cases hab with
    | nil => cases hseries
    | @cons a b as bs hQ hab =>
      have hcomma : EndsItem (.symbol ",") := rfl
      have hlast : StopsAt EndsItem (commaIf comma) := by
        cases comma with
        | false => exact .nil
        | true => exact .cons hcomma
      have hsplit : ts ++ commaIf comma =
          (argTokens b ++ bs.flatMap fun b => .symbol "," :: argTokens b) ++ [] := by
        simpa [joined, List.flatMap_map] using h
      have haligned := hseries.aligned (.cons hQ hab) hsplit hcomma hlast .nil
        fun b' hb' a us _ harg => (argument_flat harg).determined (flat_argTokens (hbs b' hb'))
      have hitem : ∀ b' ∈ b :: bs, ∃ a, a.Alike b'.2 ∧ (phrases depth).item a b'.2.tokens := by
        intro b' hb'
        obtain ⟨⟨p, a⟩, ⟨rfl, ha⟩, harg⟩ := haligned b' hb'
        exact ⟨a, ha, Argument.item harg⟩
      cases depth with
      | zero =>
        obtain ⟨a, -, hfalse⟩ := hitem b (by simp)
        exact hfalse.elim
      | succ levels => exact ⟨levels, rfl, hitem⟩

theorem Step.operand {P : Phrases} {r : Relation} {u : Tree} {us : List Token}
    (h : Step P (r, u) (relationTokens r ++ us)) : Operand P u us := by
  generalize hts : relationTokens r ++ us = ts at h
  cases h with
  | mk _ h => rwa [List.append_cancel_left hts]

theorem featured_relation (r : Relation) (us : List Token) :
    ∃ s more, relationTokens r ++ us = s :: more ∧ Featured s := by
  cases r <;> exact ⟨_, _, rfl, by simp [Featured, Token.features]⟩

/-- The steps of a comparison are aligned with the rendered ones. -/
theorem steps_aligned {a b : Tree} {as bs : List (Relation × Tree)} {depth : Nat}
    {us vs : List Token} (hb : b.WellFormed) (hbs : ∀ b ∈ bs, b.2.WellFormed) (ha : a.Alike b)
    (hab : List.Forall₂ AlikeBehind as bs) (hleft : Operand (phrases depth) a us)
    (hsteps : Repeats (Step (phrases depth)) as vs)
    (h : us ++ vs = b.tokensInOperand ++ bs.flatMap stepTokens) :
    Operand (phrases depth) a b.tokensInOperand ∧
      ∀ b ∈ bs, ∃ a, a.Alike b.2 ∧ Operand (phrases depth) a b.2.tokensInOperand := by
  have hstart : ∀ step us, Step (phrases depth) step us → ∃ s more, us = s :: more ∧ Featured s := by
    rintro _ _ ⟨r, -⟩
    exact featured_relation r _
  have hstop : StopsAt Featured (bs.flatMap stepTokens) :=
    stopsAt_repeats (R := fun b us => us = stepTokens b)
      (fun b us hus => hus ▸ featured_relation b.1 _) (repeats_flatMap fun _ _ => rfl)
  obtain ⟨rfl, hmore⟩ := determined_operand hb ha hleft.disjunction _ _ h
    (stopsAt_repeats hstart hsteps) hstop
  refine ⟨hleft, fun b hb => ?_⟩
  have hdet : ∀ b ∈ bs, ∀ a us, AlikeBehind a b → Step (phrases depth) a us →
      Determined Featured us (stepTokens b) := by
    rintro ⟨r, b⟩ hb _ _ ⟨rfl, hab⟩ ⟨r, h⟩
    refine determined_of_features ?_
    rw [stepTokens, features_append, features_append, h.disjunction.features, hab.features,
      features_tokensInOperand (hbs _ hb)]
  have hstart' : ∀ b, ∃ s more, stepTokens b = s :: more ∧ Featured s := fun b =>
    featured_relation b.1 _
  have hsplit : vs ++ [] = bs.flatMap stepTokens ++ [] := by simpa using hmore
  obtain ⟨⟨r, a⟩, ⟨rfl, ha⟩, hstep⟩ :=
    hsteps.aligned hab hsplit .nil .nil hstart hstart' hdet b hb
  exact ⟨a, ha, Step.operand hstep⟩

/-- The operands of a chain are aligned with the rendered ones. -/
theorem operands_aligned {c : Connective} {as bs : List Tree} {depth : Nat} {ts : List Token}
    (hab : List.Forall₂ Alike as bs) (hbs : ∀ b ∈ bs, b.WellFormed)
    (hseries : Series (connectiveToken c) (Disjunction (phrases depth)) as ts)
    (h : ts = joined [connectiveToken c] (bs.map tokensInOperand)) :
    ∀ b ∈ bs, ∃ a, a.Alike b ∧ Disjunction (phrases depth) a b.tokensInOperand := by
  cases hab with
  | nil => cases hseries
  | @cons a b as bs hQ hab =>
    have hoperator : Featured (connectiveToken c) := by
      rw [Featured, features_connective]
      simp
    have hsplit : ts ++ [] = (b.tokensInOperand ++
        bs.flatMap fun b => connectiveToken c :: b.tokensInOperand) ++ [] := by
      simpa [joined, List.flatMap_map] using h
    exact hseries.aligned (.cons hQ hab) hsplit hoperator .nil .nil
      fun b hb a us hab h => determined_operand (hbs b hb) hab h

theorem fitsAsRead_of_proper (ht : t.WellFormed)
    (h : ∀ depth u ts, u.Alike t → Proper (phrases depth) u ts → t.tokens = ts →
      Fitting depth t) : FitsAsRead t := by
  intro depth u hu hread
  rcases hread.cases with ⟨us, hitem, htokens⟩ | hproper
  · exact absurd htokens (tokens_ne_group ht (phrases_item_flat hitem))
  · exact h depth u _ hu hproper rfl

theorem fitsAsRead_chain {c : Connective} {bs : List Tree} (ht : (chain c bs).WellFormed)
    (ih : ∀ b ∈ bs, FitsAsRead b) : FitsAsRead (chain c bs) := by
  refine fitsAsRead_of_proper ht fun depth u ts hu hproper hts => ?_
  have hbs : ∀ b ∈ bs, b.WellFormed := (wellFormed_iff.1 ht).2
  obtain ⟨as, rfl, hab⟩ := hu.chain
  rw [tokens_chain] at hts
  cases hproper with
  | operand h => cases h
  | chain hseries _ =>
    have hfits : ∀ b ∈ bs, b.Everywhere TightBase ∧ b.costInOperand ≤ depth := by
      intro b hb
      obtain ⟨a, ha, h⟩ := operands_aligned hab hbs hseries hts.symm b hb
      exact (ih b hb).inOperand (hbs b hb) ha h
    exact ⟨everywhere_iff.2 ⟨trivial, fun b hb => (hfits b hb).1⟩,
      cost_chain_le.2 fun b hb => (hfits b hb).2⟩

theorem fitsAsRead_not {b : Tree} (ht : (Tree.not b).WellFormed) (ih : FitsAsRead b) :
    FitsAsRead (.not b) := by
  refine fitsAsRead_of_proper ht fun depth u ts hu hproper hts => ?_
  have hb : b.WellFormed := ht.child (by simp [children])
  obtain ⟨a, rfl, ha⟩ := hu.not
  rw [tokens_not] at hts
  cases hproper with
  | operand h => cases h
  | not hnegand =>
    obtain rfl := (List.cons.inj hts).2
    cases depth with
    | zero => exact hnegand.elim
    | succ levels =>
      obtain ⟨htight, hcost⟩ := ih.inOperand hb ha (Negation.disjunction hnegand)
      exact ⟨everywhere_iff.2 ⟨trivial, by simpa [children] using htight⟩,
        cost_not_le.2 ⟨levels, rfl, hcost⟩⟩

theorem fitsAsRead_compare {b : Tree} {bs : List (Relation × Tree)}
    (ht : (compare b bs).WellFormed) (ihLeft : FitsAsRead b)
    (ihRight : ∀ s ∈ bs, FitsAsRead s.2) : FitsAsRead (compare b bs) := by
  refine fitsAsRead_of_proper ht fun depth u ts hu hproper hts => ?_
  have hb : b.WellFormed := ht.child (by simp [children])
  have hbs : ∀ s ∈ bs, s.2.WellFormed := fun s hs => ht.child (mem_children_of_step hs)
  obtain ⟨a, as, rfl, ha, hab⟩ := hu.compare
  rw [tokens_compare] at hts
  cases hproper with
  | operand h => cases h
  | compare hleft hsteps _ =>
    obtain ⟨hleft, hright⟩ := steps_aligned hb hbs ha hab hleft hsteps hts.symm
    obtain ⟨htight, hcost⟩ := ihLeft.inOperand hb ha hleft.disjunction
    have hfits : ∀ s ∈ bs, s.2.Everywhere TightBase ∧ s.2.costInOperand ≤ depth := by
      intro s hs
      obtain ⟨a, ha, h⟩ := hright s hs
      exact (ihRight s hs).inOperand (hbs s hs) ha h.disjunction
    refine ⟨everywhere_iff.2 ⟨trivial, List.forall_mem_cons.2 ⟨htight, ?_⟩⟩,
      cost_compare_le.2 ⟨hcost, fun s hs => (hfits s hs).2⟩⟩
    exact List.forall_mem_map.2 fun s hs => (hfits s hs).1

/-- What is left to the items of a bracket that is read is one level less. -/
theorem fitting_items {bs : List Tree} {depth : Nat} (ih : ∀ b ∈ bs, FitsAsRead b)
    (h : ∃ levels, depth = levels + 1 ∧
      ∀ b ∈ bs, ∃ a, a.Alike b ∧ Disjunction (phrases levels) a b.tokens) :
    (∀ b ∈ bs, b.Everywhere TightBase) ∧ 1 + greatest (itemCosts bs) ≤ depth := by
  obtain ⟨levels, rfl, hlevel⟩ := h
  have hfits : ∀ b ∈ bs, Fitting levels b := by
    intro b hb
    obtain ⟨a, ha, h⟩ := hlevel b hb
    exact ih b hb levels a ha h
  exact ⟨fun b hb => (hfits b hb).tight,
    cost_items_le.2 ⟨levels, rfl, fun b hb => (hfits b hb).cost⟩⟩

theorem fitsAsRead_list {bs : List Tree} (ht : (list bs).WellFormed)
    (ih : ∀ b ∈ bs, FitsAsRead b) : FitsAsRead (list bs) := by
  refine fitsAsRead_of_proper ht fun depth u ts hu hproper hts => ?_
  obtain ⟨as, rfl, hab⟩ := hu.list
  rw [tokens_list] at hts
  cases hproper with
  | operand h =>
    cases h with
    | list comma hitems =>
      have hlast : StopsAt EndsItem (commaIf comma ++ [.symbol "]"]) := by
        cases comma <;> exact .cons rfl
      obtain ⟨htight, hcost⟩ := fitting_items ih (items_aligned hab (wellFormed_iff.1 ht).2 hitems
        (List.cons.inj hts).2.symm hlast (.cons rfl))
      exact ⟨everywhere_iff.2 ⟨trivial, htight⟩, hcost⟩

theorem fitsAsRead_tuple {bs : List Tree} (ht : (tuple bs).WellFormed)
    (ih : ∀ b ∈ bs, FitsAsRead b) : FitsAsRead (tuple bs) := by
  refine fitsAsRead_of_proper ht fun depth u ts hu hproper hts => ?_
  obtain ⟨as, rfl, hab⟩ := hu.tuple
  rw [tokens_tuple] at hts
  cases hproper with
  | operand h =>
    cases h with
    | tuple comma hitems =>
      have hlast (comma : Bool) : StopsAt EndsItem (commaIf comma ++ [.symbol ")"]) := by
        cases comma <;> exact .cons rfl
      obtain ⟨htight, hcost⟩ := fitting_items ih (items_aligned hab (wellFormed_iff.1 ht).2 hitems
        (List.cons.inj hts).2.symm (hlast _) (hlast _))
      exact ⟨everywhere_iff.2 ⟨trivial, htight⟩, hcost⟩

theorem fitsAsRead_attr {b : Tree} {name : String} (ht : (attr b name).WellFormed)
    (ih : FitsAsRead b) : FitsAsRead (attr b name) := by
  refine fitsAsRead_of_proper ht fun depth u ts hu hproper hts => ?_
  have hb : b.WellFormed := ht.child (by simp [children])
  obtain ⟨a, rfl, ha⟩ := hu.attr
  rw [tokens_attr] at hts
  cases hproper with
  | operand h =>
    cases h with
    | attr _ hbase =>
      obtain rfl := List.append_cancel_right hts
      obtain ⟨htight, hcost⟩ := ih depth a ha hbase.disjunction
      exact ⟨everywhere_iff.2 ⟨tight_of_operand hb ha hbase,
        by simpa [children] using htight⟩, hcost⟩

theorem fitsAsRead_call {b : Tree} {bs : List (Passing × Tree)} (ht : (call b bs).WellFormed)
    (ihCallee : FitsAsRead b) (ihArgs : ∀ s ∈ bs, FitsAsRead s.2) : FitsAsRead (call b bs) := by
  refine fitsAsRead_of_proper ht fun depth u ts hu hproper hts => ?_
  have hb : b.WellFormed := ht.child (by simp [children])
  have hbs : ∀ s ∈ bs, s.2.WellFormed := fun s hs => ht.child (mem_children_of_arg hs)
  obtain ⟨a, as, rfl, ha, hab⟩ := hu.call
  rw [tokens_call] at hts
  cases hproper with
  | operand h =>
    cases h with
    | call hbase hargs =>
      obtain ⟨rfl, rfl⟩ := (balanced_args hbs).append_inj (balanced_arguments hargs) hts
      obtain ⟨levels, rfl, hlevel⟩ := args_aligned hab hbs hargs rfl
      obtain ⟨htight, hcost⟩ := ihCallee _ a ha hbase.disjunction
      have hfits : ∀ s ∈ bs, Fitting levels s.2 := by
        intro s hs
        obtain ⟨a, ha, h⟩ := hlevel s hs
        exact ihArgs s hs levels a ha h
      refine ⟨everywhere_iff.2 ⟨tight_of_operand hb ha hbase,
        List.forall_mem_cons.2 ⟨htight, ?_⟩⟩,
        cost_call_le.2 ⟨hcost, levels, rfl, fun s hs => (hfits s hs).cost⟩⟩
      exact List.forall_mem_map.2 fun s hs => (hfits s hs).tight

/-- A tree whose rendered tokens are a sentence for it fits. -/
theorem fitsAsRead (ht : t.WellFormed) : FitsAsRead t := by
  induction t using Tree.induct with
  | node t ih =>
    have ih (u : Tree) (hu : u ∈ t.children) : FitsAsRead u := ih u hu (ht.child hu)
    cases t with
    | chain c bs => exact fitsAsRead_chain ht ih
    | not b => exact fitsAsRead_not ht (ih b (by simp [children]))
    | compare b bs =>
      exact fitsAsRead_compare ht (ih b (by simp [children])) fun s hs =>
        ih s.2 (mem_children_of_step hs)
    | ident | literal =>
      intro depth u _ _
      exact ⟨everywhere_iff.2 ⟨trivial, by simp [children]⟩, Nat.zero_le depth⟩
    | list bs => exact fitsAsRead_list ht ih
    | tuple bs => exact fitsAsRead_tuple ht ih
    | attr b name => exact fitsAsRead_attr ht (ih b (by simp [children]))
    | call b bs =>
      exact fitsAsRead_call ht (ih b (by simp [children])) fun s hs =>
        ih s.2 (mem_children_of_arg hs)

end Tree

end RowFilter
