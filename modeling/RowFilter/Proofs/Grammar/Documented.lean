import Mathlib
import RowFilter.Proofs.Grammar.Compositional
import RowFilter.Proofs.Grammar.Lexical
import RowFilter.Proofs.Grammar.Sentence
import RowFilter.Proofs.Grammar.Unlimited

/-! The grammar as documented: which tokens are an expression, and of which tree. Parsing
accepts this grammar and one thing more, a comma between parentheses with nothing before
it, which it takes for the empty tuple. -/

namespace RowFilter

open Text Grammar

namespace Grammar

/-- What an expression is at most, loosest first. -/
inductive Precedence where
  | or
  | and
  | not
  | comparison
  | operand
  | primary
  deriving DecidableEq

namespace Precedence

def tighter : Precedence → Option Precedence
  | .or => some .and
  | .and => some .not
  | .not => some .comparison
  | .comparison => some .operand
  | .operand => some .primary
  | .primary => none

def ofConnective : Connective → Precedence
  | .or => .or
  | .and => .and

end Precedence

/-- Tokens with a comma between them. -/
def commas (tss : List (List Token)) : List Token := List.intercalate [.symbol ","] tss

/-- The tokens are an expression for the tree. -/
inductive Derives : Precedence → Tree → List Token → Prop
  | tighter {p q : Precedence} {t : Tree} {ts : List Token} : p.tighter = some q →
    Derives q t ts → Derives p t ts
  | chain {c : Connective} {q : Precedence} {parts : List (Tree × List Token)} :
    (Precedence.ofConnective c).tighter = some q → 2 ≤ parts.length →
    (∀ part ∈ parts, Derives q part.1 part.2) →
    Derives (.ofConnective c) (.chain c (parts.map Prod.fst))
      (List.intercalate [connectiveToken c] (parts.map Prod.snd))
  | not {t : Tree} {ts : List Token} : Derives .not t ts → Derives .not (.not t) (.word "not" :: ts)
  | compare {left : Tree} {ts : List Token} {steps : List (Relation × Tree × List Token)} :
    Derives .operand left ts → steps ≠ [] →
    (∀ step ∈ steps, Derives .operand step.2.1 step.2.2) →
    Derives .comparison (.compare left (steps.map fun step => (step.1, step.2.1)))
      (ts ++ steps.flatMap fun step => relationTokens step.1 ++ step.2.2)
  | attr {base : Tree} {ts : List Token} {name : String} : Derives .operand base ts → IsName name →
    Derives .operand (.attr base name) (ts ++ [.symbol ".", .word name])
  | call {callee : Tree} {ts : List Token} {args : List (Passing × Tree × List Token)}
    {comma : Bool} : Derives .operand callee ts →
    (∀ arg ∈ args, Derives .or arg.2.1 arg.2.2) →
    (∀ arg ∈ args, ∀ name, arg.1 = .keyword name → IsName name) → (comma = true → args ≠ []) →
    Derives .operand (.call callee (args.map fun arg => (arg.1, arg.2.1)))
      (ts ++ .symbol "(" :: (commas (args.map fun arg => arg.1.tokens ++ arg.2.2) ++
        (commaIf comma ++ [.symbol ")"])))
  | ident {name : String} : IsName name → Derives .primary (.ident name) [.word name]
  | literal {l : Literal} {ts : List Token} : LiteralPhrase l ts → Derives .primary (.literal l) ts
  | group {t : Tree} {ts : List Token} : Derives .or t ts →
    Derives .primary t (.symbol "(" :: (ts ++ [.symbol ")"]))
  | tuple {parts : List (Tree × List Token)} {comma : Bool} :
    (∀ part ∈ parts, Derives .or part.1 part.2) → (comma = true → parts ≠ []) →
    (parts.length = 1 → comma = true) →
    Derives .primary (.tuple (parts.map Prod.fst))
      (.symbol "(" :: (commas (parts.map Prod.snd) ++ (commaIf comma ++ [.symbol ")"])))
  | list {parts : List (Tree × List Token)} {comma : Bool} :
    (∀ part ∈ parts, Derives .or part.1 part.2) → (comma = true → parts ≠ []) →
    Derives .primary (.list (parts.map Prod.fst))
      (.symbol "[" :: (commas (parts.map Prod.snd) ++ (commaIf comma ++ [.symbol "]"])))

/-- No comma stands directly behind an opening parenthesis. -/
def NoLoneComma (ts : List Token) : Prop :=
  ts.IsChain fun t u => t = .symbol "(" → u ≠ .symbol ","

theorem NoLoneComma.within {ts us : List Token} (h : NoLoneComma ts) (hus : us <:+: ts) :
    NoLoneComma us :=
  List.IsChain.infix h hus

section

variable {α β : Type} {R : α → List Token → Prop} {S : β → Prop} {f : β → α}
variable {g : β → List Token} {as : List α} {ts : List Token} {s : Token}

/-- Phrases one behind the other are parts one behind the other, where a phrase is a part. -/
theorem repeats_parts (h : ∀ a ts, R a ts ↔ ∃ b, S b ∧ f b = a ∧ g b = ts) :
    Repeats R as ts ↔ ∃ bs : List β, (∀ b ∈ bs, S b) ∧ bs.map f = as ∧ bs.flatMap g = ts := by
  constructor
  · intro hrep
    induction hrep with
    | nil => exact ⟨[], by simp, rfl, rfl⟩
    | cons hR _ ih =>
      obtain ⟨b, hb, rfl, rfl⟩ := (h _ _).1 hR
      obtain ⟨bs, hbs, rfl, rfl⟩ := ih
      exact ⟨b :: bs, List.forall_mem_cons.2 ⟨hb, hbs⟩, rfl, rfl⟩
  · intro hparts
    obtain ⟨bs, hbs, rfl, rfl⟩ := hparts
    induction bs with
    | nil => exact .nil
    | cons b bs ih =>
      obtain ⟨hb, hbs⟩ := List.forall_mem_cons.1 hbs
      exact .cons ((h _ _).2 ⟨b, hb, rfl, rfl⟩) (ih hbs)

theorem series_parts (h : ∀ a ts, R a ts ↔ ∃ b, S b ∧ f b = a ∧ g b = ts) :
    Series s R as ts ↔ ∃ bs : List β, bs ≠ [] ∧ (∀ b ∈ bs, S b) ∧ bs.map f = as ∧
      List.intercalate [s] (bs.map g) = ts := by
  have hled (a : α) (ts : List Token) :
      Led s R a ts ↔ ∃ b, S b ∧ f b = a ∧ s :: g b = ts := by
    constructor
    · intro hled
      obtain ⟨hR⟩ := hled
      obtain ⟨b, hb, rfl, rfl⟩ := (h _ _).1 hR
      exact ⟨b, hb, rfl, rfl⟩
    · intro hpart
      obtain ⟨b, hb, rfl, rfl⟩ := hpart
      exact .mk ((h _ _).2 ⟨b, hb, rfl, rfl⟩)
  constructor
  · intro hseries
    obtain ⟨hR, hmore⟩ := hseries
    obtain ⟨b, hb, rfl, rfl⟩ := (h _ _).1 hR
    obtain ⟨bs, hbs, rfl, rfl⟩ := (repeats_parts hled).1 hmore
    refine ⟨b :: bs, by simp, List.forall_mem_cons.2 ⟨hb, hbs⟩, rfl, ?_⟩
    rw [intercalate_eq_joined, List.map_cons, joined, List.flatMap_map]
    rfl
  · intro hparts
    obtain ⟨bs, hne, hbs, rfl, rfl⟩ := hparts
    obtain ⟨b, bs, rfl⟩ := List.exists_cons_of_ne_nil hne
    obtain ⟨hb, hbs⟩ := List.forall_mem_cons.1 hbs
    rw [intercalate_eq_joined, List.map_cons, List.map_cons, joined, List.flatMap_map]
    exact .mk ((h _ _).2 ⟨b, hb, rfl, rfl⟩) ((repeats_parts hled).2 ⟨bs, hbs, rfl, rfl⟩)

theorem isPart_pair (a : α) (ts : List Token) :
    R a ts ↔ ∃ part : α × List Token, R part.1 part.2 ∧ part.1 = a ∧ part.2 = ts := by
  constructor
  · exact fun h => ⟨(a, ts), h, rfl, rfl⟩
  · intro h
    obtain ⟨_, h, rfl, rfl⟩ := h
    exact h

theorem infix_flatMap (g : β → List Token) {b : β} {bs : List β} (h : b ∈ bs) :
    g b <:+: bs.flatMap g :=
  List.infix_of_mem_flatten (List.mem_map_of_mem h)

theorem infix_intercalate (g : β → List Token) (separator : List Token) {b : β} {bs : List β}
    (h : b ∈ bs) : g b <:+: List.intercalate separator (bs.map g) := by
  rw [intercalate_eq_joined]
  cases bs with
  | nil => cases h
  | cons b' bs =>
    rw [List.map_cons, joined, List.flatMap_map]
    rcases List.mem_cons.1 h with rfl | h
    · exact (List.prefix_append _ _).isInfix
    · have hpart : g b <:+: separator ++ g b := (List.suffix_append _ _).isInfix
      have hflat := infix_flatMap (fun b => separator ++ g b) h
      exact (hpart.trans hflat).trans (List.suffix_append _ _).isInfix

end

section

variable {P : Phrases} {t : Tree} {ts : List Token}

theorem argument_part (arg : Passing × Tree) (ts : List Token) :
    Argument P arg ts ↔ ∃ part : Passing × Tree × List Token,
      (P.item part.2.1 part.2.2 ∧ ∀ name, part.1 = .keyword name → IsName name) ∧
        (part.1, part.2.1) = arg ∧ part.1.tokens ++ part.2.2 = ts := by
  constructor
  · intro h
    cases h with
    | positional h => exact ⟨(.positional, _, _), ⟨h, by simp⟩, rfl, rfl⟩
    | keyword hname h =>
      refine ⟨(.keyword _, _, _), ⟨h, fun name hpassing => ?_⟩, rfl, rfl⟩
      cases hpassing
      exact hname
    | starred h => exact ⟨(.starred, _, _), ⟨h, by simp⟩, rfl, rfl⟩
    | doubleStarred h => exact ⟨(.doubleStarred, _, _), ⟨h, by simp⟩, rfl, rfl⟩
  · intro h
    obtain ⟨⟨passing, value, us⟩, ⟨h, hname⟩, rfl, rfl⟩ := h
    cases passing with
    | positional => exact .positional h
    | keyword name => exact .keyword (hname name rfl) h
    | starred => exact .starred h
    | doubleStarred => exact .doubleStarred h

theorem step_part (step : Relation × Tree) (ts : List Token) :
    Step P step ts ↔ ∃ part : Relation × Tree × List Token, Operand P part.2.1 part.2.2 ∧
      (part.1, part.2.1) = step ∧ relationTokens part.1 ++ part.2.2 = ts := by
  constructor
  · intro h
    obtain ⟨r, h⟩ := h
    exact ⟨(r, _, _), h, rfl, rfl⟩
  · intro h
    obtain ⟨⟨r, u, us⟩, h, rfl, rfl⟩ := h
    exact .mk r h

end

/-! What is read and has no lone comma is an expression. -/

section

variable {P : Phrases} {t : Tree} {ts : List Token}
  (hitem : ∀ t ts, P.item t ts → NoLoneComma ts → Derives .or t ts)

include hitem

theorem derives_primary (h : Primary P t ts) (hc : NoLoneComma ts) : Derives .primary t ts := by
  have hparts {parts : List (Tree × List Token)} {after : List Token} (opening : Token)
      (h : ∀ part ∈ parts, P.item part.1 part.2)
      (hc : NoLoneComma (opening :: (commas (parts.map Prod.snd) ++ after))) :
      ∀ part ∈ parts, Derives .or part.1 part.2 := by
    intro part hpart
    have hmem : part.2 <:+: commas (parts.map Prod.snd) := infix_intercalate Prod.snd _ hpart
    exact hitem _ _ (h part hpart) (hc.within (hmem.trans ⟨[opening], after, rfl⟩))
  cases h with
  | ident hname => exact .ident hname
  | literal hl => exact .literal hl
  | emptyList => exact @Derives.list [] false (by simp) (by simp)
  | list comma hseries =>
    obtain ⟨parts, hne, h, rfl, rfl⟩ := (series_parts isPart_pair).1 hseries
    exact .list (hparts _ h hc) fun _ => hne
  | @parentheses items ts comma h =>
    cases h with
    | none =>
      cases comma with
      | false => exact @Derives.tuple [] false (by simp) (by simp) (by simp)
      | true => simp [NoLoneComma, commaIf] at hc
    | some hseries =>
      obtain ⟨parts, hne, h, rfl, rfl⟩ := (series_parts isPart_pair).1 hseries
      have hderives := hparts _ h hc
      cases comma with
      | true =>
        rw [parenthesis_eq_tuple fun _ => rfl]
        exact .tuple hderives (fun _ => hne) fun _ => rfl
      | false =>
        unfold parenthesis
        split
        · -- one item without a comma is the item itself
          rename_i hone _
          obtain ⟨⟨u, us⟩, rfl, rfl⟩ := List.map_eq_singleton_iff.1 hone
          simpa [commaIf] using Derives.group (hderives _ (List.mem_cons_self ..))
        · rename_i hmany
          refine .tuple hderives nofun fun hone => ?_
          obtain ⟨part, rfl⟩ := List.length_eq_one_iff.1 hone
          exact absurd rfl (hmany _ rfl)

theorem derives_operand (h : Operand P t ts) (hc : NoLoneComma ts) : Derives .operand t ts := by
  induction h with
  | primary h => exact .tighter rfl (derives_primary hitem h hc)
  | attr _ hname ih => exact .attr (ih hc.left_of_append) hname
  | @call callee args ts us _ hargs ih =>
    have hcallee := ih hc.left_of_append
    cases hargs with
    | none => exact @Derives.call _ _ [] false hcallee (by simp) (by simp) (by simp)
    | some comma hseries =>
      obtain ⟨parts, hne, h, rfl, rfl⟩ := (series_parts argument_part).1 hseries
      rw [List.append_assoc] at hc ⊢
      refine .call hcallee (fun part hpart => ?_) (fun part hpart => (h part hpart).2) fun _ => hne
      have hmem := infix_intercalate (fun part => part.1.tokens ++ part.2.2) [.symbol ","] hpart
      have hvalue : part.2.2 <:+: part.1.tokens ++ part.2.2 := (List.suffix_append _ _).isInfix
      have hcall := NoLoneComma.within hc.right_of_append (hmem.trans ⟨[.symbol "("], _, rfl⟩)
      exact hitem _ _ (h part hpart).1 (hcall.within hvalue)

theorem derives_comparison (h : Comparison P t ts) (hc : NoLoneComma ts) :
    Derives .comparison t ts := by
  cases h with
  | operand h => exact .tighter rfl (derives_operand hitem h hc)
  | compare hleft hsteps =>
    obtain ⟨parts, h, hmap, rfl⟩ := (repeats_parts step_part).1 hsteps
    rw [← hmap]
    refine .compare (derives_operand hitem hleft hc.left_of_append) ?_ fun part hpart => ?_
    · rintro rfl
      cases hmap
    · have hstep := infix_flatMap (fun part => relationTokens part.1 ++ part.2.2) hpart
      have hpart' := NoLoneComma.within hc.right_of_append hstep
      exact derives_operand hitem (h part hpart) hpart'.right_of_append

variable (hnegand : ∀ t ts, P.negand t ts → NoLoneComma ts → Derives .not t ts)

include hnegand

theorem derives_negation (h : Negation P t ts) (hc : NoLoneComma ts) : Derives .not t ts := by
  cases h with
  | comparison h => exact .tighter rfl (derives_comparison hitem h hc)
  | not h => exact .not (hnegand _ _ h (List.IsChain.tail hc))

omit hitem hnegand in
theorem derives_chain {c : Connective} {q : Precedence} {R : Tree → List Token → Prop}
    (hq : (Precedence.ofConnective c).tighter = some q)
    (hR : ∀ t ts, R t ts → NoLoneComma ts → Derives q t ts) (h : ChainPhrase c R t ts)
    (hc : NoLoneComma ts) : Derives (.ofConnective c) t ts := by
  cases h with
  | single h => exact .tighter hq (hR _ _ h hc)
  | chain hfirst hmore =>
    obtain ⟨parts, -, h, hmap, hts⟩ := (series_parts isPart_pair).1 (Series.mk hfirst hmore)
    rw [← hmap, ← hts]
    rw [← hts] at hc
    refine .chain hq ?_ fun part hpart => ?_
    · have := congrArg List.length hmap
      simp only [List.length_map, List.length_cons] at this
      omega
    · exact hR _ _ (h part hpart) (hc.within (infix_intercalate Prod.snd _ hpart))

theorem derives_disjunction (h : Disjunction P t ts) (hc : NoLoneComma ts) : Derives .or t ts :=
  derives_chain rfl (fun _ _ h hc => derives_chain rfl (fun _ _ => derives_negation hitem hnegand) h hc)
    h hc

end

/-- Every phrase without a lone comma is a documented expression. -/
theorem derives_of_phrase (depth : Nat) {t : Tree} {ts : List Token}
    (h : (phrases depth).item t ts) (hc : NoLoneComma ts) : Derives .or t ts := by
  have hboth : (∀ t ts, (phrases depth).item t ts → NoLoneComma ts → Derives .or t ts) ∧
      ∀ t ts, (phrases depth).negand t ts → NoLoneComma ts → Derives .not t ts := by
    clear h hc
    induction depth with
    | zero => exact ⟨fun _ _ h => h.elim, fun _ _ h => h.elim⟩
    | succ depth ih =>
      exact ⟨fun _ _ => derives_disjunction ih.1 ih.2, fun _ _ => derives_negation ih.1 ih.2⟩
  exact hboth.1 t ts h hc

/-! Expressions have no lone comma. -/

/-- Tokens that make none with what stands before and behind them either. -/
structure Tidy (ts : List Token) : Prop where
  apart : NoLoneComma ts
  ne_nil : ts ≠ []
  head : ∀ t ∈ ts.head?, t ≠ .symbol ","
  last : ∀ t ∈ ts.getLast?, t ≠ .symbol "("

namespace Tidy

variable {t : Token} {ts us : List Token}

theorem single (ht : t ∉ [.symbol ",", .symbol "("]) : Tidy [t] := by
  simp only [List.mem_cons, List.not_mem_nil, or_false, not_or] at ht
  exact ⟨List.isChain_singleton t, by simp, by simpa using ht.1, by simpa using ht.2⟩

theorem append (h : Tidy ts) (h' : Tidy us) : Tidy (ts ++ us) := by
  refine ⟨List.isChain_append.2 ⟨h.apart, h'.apart, fun _ _ u hu _ => h'.head u hu⟩, ?_, ?_, ?_⟩
  · simp [h.ne_nil]
  · rw [List.head?_append_of_ne_nil _ h.ne_nil]
    exact h.head
  · rw [List.getLast?_append_of_ne_nil _ h'.ne_nil]
    exact h'.last

theorem cons (ht : t ∉ [.symbol ",", .symbol "("]) (h : Tidy ts) : Tidy (t :: ts) :=
  (single ht).append h

/-- Behind tidy tokens a comma is not lone. -/
theorem separated {s : Token} (hs : s ≠ .symbol "(") (h : Tidy ts) (h' : Tidy us) :
    Tidy (ts ++ s :: us) := by
  have hbehind : NoLoneComma (s :: us) :=
    List.isChain_cons.2 ⟨fun _ _ hopen => absurd hopen hs, h'.apart⟩
  refine ⟨List.isChain_append.2 ⟨h.apart, hbehind, fun t ht _ _ hopen => absurd hopen (h.last t ht)⟩,
    by simp, ?_, ?_⟩
  · rw [List.head?_append_of_ne_nil _ h.ne_nil]
    exact h.head
  · rw [List.getLast?_append_of_ne_nil _ (by simp), List.getLast?_cons_of_ne_nil h'.ne_nil]
    exact h'.last

theorem intercalate {s : Token} (hs : s ≠ .symbol "(") {tss : List (List Token)}
    (h : ∀ ts ∈ tss, Tidy ts) (hne : tss ≠ []) : Tidy (List.intercalate [s] tss) := by
  induction tss with
  | nil => exact absurd rfl hne
  | cons ts tss ih =>
    obtain ⟨hts, hmore⟩ := List.forall_mem_cons.1 h
    cases tss with
    | nil => simpa using hts
    | cons us tss =>
      rw [List.intercalate_cons_cons, List.append_assoc]
      exact hts.separated hs (ih hmore (by simp))

theorem flatMap {β : Type} {f : β → List Token} {bs : List β} (h : ∀ b ∈ bs, Tidy (f b))
    (hne : bs ≠ []) : Tidy (bs.flatMap f) := by
  induction bs with
  | nil => exact absurd rfl hne
  | cons b bs ih =>
    obtain ⟨hb, hmore⟩ := List.forall_mem_cons.1 h
    cases bs with
    | nil => simpa using hb
    | cons b' bs => exact hb.append (ih hmore (by simp))

/-- Parts between brackets, with a last comma only behind one of them. -/
theorem enclosed {opening closing : Token} {tss : List (List Token)} {comma : Bool}
    (hopening : opening ≠ .symbol ",") (hclosing : closing ∉ [.symbol ",", .symbol "("])
    (h : ∀ ts ∈ tss, Tidy ts) (hlast : comma = true → tss ≠ []) :
    Tidy (opening :: (commas tss ++ (commaIf comma ++ [closing]))) := by
  have hinside : Tidy (commas tss ++ (commaIf comma ++ [closing])) := by
    by_cases hne : tss = []
    · subst hne
      cases comma with
      | true => exact absurd rfl (hlast rfl)
      | false => exact single hclosing
    · have hparts : Tidy (commas tss) := intercalate (by decide) h hne
      cases comma with
      | true => exact hparts.separated (by decide) (single hclosing)
      | false => exact hparts.append (single hclosing)
  refine ⟨List.isChain_cons.2 ⟨fun u hu _ => hinside.head u hu, hinside.apart⟩, by simp,
    by simpa using hopening, ?_⟩
  rw [List.getLast?_cons_of_ne_nil hinside.ne_nil]
  exact hinside.last

theorem relation (r : Relation) : Tidy (relationTokens r) := by
  cases r
  case notIn | isNot => exact (single (by decide)).cons (by decide)
  all_goals exact single (by decide)

theorem passing (p : Passing) (h : Tidy ts) : Tidy (p.tokens ++ ts) := by
  cases p with
  | positional => exact h
  | keyword name => exact (h.cons (by decide)).cons (by simp)
  | starred => exact h.cons (by decide)
  | doubleStarred => exact h.cons (by decide)

theorem literal {l : Literal} (h : LiteralPhrase l ts) : Tidy ts := by
  cases h with
  | negative => exact (single (by simp)).cons (by decide)
  | _ => exact single (by simp)

end Tidy

theorem Derives.tidy {p : Precedence} {t : Tree} {ts : List Token} (h : Derives p t ts) :
    Tidy ts := by
  have hmap {α : Type} {f : α → List Token} {parts : List α} (h : ∀ part ∈ parts, Tidy (f part)) :
      ∀ ts ∈ parts.map f, Tidy ts := by
    intro ts hts
    obtain ⟨part, hpart, rfl⟩ := List.mem_map.1 hts
    exact h part hpart
  induction h with
  | tighter _ _ ih => exact ih
  | @chain c q parts _ hlen _ ih =>
    refine Tidy.intercalate (by cases c <;> decide) (hmap ih) ?_
    intro hnil
    rw [List.map_eq_nil_iff] at hnil
    simp [hnil] at hlen
  | not _ ih => exact ih.cons (by decide)
  | compare _ hne _ ihleft ihsteps =>
    exact ihleft.append (Tidy.flatMap (fun step hstep => (Tidy.relation step.1).append
      (ihsteps step hstep)) hne)
  | attr _ _ ih => exact ih.append ((Tidy.single (by simp)).cons (by decide))
  | call _ _ _ hlast ih ihargs =>
    refine ih.append (Tidy.enclosed (by decide) (by decide) (hmap fun arg harg => ?_)
      (by simpa using hlast))
    exact Tidy.passing arg.1 (ihargs arg harg)
  | ident => exact Tidy.single (by simp)
  | literal hl => exact Tidy.literal hl
  | @group t ts _ ih =>
    have hgroup : Tidy (.symbol "(" :: (commas [ts] ++ (commaIf false ++ [.symbol ")"]))) :=
      Tidy.enclosed (by decide) (by decide) (by simpa using ih) nofun
    simpa [commas, commaIf] using hgroup
  | tuple _ hlast _ ih =>
    exact Tidy.enclosed (by decide) (by decide) (hmap ih) (by simpa using hlast)
  | list _ hlast ih =>
    exact Tidy.enclosed (by decide) (by decide) (hmap ih) (by simpa using hlast)

/-! Every expression is read, so its tokens tell the tree. -/

namespace Precedence

/-- The phrases that are an expression of this kind. -/
def phrase (P : Phrases) : Precedence → Tree → List Token → Prop
  | .or => Disjunction P
  | .and => Conjunction P
  | .not => Negation P
  | .comparison => Comparison P
  | .operand => Operand P
  | .primary => Primary P

end Precedence

theorem phrase_of_tighter {P : Phrases} {p q : Precedence} {t : Tree} {ts : List Token}
    (hq : p.tighter = some q) (h : q.phrase P t ts) : p.phrase P t ts := by
  cases p <;> cases hq
  · exact ChainPhrase.single h
  · exact ChainPhrase.single h
  · exact .comparison h
  · exact .operand h
  · exact .primary h

theorem item_of_length {t : Tree} {ts : List Token} {depth : Nat}
    (h : ∀ depth, ts.length ≤ depth → Disjunction (phrases depth) t ts)
    (hlength : ts.length < depth) : (phrases depth).item t ts := by
  obtain ⟨depth, rfl⟩ := Nat.exists_eq_add_of_lt hlength
  exact h _ (Nat.le_add_right _ _)

theorem opened_of_pos {depth : Nat} (h : 0 < depth) : (phrases depth).opened := by
  obtain ⟨depth, rfl⟩ := Nat.exists_eq_add_of_lt h
  exact trivial

/-- Parts between brackets are items one level deeper. -/
theorem items_of_length {parts : List (Tree × List Token)} {depth : Nat} (hne : parts ≠ [])
    (h : ∀ part ∈ parts, ∀ depth, part.2.length ≤ depth → Disjunction (phrases depth) part.1 part.2)
    (hlength : (commas (parts.map Prod.snd)).length < depth) :
    Series (.symbol ",") (phrases depth).item (parts.map Prod.fst) (commas (parts.map Prod.snd)) := by
  refine (series_parts isPart_pair).2 ⟨parts, hne, fun part hpart => ?_, rfl, rfl⟩
  have hle := (infix_intercalate Prod.snd [.symbol ","] hpart).length_le
  exact item_of_length (h part hpart) (Nat.lt_of_le_of_lt hle hlength)

/-- An expression opens fewer levels than it has tokens. -/
theorem phrase_of_derives {p : Precedence} {t : Tree} {ts : List Token} (h : Derives p t ts) :
    ∀ depth, ts.length ≤ depth → p.phrase (phrases depth) t ts := by
  induction h with
  | tighter hq _ ih => exact fun depth hlength => phrase_of_tighter hq (ih depth hlength)
  | @chain c q parts hq hlen _ ih =>
    intro depth hlength
    have hseries : Series (connectiveToken c) (q.phrase (phrases depth)) (parts.map Prod.fst)
        (List.intercalate [connectiveToken c] (parts.map Prod.snd)) := by
      refine (series_parts isPart_pair).2 ⟨parts, ?_, fun part hpart => ?_, rfl, rfl⟩
      · rintro rfl
        simp at hlen
      · have hle := (infix_intercalate Prod.snd [connectiveToken c] hpart).length_le
        exact ih part hpart depth (Nat.le_trans hle hlength)
    have hchain := ChainPhrase.of_series hseries (by simpa using hlen)
    cases c <;> cases hq <;> exact hchain
  | not _ ih =>
    intro depth hlength
    obtain ⟨depth, rfl⟩ := Nat.exists_eq_add_of_lt hlength
    exact .not (ih _ (Nat.le_add_right _ _))
  | @compare left ts steps _ hne _ ihleft ihsteps =>
    intro depth hlength
    rw [List.length_append] at hlength
    have hsteps : Repeats (Step (phrases depth)) (steps.map fun step => (step.1, step.2.1))
        (steps.flatMap fun step => relationTokens step.1 ++ step.2.2) := by
      refine (repeats_parts step_part).2 ⟨steps, fun step hstep => ?_, rfl, rfl⟩
      have hle := (infix_flatMap (fun step => relationTokens step.1 ++ step.2.2) hstep).length_le
      rw [List.length_append] at hle
      exact ihsteps step hstep depth (by omega)
    obtain ⟨step, steps, rfl⟩ := List.exists_cons_of_ne_nil hne
    exact .compare (ihleft depth (by omega)) hsteps
  | attr _ hname ih =>
    intro depth hlength
    rw [List.length_append] at hlength
    exact .attr (ih depth (by omega)) hname
  | @call callee ts args comma _ _ hname hlast ih ihargs =>
    intro depth hlength
    simp only [List.length_append, List.length_cons] at hlength
    have hcallee := ih depth (by omega)
    rw [← List.append_assoc _ (commaIf comma)]
    refine .call hcallee ?_
    by_cases hnil : args = []
    · subst hnil
      cases comma with
      | true => exact absurd rfl (hlast rfl)
      | false => exact .none (opened_of_pos (by omega))
    · refine .some comma ((series_parts argument_part).2 ⟨args, hnil, fun arg harg => ?_, rfl, rfl⟩)
      have hle := (infix_intercalate (fun arg => arg.1.tokens ++ arg.2.2) [.symbol ","] harg).length_le
      rw [List.length_append] at hle
      rw [commas] at hlength
      exact ⟨item_of_length (ihargs arg harg) (by omega), hname arg harg⟩
  | ident hname => exact fun _ _ => .ident hname
  | literal hl => exact fun _ _ => .literal hl
  | group _ ih =>
    intro depth hlength
    simp only [List.length_append, List.length_cons] at hlength
    exact .group (item_of_length ih (by omega))
  | @tuple parts comma _ hlast hone ih =>
    intro depth hlength
    simp only [List.length_append, List.length_cons] at hlength
    have htuple : parenthesis (parts.map Prod.fst) comma = .tuple (parts.map Prod.fst) :=
      parenthesis_eq_tuple (by simpa using hone)
    rw [← htuple]
    refine .parentheses comma ?_
    by_cases hnil : parts = []
    · subst hnil
      exact .none (opened_of_pos (by omega))
    · exact .some (items_of_length hnil ih (by omega))
  | @list parts comma _ hlast ih =>
    intro depth hlength
    simp only [List.length_append, List.length_cons] at hlength
    by_cases hnil : parts = []
    · subst hnil
      cases comma with
      | true => exact absurd rfl (hlast rfl)
      | false => exact .emptyList (opened_of_pos (by omega))
    · exact .list comma (items_of_length hnil ih (by omega))

end Grammar

namespace Tree

/-- An accepted source is written in tokens that are an expression for its tree, unless a
comma among them stands directly behind an opening parenthesis. If they are an expression,
it is for no other tree. -/
theorem parse_documented {source : String} {t : Tree} (h : parse source = .ok t) :
    ∃ ts, Written ts (trim source.toList) ∧ (Derives .or t ts ↔ NoLoneComma ts) ∧
      ∀ us u, Written us (trim source.toList) → Derives .or u us → us = ts ∧ u = t := by
  obtain ⟨ts, rest, hsentence, hspells, hblank⟩ := parse_eq_ok_iff.1 h
  obtain rfl := eq_nil_of_suffix_trim hspells.suffix hblank
  have hwritten := written_iff_spells.2 hspells
  refine ⟨ts, hwritten, ⟨fun hderives => hderives.tidy.apart, derives_of_phrase _ hsentence⟩, ?_⟩
  intro us u hus hu
  obtain rfl := hus.unique hwritten
  have hphrase : (phrases (us.length + 1)).item u us := phrase_of_derives hu _ (Nat.le_refl _)
  exact ⟨rfl, phrase_unique hphrase hsentence hspells (ends_of_blank rfl _)⟩

theorem documented_tuple :
    parse " not f(x) or a in (b,)" = .ok (.chain .or
      [.not (.call (.ident "f") [(.positional, .ident "x")]),
        .compare (.ident "a") [(.isIn, .tuple [.ident "b"])]]) ∧
    ∃ ts, Written ts (trim " not f(x) or a in (b,)".toList) ∧
      (Derives .or (.chain .or [.not (.call (.ident "f") [(.positional, .ident "x")]),
        .compare (.ident "a") [(.isIn, .tuple [.ident "b"])]]) ts ↔ NoLoneComma ts) := by
  have hparse : parse " not f(x) or a in (b,)" = .ok (.chain .or
      [.not (.call (.ident "f") [(.positional, .ident "x")]),
        .compare (.ident "a") [(.isIn, .tuple [.ident "b"])]]) := by cbv
  obtain ⟨ts, hwritten, hderives, -⟩ := parse_documented hparse
  exact ⟨hparse, ts, hwritten, hderives⟩

/-- A comma with no item before it is read as the empty tuple, and no expression is
written so. -/
theorem lone_comma_is_read : parse "(,)" = .ok (.tuple []) ∧
    ¬ ∃ ts u, Written ts (trim "(,)".toList) ∧ Derives .or u ts := by
  refine ⟨by cbv, ?_⟩
  intro h
  obtain ⟨ts, u, hwritten, hderives⟩ := h
  have htokens : Written [.symbol "(", .symbol ",", .symbol ")"] (trim "(,)".toList) :=
    written_iff_spells.2 (.cons rfl (.cons rfl (.cons rfl (.nil []))))
  obtain rfl := hwritten.unique htokens
  have hapart := hderives.tidy.apart
  simp [NoLoneComma] at hapart

end Tree

end RowFilter
