import RowFilter.Proofs.Grammar.Phrase

/-! Compositional relations between trees and tokens. Such a relation is kept by every rule
of the grammar, whatever operand the rule asks for and whatever levels are left, so it
holds of every sentence. -/

namespace RowFilter

open Grammar

/-- The tokens before the value of an argument. -/
def Passing.tokens : Passing → List Token
  | .positional => []
  | .keyword name => [.word name, .symbol "="]
  | .starred => [.symbol "*"]
  | .doubleStarred => [.symbol "**"]

section

variable {α β : Type}

/-- Lists one behind the other with a separator between them. -/
def joined (separator : List α) : List (List α) → List α
  | [] => []
  | x :: xs => x ++ xs.flatMap fun y => separator ++ y

theorem flatMap_joined (f : α → List β) (separator : List α) (xs : List (List α)) :
    (joined separator xs).flatMap f =
      joined (separator.flatMap f) (xs.map fun x => x.flatMap f) := by
  cases xs with
  | nil => rfl
  | cons x xs => simp [joined, List.flatMap_assoc, List.flatMap_map]

theorem intercalate_eq_joined (separator : List α) (xs : List (List α)) :
    separator.intercalate xs = joined separator xs := by
  match xs with
  | [] => rfl
  | [x] => simp [joined]
  | x :: y :: xs =>
    rw [List.intercalate_cons_cons, intercalate_eq_joined separator (y :: xs)]
    simp [joined]

end

namespace Grammar

/-- A comma behind one item makes it a tuple; several items are one anyway. -/
theorem parenthesis_eq_tuple {items : List Tree} {comma : Bool}
    (h : items.length = 1 → comma = true) : parenthesis items comma = .tuple items := by
  unfold parenthesis
  split
  · exact absurd (h rfl) nofun
  · rfl

theorem parenthesis_cases (items : List Tree) (comma : Bool) :
    parenthesis items comma ∈ items ∨ parenthesis items comma = .tuple items := by
  unfold parenthesis
  split
  · exact .inl (List.mem_singleton_self _)
  · exact .inr rfl

/-- Phrases with a comma between them, perhaps none. -/
def Commas {α : Type} (R : α → List Token → Prop) (as : List α) (ts : List Token) : Prop :=
  as = [] ∧ ts = [] ∨ Series (.symbol ",") R as ts

/-- A phrase for a tree behind the tokens of what stands with it. -/
inductive Behind {α : Type} (lead : α → List Token) (R : Tree → List Token → Prop) :
    α × Tree → List Token → Prop
  | mk (a : α) {t : Tree} {ts : List Token} : R t ts → Behind lead R (a, t) (lead a ++ ts)

def Nameable (args : List (Passing × Tree)) : Prop :=
  ∀ name t, (Passing.keyword name, t) ∈ args → IsName name

structure Compositional (M : Tree → List Token → Prop) : Prop where
  ident {name : String} : IsName name → M (.ident name) [.word name]
  literal {l : Literal} {ts : List Token} : LiteralPhrase l ts → M (.literal l) ts
  group {t : Tree} {ts : List Token} : M t ts → M t (.symbol "(" :: (ts ++ [.symbol ")"]))
  tuple {items : List Tree} {ts : List Token} (comma : Bool) : Commas M items ts →
    M (.tuple items) (.symbol "(" :: (ts ++ (commaIf comma ++ [.symbol ")"])))
  list {items : List Tree} {ts : List Token} (comma : Bool) : Commas M items ts →
    M (.list items) (.symbol "[" :: (ts ++ (commaIf comma ++ [.symbol "]"])))
  attr {base : Tree} {name : String} {ts : List Token} : M base ts → IsName name →
    M (.attr base name) (ts ++ [.symbol ".", .word name])
  call {callee : Tree} {args : List (Passing × Tree)} {ts us : List Token} (comma : Bool) :
    M callee ts → Commas (Behind Passing.tokens M) args us → Nameable args →
    M (.call callee args) (ts ++ .symbol "(" :: (us ++ (commaIf comma ++ [.symbol ")"])))
  compare {left : Tree} {steps : List (Relation × Tree)} {ts us : List Token} : M left ts →
    Repeats (Behind relationTokens M) steps us → steps ≠ [] → M (.compare left steps) (ts ++ us)
  not {t : Tree} {ts : List Token} : M t ts → M (.not t) (.word "not" :: ts)
  chain {c : Connective} {operands : List Tree} {ts : List Token} :
    Series (connectiveToken c) M operands ts → 2 ≤ operands.length → M (.chain c operands) ts

section

variable {α : Type} {R S : α → List Token → Prop} {s : Token}

theorem Led.mono (h : ∀ a ts, R a ts → S a ts) {a : α} {ts : List Token} (hled : Led s R a ts) :
    Led s S a ts := by
  cases hled with
  | mk hR => exact .mk (h _ _ hR)

theorem Repeats.mono (h : ∀ a ts, R a ts → S a ts) {as : List α} {ts : List Token}
    (hrep : Repeats R as ts) : Repeats S as ts := by
  induction hrep with
  | nil => exact .nil
  | cons hR _ ih => exact .cons (h _ _ hR) ih

theorem Series.mono (h : ∀ a ts, R a ts → S a ts) {as : List α} {ts : List Token}
    (hseries : Series s R as ts) : Series s S as ts := by
  cases hseries with
  | mk hR hmore => exact .mk (h _ _ hR) (hmore.mono fun _ _ => Led.mono h)

theorem series_singleton {a : α} {ts : List Token} : Series s R [a] ts ↔ R a ts := by
  constructor
  · intro h
    cases h with
    | mk hR hmore =>
      cases hmore
      rwa [List.append_nil]
  · intro h
    have hseries : Series s R [a] (ts ++ []) := .mk h .nil
    rwa [List.append_nil] at hseries

theorem repeats_flatMap {f : α → List Token} {as : List α} (h : ∀ a ∈ as, R a (f a)) :
    Repeats R as (as.flatMap f) := by
  induction as with
  | nil => exact .nil
  | cons a as ih =>
    obtain ⟨ha, has⟩ := List.forall_mem_cons.1 h
    exact .cons ha (ih has)

/-- What follows from each phrase follows for every member. -/
theorem Repeats.forall {p : α → Prop} (h : ∀ a ts, R a ts → p a) {as : List α} {ts : List Token}
    (hrep : Repeats R as ts) : ∀ a ∈ as, p a := by
  induction hrep with
  | nil => simp
  | cons hR _ ih => simpa using ⟨h _ _ hR, ih⟩

theorem Series.forall {p : α → Prop} (h : ∀ a ts, R a ts → p a) {as : List α} {ts : List Token}
    (hseries : Series s R as ts) : ∀ a ∈ as, p a := by
  cases hseries with
  | mk hR hmore =>
    have hled : ∀ a ts, Led s R a ts → p a := by
      rintro _ _ ⟨hR⟩
      exact h _ _ hR
    simpa using ⟨h _ _ hR, hmore.forall hled⟩

end

section

variable {P : Phrases} {p : Tree → Prop}

theorem Items.forall (h : ∀ t ts, P.item t ts → p t) {items : List Tree} {ts : List Token}
    (hitems : Items P items ts) : ∀ t ∈ items, p t := by
  cases hitems with
  | none => simp
  | some hseries => exact hseries.forall h

theorem Arguments.forall (h : ∀ t ts, P.item t ts → p t) {args : List (Passing × Tree)}
    {ts : List Token} (hargs : Arguments P args ts) : ∀ t ∈ args.map Prod.snd, p t := by
  have hvalue (arg : Passing × Tree) (us : List Token) (harg : Argument P arg us) : p arg.2 := by
    cases harg with
    | positional hitem | keyword _ hitem | starred hitem | doubleStarred hitem =>
      exact h _ _ hitem
  cases hargs with
  | none => simp
  | some _ hseries =>
    rw [List.forall_mem_map]
    exact hseries.forall hvalue

end

section

variable {P : Phrases} {M : Tree → List Token → Prop} {t : Tree} {ts : List Token}

theorem Argument.behind (hitem : ∀ t ts, P.item t ts → M t ts) {arg : Passing × Tree}
    (h : Argument P arg ts) : Behind Passing.tokens M arg ts := by
  cases h with
  | positional h => exact .mk Passing.positional (hitem _ _ h)
  | @keyword name _ _ _ h => exact .mk (Passing.keyword name) (hitem _ _ h)
  | starred h => exact .mk Passing.starred (hitem _ _ h)
  | doubleStarred h => exact .mk Passing.doubleStarred (hitem _ _ h)

theorem Argument.nameable (arg : Passing × Tree) (ts : List Token) (h : Argument P arg ts) :
    ∀ name, arg.1 = .keyword name → IsName name := by
  cases h with
  | keyword hname _ =>
    rintro _ ⟨⟩
    exact hname
  | _ => rintro _ ⟨⟩

variable (hM : Compositional M) (hitem : ∀ t ts, P.item t ts → M t ts)

include hM hitem

theorem Compositional.primary (h : Primary P t ts) : M t ts := by
  have hcommas {items : List Tree} {us : List Token} (h : Series (.symbol ",") P.item items us) :
      Commas M items us := .inr (h.mono hitem)
  cases h with
  | ident hname => exact hM.ident hname
  | literal hl => exact hM.literal hl
  | emptyList => exact hM.list false (.inl ⟨rfl, rfl⟩)
  | list comma h => exact hM.list comma (hcommas h)
  | parentheses comma h =>
    cases h with
    | none => exact hM.tuple comma (.inl ⟨rfl, rfl⟩)
    | some h =>
      cases comma with
      | true =>
        rw [parenthesis_eq_tuple fun _ => rfl]
        exact hM.tuple true (hcommas h)
      | false =>
        unfold parenthesis
        split
        · -- one item without a comma is the item itself
          exact hM.group (hitem _ _ (series_singleton.1 h))
        · exact hM.tuple false (hcommas h)

theorem Compositional.operand (h : Operand P t ts) : M t ts := by
  induction h with
  | primary h => exact hM.primary hitem h
  | attr _ hname ih => exact hM.attr ih hname
  | call _ hargs ih =>
    cases hargs with
    | none => exact hM.call false ih (.inl ⟨rfl, rfl⟩) (by simp [Nameable])
    | some comma h =>
      have hname := h.forall Argument.nameable
      rw [List.append_assoc]
      exact hM.call comma ih (.inr (h.mono fun _ _ => Argument.behind hitem))
        fun name t harg => hname _ harg name rfl

variable (hnegand : ∀ t ts, P.negand t ts → M t ts)

include hnegand

theorem Compositional.negation (h : Negation P t ts) : M t ts := by
  cases h with
  | not h => exact hM.not (hnegand _ _ h)
  | comparison h =>
    cases h with
    | operand h => exact hM.operand hitem h
    | compare h hsteps =>
      have hbehind : ∀ step us, Step P step us → Behind relationTokens M step us := by
        rintro _ _ ⟨relation, h⟩
        exact .mk relation (hM.operand hitem h)
      exact hM.compare (hM.operand hitem h) (hsteps.mono hbehind) (by simp)

omit hitem hnegand in
theorem Compositional.chainPhrase {c : Connective} {R : Tree → List Token → Prop}
    (hR : ∀ t ts, R t ts → M t ts) (h : ChainPhrase c R t ts) : M t ts := by
  cases h with
  | single h => exact hR _ _ h
  | chain h hmore =>
    exact hM.chain (Series.mono hR (.mk h hmore)) (by simp)

theorem Compositional.disjunction (h : Disjunction P t ts) : M t ts :=
  hM.chainPhrase (fun _ _ => hM.chainPhrase fun _ _ => hM.negation hitem hnegand) h

end

section

variable {P : Phrases} {t : Tree} {ts : List Token}

theorem Operand.negation (h : Operand P t ts) : Negation P t ts := .comparison (.operand h)

theorem Negation.disjunction (h : Negation P t ts) : Disjunction P t ts := .single (.single h)

theorem Operand.disjunction (h : Operand P t ts) : Disjunction P t ts := h.negation.disjunction

theorem ChainPhrase.of_series {c : Connective} {R : Tree → List Token → Prop}
    {operands : List Tree} (h : Series (connectiveToken c) R operands ts)
    (hlen : 2 ≤ operands.length) : ChainPhrase c R (.chain c operands) ts := by
  cases h with
  | mk hR hmore =>
    cases hmore with
    | nil => simp at hlen
    | cons hled hmore => exact .chain hR (.cons hled hmore)

/-- A chain of negations is a chain of either kind. -/
theorem Disjunction.of_series {c : Connective} {operands : List Tree}
    (h : Series (connectiveToken c) (Negation P) operands ts) (hlen : 2 ≤ operands.length) :
    Disjunction P (.chain c operands) ts := by
  cases c with
  | and => exact ChainPhrase.single (ChainPhrase.of_series h hlen)
  | or => exact ChainPhrase.of_series (h.mono fun _ _ h => ChainPhrase.single h) hlen

theorem Primary.group (h : P.item t ts) : Primary P t (.symbol "(" :: (ts ++ [.symbol ")"])) :=
  .parentheses false (.some (series_singleton.2 h))

theorem Operand.group (h : P.item t ts) : Operand P t (.symbol "(" :: (ts ++ [.symbol ")"])) :=
  .primary (.group h)

end

/-- A compositional relation holds of every sentence, whatever levels are left. -/
theorem Compositional.sentences {M : Tree → List Token → Prop} (hM : Compositional M)
    (depth : Nat) : (∀ t ts, (phrases depth).item t ts → M t ts) ∧
      ∀ t ts, (phrases depth).negand t ts → M t ts := by
  induction depth with
  | zero => exact ⟨fun _ _ => False.elim, fun _ _ => False.elim⟩
  | succ depth ih =>
    exact ⟨fun _ _ => hM.disjunction ih.1 ih.2, fun _ _ => hM.negation ih.1 ih.2⟩

end Grammar

end RowFilter
