import RowFilter.Grammar.Condition
import RowFilter.Proofs.Grammar.Token

/-! The grammar as a relation between trees and tokens. It names what a text may say, not
how it is read. What stands one level deeper is a parameter of the rules, as it is for the
readers; `phrases` has the sub-expressions where a number of levels is left. -/

namespace RowFilter.Grammar

/-- The sub-expressions one level deeper, and whether there is such a level at all. -/
structure Phrases where
  item : Tree → List Token → Prop
  negand : Tree → List Token → Prop
  opened : Prop

variable {α : Type}

/-- Phrases one behind the other. -/
inductive Repeats (R : α → List Token → Prop) : List α → List Token → Prop
  | nil : Repeats R [] []
  | cons {a : α} {as : List α} {ts us : List Token} :
    R a ts → Repeats R as us → Repeats R (a :: as) (ts ++ us)

/-- A phrase behind a token. -/
inductive Led (t : Token) (R : α → List Token → Prop) : α → List Token → Prop
  | mk {a : α} {ts : List Token} : R a ts → Led t R a (t :: ts)

/-- One or more phrases with a token between them. -/
inductive Series (t : Token) (R : α → List Token → Prop) : List α → List Token → Prop
  | mk {a : α} {as : List α} {ts us : List Token} :
    R a ts → Repeats (Led t R) as us → Series t R (a :: as) (ts ++ us)

/-- A comma or none. -/
def commaIf : Bool → List Token
  | true => [.symbol ","]
  | false => []

/-- A sign stands before a numeral as a symbol of its own. -/
inductive LiteralPhrase : Literal → List Token → Prop
  | true : LiteralPhrase (.bool true) [.word "True"]
  | false : LiteralPhrase (.bool false) [.word "False"]
  | none : LiteralPhrase .none [.word "None"]
  | number {n : Numeral} : n.Written → LiteralPhrase (literalOf n) [.number n]
  | negative {n : Numeral} : n.Written →
    LiteralPhrase (literalOf { n with negative := Bool.true }) [.symbol "-", .number n]
  | text (s : String) : LiteralPhrase (.str s) [.text s]

def relationTokens : Relation → List Token
  | .eq => [.symbol "=="]
  | .ne => [.symbol "!="]
  | .lt => [.symbol "<"]
  | .le => [.symbol "<="]
  | .gt => [.symbol ">"]
  | .ge => [.symbol ">="]
  | .isIn => [.word "in"]
  | .notIn => [.word "not", .word "in"]
  | .is => [.word "is"]
  | .isNot => [.word "is", .word "not"]

def connectiveToken : Connective → Token
  | .and => .word "and"
  | .or => .word "or"

/-- One phrase, or a chain of two or more with the connective between them. -/
inductive ChainPhrase (c : Connective) (R : Tree → List Token → Prop) : Tree → List Token → Prop
  | single {t : Tree} {ts : List Token} : R t ts → ChainPhrase c R t ts
  | chain {t u : Tree} {us : List Tree} {ts more : List Token} :
    R t ts → Repeats (Led (connectiveToken c) R) (u :: us) more →
    ChainPhrase c R (.chain c (t :: u :: us)) (ts ++ more)

/-- An operand may start with the token. -/
def Token.starts : Token → Bool
  | .symbol s => s == "(" || s == "[" || s == "-"
  | .word w => !(["and", "or", "not", "in", "is"].contains w)
  | _ => true

section

variable (P : Phrases)

/-- The items between parentheses, perhaps none. -/
inductive Items : List Tree → List Token → Prop
  | none : P.opened → Items [] []
  | some {items : List Tree} {ts : List Token} :
    Series (.symbol ",") P.item items ts → Items items ts

inductive Primary : Tree → List Token → Prop
  | ident {name : String} : IsName name → Primary (.ident name) [.word name]
  | literal {l : Literal} {ts : List Token} : LiteralPhrase l ts → Primary (.literal l) ts
  | parentheses {items : List Tree} {ts : List Token} (comma : Bool) :
    Items P items ts →
    Primary (parenthesis items comma) (.symbol "(" :: (ts ++ (commaIf comma ++ [.symbol ")"])))
  | emptyList : P.opened → Primary (.list []) [.symbol "[", .symbol "]"]
  | list {items : List Tree} {ts : List Token} (comma : Bool) :
    Series (.symbol ",") P.item items ts →
    Primary (.list items) (.symbol "[" :: (ts ++ (commaIf comma ++ [.symbol "]"])))

inductive Argument : Passing × Tree → List Token → Prop
  | positional {t : Tree} {ts : List Token} : P.item t ts → Argument (.positional, t) ts
  | keyword {name : String} {t : Tree} {ts : List Token} : IsName name → P.item t ts →
    Argument (.keyword name, t) (.word name :: .symbol "=" :: ts)
  | starred {t : Tree} {ts : List Token} : P.item t ts →
    Argument (.starred, t) (.symbol "*" :: ts)
  | doubleStarred {t : Tree} {ts : List Token} : P.item t ts →
    Argument (.doubleStarred, t) (.symbol "**" :: ts)

inductive Arguments : List (Passing × Tree) → List Token → Prop
  | none : P.opened → Arguments [] []
  | some {args : List (Passing × Tree)} {ts : List Token} (comma : Bool) :
    Series (.symbol ",") (Argument P) args ts → Arguments args (ts ++ commaIf comma)

inductive Operand : Tree → List Token → Prop
  | primary {t : Tree} {ts : List Token} : Primary P t ts → Operand t ts
  | attr {base : Tree} {name : String} {ts : List Token} : Operand base ts → IsName name →
    Operand (.attr base name) (ts ++ [.symbol ".", .word name])
  | call {callee : Tree} {args : List (Passing × Tree)} {ts us : List Token} :
    Operand callee ts → Arguments P args us →
    Operand (.call callee args) (ts ++ .symbol "(" :: (us ++ [.symbol ")"]))

/-- One step of a comparison: a sign and an operand. -/
inductive Step : Relation × Tree → List Token → Prop
  | mk (relation : Relation) {t : Tree} {ts : List Token} : Operand P t ts →
    Step (relation, t) (relationTokens relation ++ ts)

inductive Comparison : Tree → List Token → Prop
  | operand {t : Tree} {ts : List Token} : Operand P t ts → Comparison t ts
  | compare {left : Tree} {step : Relation × Tree} {steps : List (Relation × Tree)}
    {ts us : List Token} : Operand P left ts → Repeats (Step P) (step :: steps) us →
    Comparison (.compare left (step :: steps)) (ts ++ us)

inductive Negation : Tree → List Token → Prop
  | comparison {t : Tree} {ts : List Token} : Comparison P t ts → Negation t ts
  | not {t : Tree} {ts : List Token} : P.negand t ts → Negation (.not t) (.word "not" :: ts)

def Conjunction : Tree → List Token → Prop := ChainPhrase .and (Negation P)

def Disjunction : Tree → List Token → Prop := ChainPhrase .or (Conjunction P)

end

section

variable {P : Phrases} {t : Tree} {ts : List Token}

/-- The tokens start as an operand does. -/
def StartsOperand (ts : List Token) : Prop := ∃ u us, ts = u :: us ∧ u.starts = true

/-- The tokens start as an operand or a negation does. -/
def Starts (ts : List Token) : Prop := StartsOperand ts ∨ ∃ us, ts = .word "not" :: us

theorem StartsOperand.append {us : List Token} (h : StartsOperand ts) :
    StartsOperand (ts ++ us) := by
  obtain ⟨u, more, rfl, hu⟩ := h
  exact ⟨u, more ++ us, rfl, hu⟩

theorem Starts.append {us : List Token} (h : Starts ts) : Starts (ts ++ us) := by
  rcases h with h | ⟨more, rfl⟩
  · exact .inl h.append
  · exact .inr ⟨more ++ us, rfl⟩

theorem Starts.ne_nil (h : Starts ts) : ts ≠ [] := by
  rcases h with ⟨u, us, rfl, -⟩ | ⟨us, rfl⟩ <;> simp

theorem Primary.starts (h : Primary P t ts) : StartsOperand ts := by
  cases h with
  | literal hl => cases hl <;> exact ⟨_, _, rfl, rfl⟩
  | @ident name hname =>
    refine ⟨_, _, rfl, ?_⟩
    have hreserved : ∀ w ∈ ["and", "or", "not", "in", "is"], w ∈ reserved := by decide
    have hword : name ∉ ["and", "or", "not", "in", "is"] := fun h =>
      hname.notReserved (hreserved _ h)
    simpa [Token.starts] using hword
  | _ => exact ⟨_, _, rfl, rfl⟩

theorem Operand.starts (h : Operand P t ts) : StartsOperand ts := by
  induction h with
  | primary h => exact h.starts
  | attr _ _ ih => exact ih.append
  | call _ _ ih => exact ih.append

theorem Comparison.starts (h : Comparison P t ts) : StartsOperand ts := by
  cases h with
  | operand h => exact h.starts
  | compare h _ => exact h.starts.append

theorem Negation.starts (h : Negation P t ts) : Starts ts := by
  cases h with
  | comparison h => exact .inl h.starts
  | not h => exact .inr ⟨_, rfl⟩

theorem ChainPhrase.starts {c : Connective} {R : Tree → List Token → Prop}
    (hR : ∀ {t ts}, R t ts → Starts ts) (h : ChainPhrase c R t ts) : Starts ts := by
  cases h with
  | single h => exact hR h
  | chain h _ => exact (hR h).append

theorem Disjunction.starts (h : Disjunction P t ts) : Starts ts :=
  ChainPhrase.starts (ChainPhrase.starts Negation.starts) h

/-- The tokens do not start like a keyword argument. -/
def Unnamed (ts : List Token) : Prop := ∀ w more, ts ≠ .word w :: .symbol "=" :: more

theorem StartsOperand.head_ne (h : StartsOperand ts) (more : List Token) :
    ts ≠ .symbol "=" :: more := by
  rintro rfl
  obtain ⟨u, us, ⟨⟩, hu⟩ := h
  exact absurd hu (by decide)

theorem Starts.head_ne (h : Starts ts) (more : List Token) : ts ≠ .symbol "=" :: more := by
  rcases h with h | ⟨us, rfl⟩
  · exact h.head_ne more
  · simp

theorem Unnamed.append {us : List Token} (h : Unnamed ts) (hne : ts ≠ [])
    (hus : ∀ more, us ≠ .symbol "=" :: more) : Unnamed (ts ++ us) := by
  rintro w more heq
  match ts, hne with
  | [t], _ => exact hus more (List.cons.inj heq).2
  | t :: u :: ts, _ =>
    obtain ⟨ht, hrest⟩ := List.cons.inj heq
    obtain ⟨hu, -⟩ := List.cons.inj hrest
    exact h w ts (by rw [ht, hu])

theorem StartsOperand.ne_nil (h : StartsOperand ts) : ts ≠ [] := by
  obtain ⟨u, us, rfl, -⟩ := h
  simp

theorem Primary.unnamed (h : Primary P t ts) : Unnamed ts := by
  intro w more heq
  cases h with
  | literal hl => cases hl <;> cases heq
  | _ => cases heq

theorem Operand.unnamed (h : Operand P t ts) : Unnamed ts := by
  induction h with
  | primary h => exact h.unnamed
  | attr h _ ih => exact ih.append h.starts.ne_nil (by simp)
  | call h _ ih => exact ih.append h.starts.ne_nil (by simp)

theorem Comparison.unnamed (h : Comparison P t ts) : Unnamed ts := by
  cases h with
  | operand h => exact h.unnamed
  | compare h hsteps =>
    refine h.unnamed.append h.starts.ne_nil ?_
    cases hsteps with
    | cons hstep _ =>
      cases hstep with
      | mk r _ => cases r <;> simp [relationTokens]

theorem Negation.unnamed (hnegand : ∀ {t ts}, P.negand t ts → Starts ts)
    (h : Negation P t ts) : Unnamed ts := by
  cases h with
  | comparison h => exact h.unnamed
  | not h =>
    rintro w more heq
    exact (hnegand h).head_ne more (List.cons.inj heq).2

theorem ChainPhrase.unnamed {c : Connective} {R : Tree → List Token → Prop}
    (hstarts : ∀ {t ts}, R t ts → Starts ts) (hR : ∀ {t ts}, R t ts → Unnamed ts)
    (h : ChainPhrase c R t ts) : Unnamed ts := by
  cases h with
  | single h => exact hR h
  | chain h hmore =>
    refine (hR h).append (hstarts h).ne_nil ?_
    cases hmore with
    | cons hled _ =>
      cases hled
      cases c <;> simp [connectiveToken]

theorem Disjunction.unnamed (hnegand : ∀ {t ts}, P.negand t ts → Starts ts)
    (h : Disjunction P t ts) : Unnamed ts :=
  ChainPhrase.unnamed (ChainPhrase.starts Negation.starts)
    (ChainPhrase.unnamed Negation.starts (Negation.unnamed hnegand)) h

end

/-- The sub-expressions where `depth` levels are left. -/
def phrases : Nat → Phrases
  | 0 => ⟨fun _ _ => False, fun _ _ => False, False⟩
  | depth + 1 => ⟨Disjunction (phrases depth), Negation (phrases depth), True⟩

theorem phrases_negand_starts {depth : Nat} {t : Tree} {ts : List Token}
    (h : (phrases depth).negand t ts) : Starts ts := by
  cases depth with
  | zero => exact h.elim
  | succ depth => exact Negation.starts h

theorem phrases_item_unnamed {depth : Nat} {t : Tree} {ts : List Token}
    (h : (phrases depth).item t ts) : Unnamed ts := by
  cases depth with
  | zero => exact h.elim
  | succ depth => exact Disjunction.unnamed phrases_negand_starts h

theorem phrases_item_starts {depth : Nat} {t : Tree} {ts : List Token}
    (h : (phrases depth).item t ts) : Starts ts := by
  cases depth with
  | zero => exact h.elim
  | succ depth => exact Disjunction.starts h

end RowFilter.Grammar
