import Mathlib.Data.List.Basic
import RowFilter.Proofs.Grammar.Compositional

/-! Brackets in sentences. Every phrase is flat: its brackets are balanced and each comma
stands between some. So the end of a group, and the bracket before the arguments of a call,
can be told from the tokens alone. -/

namespace RowFilter.Grammar

inductive Bracketing where
  | opens
  | closes
  | separates
  | inert
  deriving DecidableEq

def Token.bracketing : Token → Bracketing
  | .symbol s =>
    if s = "(" ∨ s = "[" then .opens
    else if s = ")" ∨ s = "]" then .closes
    else if s = "," then .separates
    else .inert
  | _ => .inert

/-- How many brackets are open behind a token, given how many are before it. Nothing closes
where none is open, and there may be no comma either. -/
def Token.nesting (commas : Bool) (depth : Nat) (t : Token) : Option Nat :=
  match t.bracketing, depth with
  | .opens, depth => some (depth + 1)
  | .closes, 0 => none
  | .closes, depth + 1 => some depth
  | .separates, 0 => if commas then some 0 else none
  | .separates, depth + 1 => some (depth + 1)
  | .inert, depth => some depth

def nesting (commas : Bool) (depth : Nat) (ts : List Token) : Option Nat :=
  ts.foldlM (Token.nesting commas) depth

def Balanced (ts : List Token) : Prop := nesting true 0 ts = some 0

/-- The tokens are balanced, and no comma stands outside all brackets. -/
structure Flat (ts : List Token) : Prop where
  nonempty : ts ≠ []
  nesting : nesting false 0 ts = some 0

variable {commas : Bool} {d e n : Nat} {t : Token} {ts us xs xs' r : List Token}

theorem nesting_append :
    nesting commas d (ts ++ us) = (nesting commas d ts).bind fun e => nesting commas e us :=
  List.foldlM_append

theorem nesting_cons :
    nesting commas d (t :: ts) = (t.nesting commas d).bind fun e => nesting commas e ts :=
  List.foldlM_cons

theorem Token.nesting_add (h : t.nesting commas d = some e) :
    t.nesting commas (d + n) = some (e + n) := by
  unfold Token.nesting at h ⊢
  cases ht : t.bracketing <;> rw [ht] at h
  · cases h
    simp only [Nat.add_right_comm]
  · cases d with
    | zero => cases h
    | succ d =>
      cases h
      simp only [Nat.add_right_comm]
  · cases d with
    | zero =>
      cases commas with
      | false => cases h
      | true =>
        cases h
        cases n <;> simp
    | succ d =>
      cases h
      simp only [Nat.add_right_comm]
  · cases h
    rfl

theorem Token.nesting_commas (h : t.nesting false d = some e) : t.nesting true d = some e := by
  unfold Token.nesting at h ⊢
  split at h <;> simp_all

/-- Around more brackets nothing changes within. -/
theorem nesting_add (h : nesting commas d ts = some e) : nesting commas (d + n) ts = some (e + n) := by
  induction ts generalizing d with
  | nil =>
    cases h
    rfl
  | cons t ts ih =>
    rw [nesting_cons, Option.bind_eq_some_iff] at h
    obtain ⟨mid, ht, hts⟩ := h
    rw [nesting_cons, Token.nesting_add ht, Option.bind_some, ih hts]

theorem nesting_commas (h : nesting false d ts = some e) : nesting true d ts = some e := by
  induction ts generalizing d with
  | nil => exact h
  | cons t ts ih =>
    rw [nesting_cons, Option.bind_eq_some_iff] at h
    obtain ⟨mid, ht, hts⟩ := h
    rw [nesting_cons, Token.nesting_commas ht, Option.bind_some, ih hts]

theorem Flat.balanced (h : Flat ts) : Balanced ts := nesting_commas h.nesting

theorem Flat.within (h : Flat ts) (d : Nat) : Grammar.nesting false d ts = some d := by
  have := nesting_add (n := d) h.nesting
  rwa [Nat.zero_add] at this

/-- Tokens that are no brackets and no commas. -/
def Inert (ts : List Token) : Prop := ∀ t ∈ ts, t.bracketing = .inert

theorem Inert.nesting (h : Inert ts) : Grammar.nesting false d ts = some d := by
  induction ts with
  | nil => rfl
  | cons t ts ih =>
    obtain ⟨ht, hts⟩ := List.forall_mem_cons.1 h
    simpa [nesting_cons, Token.nesting, ht] using ih hts

theorem nesting_lead (h : Inert ts) (hus : nesting false d us = some e) :
    nesting false d (ts ++ us) = some e := by
  rw [nesting_append, h.nesting, Option.bind_some, hus]

section

variable {α : Type} {R : α → List Token → Prop} {as : List α}

theorem Repeats.nesting (h : ∀ a us, R a us → Grammar.nesting commas d us = some d)
    (hrep : Repeats R as ts) : Grammar.nesting commas d ts = some d := by
  induction hrep with
  | nil => rfl
  | cons hR _ ih => rw [nesting_append, h _ _ hR, Option.bind_some, ih]

theorem Series.nesting (ht : t.nesting commas d = some d)
    (h : ∀ a us, R a us → Grammar.nesting commas d us = some d) (hseries : Series t R as ts) :
    Grammar.nesting commas d ts = some d := by
  cases hseries with
  | mk hR hmore =>
    have hled : ∀ a us, Led t R a us → Grammar.nesting commas d us = some d := by
      rintro _ _ ⟨hR⟩
      rw [nesting_cons, ht, Option.bind_some, h _ _ hR]
    rw [nesting_append, h _ _ hR, Option.bind_some, hmore.nesting hled]

/-- Where commas may stand, a list of phrases leaves the brackets as they are. -/
theorem Commas.nesting (hcomma : (Token.symbol ",").nesting commas d = some d)
    (h : ∀ a us, R a us → Grammar.nesting commas d us = some d) (hcommas : Commas R as ts)
    (comma : Bool) : Grammar.nesting commas d (ts ++ commaIf comma) = some d := by
  have hlast : Grammar.nesting commas d (commaIf comma) = some d := by
    cases comma with
    | false => rfl
    | true => simp [commaIf, Grammar.nesting, hcomma]
  rw [nesting_append]
  rcases hcommas with ⟨-, rfl⟩ | hseries
  · exact hlast
  · rw [hseries.nesting hcomma h, Option.bind_some, hlast]

end

theorem Behind.nesting {α : Type} {lead : α → List Token} {R : Tree → List Token → Prop}
    {a : α × Tree} (hlead : ∀ a, Inert (lead a)) (hR : ∀ t ts, R t ts → Flat ts)
    (h : Behind lead R a ts) (d : Nat) : Grammar.nesting false d ts = some d := by
  cases h with
  | mk a h => exact nesting_lead (hlead a) ((hR _ _ h).within d)

theorem inert_relationTokens (r : Relation) : Inert (relationTokens r) := by
  cases r <;> simp [relationTokens, Inert, Token.bracketing]

theorem inert_passing (p : Passing) : Inert p.tokens := by
  cases p <;> simp [Passing.tokens, Inert, Token.bracketing]

theorem inert_connective (c : Connective) : (connectiveToken c).bracketing = .inert := by
  cases c <;> rfl

theorem LiteralPhrase.inert {l : Literal} (h : LiteralPhrase l ts) : Inert ts := by
  cases h <;> simp [Inert, Token.bracketing]

theorem Flat.of_inert (h : Inert ts) (hne : ts ≠ []) : Flat ts := ⟨hne, h.nesting⟩

theorem Flat.append (hts : Flat ts) (hus : Grammar.nesting false 0 us = some 0) :
    Flat (ts ++ us) :=
  ⟨by simp [hts.nonempty], by rw [nesting_append, hts.nesting, Option.bind_some, hus]⟩

theorem Flat.enclosed {u : Token} (ht : t.bracketing = .opens) (hu : u.bracketing = .closes)
    (h : Grammar.nesting false 1 ts = some 1) : Flat (t :: (ts ++ [u])) := by
  refine ⟨by simp, ?_⟩
  have hopen : t.nesting false 0 = some 1 := by simp [Token.nesting, ht]
  have hclose : Grammar.nesting false 1 [u] = some 0 := by
    simp [Token.nesting, hu, Grammar.nesting]
  rw [nesting_cons, hopen, Option.bind_some, nesting_append, h, Option.bind_some, hclose]

theorem LiteralPhrase.ne_nil {l : Literal} (h : LiteralPhrase l ts) : ts ≠ [] := by
  cases h <;> simp

theorem compositional_flat : Compositional fun _ ts => Flat ts where
  ident _ := .of_inert (by simp [Inert, Token.bracketing]) (by simp)
  literal h := .of_inert h.inert h.ne_nil
  group h := .enclosed rfl rfl (h.within 1)
  tuple comma h := by
    rw [← List.append_assoc]
    exact .enclosed rfl rfl (h.nesting rfl (fun _ _ h => h.within 1) comma)
  list comma h := by
    rw [← List.append_assoc]
    exact .enclosed rfl rfl (h.nesting rfl (fun _ _ h => h.within 1) comma)
  attr h _ := h.append rfl
  call comma h hargs _ := by
    have hwithin := hargs.nesting rfl (fun _ _ h => h.nesting inert_passing (fun _ _ h => h) 1) comma
    rw [← List.append_assoc]
    exact h.append (Flat.enclosed rfl rfl hwithin).nesting
  compare h hsteps _ :=
    h.append (hsteps.nesting fun _ _ h => h.nesting inert_relationTokens (fun _ _ h => h) 0)
  not h := by
    have hinert : Inert [.word "not"] := by simp [Inert, Token.bracketing]
    exact ⟨by simp, nesting_lead hinert h.nesting⟩
  chain {c _ _} h _ := by
    refine ⟨?_, h.nesting ?_ fun _ _ h => h.nesting⟩
    · cases h with
      | mk h _ => simp [h.nonempty]
    · simp [Token.nesting, inert_connective c]

/-- Neither a comma nor a closing bracket goes on with a flat text. -/
theorem Flat.not_stop (hts : Flat ts) (ht : t.nesting false 0 = none) : ¬ Flat (ts ++ t :: us) := by
  intro h
  have hnone := h.nesting
  rw [nesting_append, hts.nesting, Option.bind_some, nesting_cons, ht] at hnone
  cases hnone

theorem Balanced.not_opens (hus : Balanced us) (ht : t.bracketing = .opens) :
    ¬ Balanced (ts ++ t :: us) := by
  intro h
  rw [Balanced, nesting_append, Option.bind_eq_some_iff] at h
  obtain ⟨e, -, h⟩ := h
  have hopen : t.nesting true e = some (0 + (e + 1)) := by simp [Token.nesting, ht]
  rw [nesting_cons, hopen, Option.bind_some, nesting_add hus] at h
  cases h

/-- Behind the bracket that the last one closes, the text is determined. -/
theorem Balanced.append_inj (hus : Balanced us) (hus' : Balanced ts)
    (h : xs ++ .symbol "(" :: (us ++ r) = xs' ++ .symbol "(" :: (ts ++ r)) :
    xs = xs' ∧ us = ts := by
  have hsplit : (xs ++ .symbol "(" :: us) ++ r = (xs' ++ .symbol "(" :: ts) ++ r := by
    simpa using h
  rcases List.append_eq_append_iff.1 (List.append_cancel_right hsplit) with
    ⟨as, rfl, hrest⟩ | ⟨bs, rfl, hrest⟩
  · cases as with
    | nil => simpa using hrest
    | cons a as =>
      obtain ⟨-, rfl⟩ := List.cons.inj hrest
      exact absurd hus (hus'.not_opens rfl)
  · cases bs with
    | nil => simpa [eq_comm] using hrest
    | cons b bs =>
      obtain ⟨-, rfl⟩ := List.cons.inj hrest
      exact absurd hus' (hus.not_opens rfl)

/-- A flat text that starts with the bracket of a group is the whole group. -/
theorem Flat.eq_nil_of_group (hxs : Flat xs) (hus : Balanced us)
    (h : xs ++ r = .symbol "(" :: (us ++ [.symbol ")"])) : r = [] := by
  obtain ⟨x, xs, rfl⟩ := List.exists_cons_of_ne_nil hxs.nonempty
  obtain ⟨rfl, hmore⟩ := List.cons.inj h
  rcases List.eq_nil_or_concat r with rfl | ⟨r, last, rfl⟩
  · rfl
  · -- otherwise the group would close its bracket before its end
    have hsplit : (xs ++ r) ++ [last] = us ++ [.symbol ")"] := by simpa using hmore
    obtain ⟨rfl, -⟩ := List.append_inj' hsplit rfl
    rw [Balanced, nesting_append, Option.bind_eq_some_iff] at hus
    obtain ⟨e, hxs', -⟩ := hus
    have hopen : Grammar.nesting true 1 xs = some 0 := hxs.balanced
    rw [show 1 = 0 + 1 from rfl, nesting_add hxs'] at hopen
    cases hopen

end RowFilter.Grammar
