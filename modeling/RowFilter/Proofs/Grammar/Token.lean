import RowFilter.Proofs.Grammar.Numerals
import RowFilter.Text.Blank

/-! Tokens. The grammar reads characters, but only ever a whole word, numeral, quoted
text or symbol behind a gap, so what it reads is a sequence of tokens. `next?` takes one
token, the longest that comes; `Spells` says that a text spells tokens up to a rest. -/

namespace RowFilter.Grammar

/-- A numeral is without its sign, which is a symbol of its own. -/
inductive Token where
  | word (text : String)
  | number (numeral : Numeral)
  | text (content : String)
  | symbol (text : String)
  deriving DecidableEq

/-- The symbols, the longer ones first. -/
def symbols : List String :=
  ["==", "!=", "<=", ">=", "**", "<", ">", "(", ")", "[", "]", ",", ".", "=", "*", "-"]

def symbol? (cs : List Char) : Option (Token × List Char) :=
  symbols.findSome? fun s => (dropSymbol? s.toList cs).map fun rest => (.symbol s, rest)

/-- The token at the start of a text. -/
def lexeme? (cs : List Char) : Option (Token × List Char) :=
  match word? cs with
  | some (w, rest) => some (.word (String.ofList w), rest)
  | none => match Numeral.unsigned? cs with
    | some (n, rest) => some (.number n, rest)
    | none => match quotedText? cs with
      | some (s, rest) => some (.text s, rest)
      | none => symbol? cs

/-- The token behind a gap. -/
def next? (cs : List Char) : Option (Token × List Char) := lexeme? (skipGap cs)

/-- The text spells the tokens, gaps between them, and the rest stands directly behind
the last one. -/
inductive Spells : List Token → List Char → List Char → Prop
  | nil (cs : List Char) : Spells [] cs cs
  | cons {cs mid rest : List Char} {t : Token} {ts : List Token} :
    next? cs = some (t, mid) → Spells ts mid rest → Spells (t :: ts) cs rest

variable {cs mid rest : List Char} {t : Token} {ts us : List Token} {s w : String}

theorem dropSymbol?_eq_some_iff {symbol : List Char} :
    dropSymbol? symbol cs = some rest ↔ cs = symbol ++ rest := by
  induction symbol generalizing cs with
  | nil => simp [dropSymbol?, eq_comm]
  | cons s symbol ih =>
    cases cs with
    | nil => simp [dropSymbol?]
    | cons c cs =>
      rw [dropSymbol?]
      split
      · rename_i h
        simp [ih, h]
      · rename_i h
        simp [Ne.symm h]

theorem symbol?_eq_some (h : symbol? cs = some (t, rest)) :
    ∃ s ∈ symbols, t = .symbol s ∧ cs = s.toList ++ rest := by
  obtain ⟨s, hs, hd⟩ := List.exists_of_findSome?_eq_some h
  obtain ⟨r, hr, he⟩ := Option.map_eq_some_iff.1 hd
  cases he
  exact ⟨s, hs, rfl, dropSymbol?_eq_some_iff.1 hr⟩

/-- The text behind the symbol turns it into the start of another token. -/
def joins : String → List Char → Bool
  | ".", c :: _ => c.isDigit
  | "*", c :: _ => '*' == c
  | "<", c :: _ => '=' == c
  | ">", c :: _ => '=' == c
  | "=", c :: _ => '=' == c
  | _, _ => false

theorem joins_less (h : joins "<" rest = true) : ∃ more, rest = '=' :: more := by
  cases rest with
  | nil => cases h
  | cons c more => exact ⟨more, by rw [← beq_iff_eq.1 h]⟩

theorem joins_greater (h : joins ">" rest = true) : ∃ more, rest = '=' :: more := by
  cases rest with
  | nil => cases h
  | cons c more => exact ⟨more, by rw [← beq_iff_eq.1 h]⟩

theorem joins_star (h : joins "*" rest = true) : ∃ more, rest = '*' :: more := by
  cases rest with
  | nil => cases h
  | cons c more => exact ⟨more, by rw [← beq_iff_eq.1 h]⟩

theorem lexeme?_symbol (hs : s ∈ symbols) (hj : joins s rest = false) :
    lexeme? (s.toList ++ rest) = some (.symbol s, rest) := by
  simp only [symbols, List.mem_cons, List.not_mem_nil, or_false] at hs
  rcases hs with rfl | rfl | rfl | rfl | rfl | rfl | rfl | rfl | rfl | rfl | rfl | rfl | rfl |
    rfl | rfl | rfl
  all_goals first
    | rfl
    | cases rest with
      | nil => rfl
      | cons c rest =>
        simp only [joins, beq_eq_false_iff_ne, ne_eq] at hj
        simp [lexeme?, word?, isWordStart, Numeral.unsigned?, Numeral.digitsOf,
          Numeral.behindDigits, quotedText?, symbol?, symbols, dropSymbol?, hj]

theorem word?_eq_some {w : List Char} (h : word? cs = some (w, rest)) :
    cs = w ++ rest ∧ (∃ c more, w = c :: more ∧ isWordStart c = true ∧
      ∀ c ∈ more, isWordChar c = true) ∧ EndsWord rest := by
  cases cs with
  | nil => cases h
  | cons c cs =>
    rw [word?] at h
    split at h
    · rename_i hc
      cases h
      refine ⟨by simp, ⟨c, _, rfl, hc, ?_⟩, ?_⟩
      · exact fun c hc => List.all_eq_true.1 List.all_takeWhile c hc
      · intro d more hd
        have hhead := List.head?_dropWhile_not isWordChar cs
        rw [hd] at hhead
        simpa using hhead
    · cases h

/-- A word of letters, digits and underscores that does not start with a digit. -/
def IsWord (w : String) : Prop :=
  ∃ c more, w.toList = c :: more ∧ isWordStart c = true ∧ ∀ d ∈ more, isWordChar d = true

theorem isWord_of_all {w : String} {c : Char} {more : List Char} (h : w.toList = c :: more)
    (hc : isWordStart c = true) (hmore : more.all isWordChar = true) : IsWord w :=
  ⟨c, more, h, hc, List.all_eq_true.1 hmore⟩

/-- A word that may name something. -/
structure IsName (name : String) : Prop where
  word : IsWord name
  notReserved : name ∉ reserved

/-- What is left of a quoted text stands behind the quote that closes it. -/
theorem quotedBody?_suffix {quote : Char} {body : List Char}
    (h : quotedBody? quote cs = some (body, rest)) : quote :: rest <:+ cs := by
  fun_induction quotedBody? quote cs generalizing body with
  | case1 => cases h
  | case2 => cases h
  | case3 c cs ih =>
    obtain ⟨⟨body, _⟩, hr, ⟨⟩⟩ := Option.map_eq_some_iff.1 h
    exact (ih hr).trans ⟨['\\', c], rfl⟩
  | case4 =>
    cases h
    exact List.suffix_refl _
  | case5 c cs _ _ _ ih =>
    obtain ⟨⟨body, _⟩, hr, ⟨⟩⟩ := Option.map_eq_some_iff.1 h
    exact (ih hr).trans (List.suffix_cons c cs)

theorem quotedBody?_length {quote : Char} {body : List Char}
    (h : quotedBody? quote cs = some (body, rest)) : rest.length < cs.length :=
  (quotedBody?_suffix h).length_le

theorem quotedText?_length {s : String} (h : quotedText? cs = some (s, rest)) :
    rest.length < cs.length := by
  unfold quotedText? at h
  split at h
  all_goals try cases h
  all_goals
    obtain ⟨⟨body, r⟩, hr, he⟩ := Option.map_eq_some_iff.1 h
    cases he
    have := quotedBody?_length hr
    simp only [List.length_cons]
    omega

/-- A token is a word, a numeral, a quoted text or a symbol. -/
theorem lexeme?_eq_some (h : lexeme? cs = some (t, rest)) :
    (∃ w, t = .word (String.ofList w) ∧ word? cs = some (w, rest)) ∨
      (∃ n, t = .number n ∧ Numeral.unsigned? cs = some (n, rest)) ∨
      (∃ s, t = .text s ∧ quotedText? cs = some (s, rest)) ∨
      ∃ s ∈ symbols, t = .symbol s ∧ cs = s.toList ++ rest := by
  unfold lexeme? at h
  split at h
  · rename_i hw
    cases h
    exact .inl ⟨_, rfl, hw⟩
  · split at h
    · rename_i hn
      cases h
      exact .inr (.inl ⟨_, rfl, hn⟩)
    · split at h
      · rename_i hs
        cases h
        exact .inr (.inr (.inl ⟨_, rfl, hs⟩))
      · exact .inr (.inr (.inr (symbol?_eq_some h)))

theorem lexeme?_length (h : lexeme? cs = some (t, rest)) : rest.length < cs.length := by
  rcases lexeme?_eq_some h with ⟨w, -, hw⟩ | ⟨n, -, hn⟩ | ⟨s, -, hs⟩ | ⟨s, hs, -, rfl⟩
  · obtain ⟨rfl, ⟨c, more, rfl, -, -⟩, -⟩ := word?_eq_some hw
    simp only [List.cons_append, List.length_cons, List.length_append]
    omega
  · obtain ⟨rfl, hw⟩ := Numeral.unsigned?_eq_some hn
    obtain ⟨c, more, hc, -⟩ := hw.head
    simp only [hc, List.length_append, List.length_cons]
    omega
  · exact quotedText?_length hs
  · have hpos : ∀ s ∈ symbols, 0 < s.toList.length := by decide
    have := hpos s hs
    simp only [List.length_append]
    omega

theorem word?_eq_none {c : Char} (hc : isWordStart c = false) : word? (c :: cs) = none := by
  simp [word?, hc]

theorem isWordStart_iff_toNat {c : Char} : isWordStart c = true ↔
    65 ≤ c.toNat ∧ c.toNat ≤ 90 ∨ 97 ≤ c.toNat ∧ c.toNat ≤ 122 ∨ c.toNat = 95 := by
  have halpha : c.isAlpha = true ↔
      65 ≤ c.toNat ∧ c.toNat ≤ 90 ∨ 97 ≤ c.toNat ∧ c.toNat ≤ 122 := by
    change (decide (65 ≤ c.toNat ∧ c.toNat ≤ 90) ||
      (decide (97 ≤ c.toNat) && decide (c.toNat ≤ 122))) = true ↔ _
    simp
  have hunder : c = '_' ↔ c.toNat = 95 := Char.toNat_inj.symm
  rw [isWordStart, Bool.or_eq_true, halpha, beq_iff_eq, hunder, or_assoc]

theorem isWordStart_eq_false_of_isDigit {c : Char} (h : c.isDigit = true) :
    isWordStart c = false := by
  rw [Char.isDigit_iff_toNat] at h
  change 48 ≤ c.toNat ∧ c.toNat ≤ 57 at h
  rw [← Bool.not_eq_true, isWordStart_iff_toNat]
  omega

theorem isBlank_eq_false_of_isWordStart {c : Char} (h : isWordStart c = true) :
    Text.isBlank c = false := by
  rw [isWordStart_iff_toNat] at h
  simp only [Text.isBlank, Bool.or_eq_false_iff, Bool.and_eq_false_iff, decide_eq_false_iff_not,
    beq_eq_false_iff_ne]
  omega

theorem isBlank_eq_false_of_isDigit {c : Char} (h : c.isDigit = true) :
    Text.isBlank c = false := by
  rw [Char.isDigit_iff_toNat] at h
  change 48 ≤ c.toNat ∧ c.toNat ≤ 57 at h
  simp only [Text.isBlank, Bool.or_eq_false_iff, Bool.and_eq_false_iff, decide_eq_false_iff_not,
    beq_eq_false_iff_ne]
  omega

/-- No token starts with a blank. -/
theorem isBlank_eq_false_of_lexeme? {c : Char} (h : lexeme? (c :: cs) = some (t, rest)) :
    Text.isBlank c = false := by
  rcases lexeme?_eq_some h with ⟨w, -, hw⟩ | ⟨n, -, hn⟩ | ⟨s, -, hs⟩ | ⟨s, hs, -, hcs⟩
  · obtain ⟨hcs, ⟨d, more, rfl, hd, -⟩, -⟩ := word?_eq_some hw
    cases hcs
    exact isBlank_eq_false_of_isWordStart hd
  · obtain ⟨hcs, hn⟩ := Numeral.unsigned?_eq_some hn
    obtain ⟨d, more, hd, hclass⟩ := hn.head
    rw [hd] at hcs
    cases hcs
    rcases hclass with hclass | rfl
    · exact isBlank_eq_false_of_isDigit hclass
    · rfl
  · unfold quotedText? at hs
    split at hs
    all_goals first | cases hs | skip
    all_goals
      rename_i hquote
      cases hquote
      rfl
  · have hfirst : ∀ s ∈ symbols, ∃ d more, s.toList = d :: more ∧ Text.isBlank d = false := by
      intro s hs
      simp only [symbols, List.mem_cons, List.not_mem_nil, or_false] at hs
      rcases hs with rfl | rfl | rfl | rfl | rfl | rfl | rfl | rfl | rfl | rfl | rfl | rfl |
        rfl | rfl | rfl | rfl <;> exact ⟨_, _, rfl, rfl⟩
    obtain ⟨d, more, hd, hblank⟩ := hfirst s hs
    rw [hd] at hcs
    cases hcs
    exact hblank

theorem isBlank_of_isGap {c : Char} (h : isGap c = true) : Text.isBlank c = true := by
  simp only [isGap, Bool.or_eq_true, beq_iff_eq] at h
  rcases h with ((rfl | rfl) | rfl) | rfl <;> rfl

theorem isGap_eq_false {c : Char} (h : Text.isBlank c = false) : isGap c = false := by
  rw [← Bool.not_eq_true]
  intro hgap
  rw [isBlank_of_isGap hgap] at h
  cases h

theorem skipGap_of_lexeme? (h : lexeme? cs = some (t, rest)) : skipGap cs = cs := by
  cases cs with
  | nil => rfl
  | cons c cs => simp [skipGap, isGap_eq_false (isBlank_eq_false_of_lexeme? h)]

theorem skipGap_skipGap (cs : List Char) : skipGap (skipGap cs) = skipGap cs := by
  induction cs with
  | nil => rfl
  | cons c cs ih => cases h : isGap c <;> simp_all [skipGap]

theorem next?_of_lexeme? (h : lexeme? cs = some (t, rest)) : next? cs = some (t, rest) := by
  rw [next?, skipGap_of_lexeme? h, h]

@[simp]
theorem next?_skipGap (cs : List Char) : next? (skipGap cs) = next? cs := by
  rw [next?, skipGap_skipGap, next?]

theorem word?_eq_some_iff {w : List Char} :
    word? cs = some (w, rest) ↔ lexeme? cs = some (.word (String.ofList w), rest) := by
  constructor
  · intro h
    rw [lexeme?, h]
  · intro h
    rcases lexeme?_eq_some h with ⟨w', ht, hw⟩ | ⟨n, ht, -⟩ | ⟨s, ht, -⟩ | ⟨s, -, ht, -⟩
    · rw [String.ofList_injective (Token.word.inj ht), hw]
    all_goals cases ht

theorem unsigned?_eq_some_iff {n : Numeral} :
    Numeral.unsigned? cs = some (n, rest) ↔ lexeme? cs = some (.number n, rest) := by
  constructor
  · intro h
    have hword : word? cs = none := by
      obtain ⟨rfl, hn⟩ := Numeral.unsigned?_eq_some h
      obtain ⟨c, more, hc, hclass⟩ := hn.head
      rw [hc]
      apply word?_eq_none
      rcases hclass with hclass | rfl
      · exact isWordStart_eq_false_of_isDigit hclass
      · rfl
    rw [lexeme?, hword, h]
  · intro h
    rcases lexeme?_eq_some h with ⟨w, ht, -⟩ | ⟨n, ht, hn⟩ | ⟨s, ht, -⟩ | ⟨s, -, ht, -⟩ <;> cases ht
    exact hn

theorem written_of_lexeme? {n : Numeral} (h : lexeme? cs = some (.number n, rest)) :
    n.Written := (Numeral.unsigned?_eq_some (unsigned?_eq_some_iff.2 h)).2

theorem quotedText?_eq_some_iff {s : String} :
    quotedText? cs = some (s, rest) ↔ lexeme? cs = some (.text s, rest) := by
  constructor
  · intro h
    have hother : word? cs = none ∧ Numeral.unsigned? cs = none := by
      unfold quotedText? at h
      split at h
      · exact ⟨rfl, rfl⟩
      · exact ⟨rfl, rfl⟩
      · cases h
    rw [lexeme?, hother.1, hother.2, h]
  · intro h
    rcases lexeme?_eq_some h with ⟨w, ht, -⟩ | ⟨n, ht, -⟩ | ⟨s, ht, hs⟩ | ⟨s, -, ht, -⟩ <;> cases ht
    exact hs

theorem dropSymbol?_of_lexeme? (h : lexeme? cs = some (.symbol s, rest)) :
    dropSymbol? s.toList cs = some rest := by
  rcases lexeme?_eq_some h with ⟨w, ht, -⟩ | ⟨n, ht, -⟩ | ⟨s, ht, -⟩ | ⟨s, -, ht, hcs⟩ <;> cases ht
  exact dropSymbol?_eq_some_iff.2 hcs

theorem lexeme?_of_dropSymbol? (hs : s ∈ symbols) (h : dropSymbol? s.toList cs = some rest)
    (hj : joins s rest = false) : lexeme? cs = some (.symbol s, rest) := by
  rw [dropSymbol?_eq_some_iff.1 h]
  exact lexeme?_symbol hs hj

theorem dropWord?_eq_some_iff {w : String} :
    dropWord? w cs = some rest ↔ lexeme? cs = some (.word w, rest) := by
  unfold dropWord?
  constructor
  · intro h
    split at h
    · rename_i hw
      split at h
      · rename_i he
        cases h
        rw [← he]
        exact word?_eq_some_iff.1 hw
      · cases h
    · cases h
  · intro h
    rw [← String.ofList_toList (s := w)] at h
    rw [word?_eq_some_iff.2 h]
    simp

theorem isWord_of_lexeme? {w : String} (h : lexeme? cs = some (.word w, rest)) : IsWord w := by
  rw [← String.ofList_toList (s := w), ← word?_eq_some_iff] at h
  obtain ⟨c, more, hw, hc, hmore⟩ := (word?_eq_some h).2.1
  exact ⟨c, more, hw, hc, hmore⟩

theorem name?_eq_some_iff {name : String} :
    name? cs = some (name, rest) ↔ lexeme? cs = some (.word name, rest) ∧ name ∉ reserved := by
  unfold name?
  constructor
  · intro h
    split at h
    · rename_i hw
      split at h
      · cases h
      · rename_i hr
        cases h
        exact ⟨word?_eq_some_iff.1 hw, by simpa using hr⟩
    · cases h
  · intro hword
    obtain ⟨h, hr⟩ := hword
    rw [← String.ofList_toList (s := name)] at h
    rw [word?_eq_some_iff.2 h]
    simpa using hr

/-- A point before a name is no part of a numeral. -/
theorem not_joins_point (h : next? cs = some (.word w, rest)) : joins "." cs = false := by
  cases cs with
  | nil => rfl
  | cons c cs =>
    change c.isDigit = false
    rw [← Bool.not_eq_true]
    intro hdigit
    have hgap : isGap c = false := isGap_eq_false (isBlank_eq_false_of_isDigit hdigit)
    rw [← String.ofList_toList (s := w), next?, skipGap, List.dropWhile_cons, hgap] at h
    simp only [Bool.false_eq_true, if_false] at h
    rw [← word?_eq_some_iff, word?_eq_none (isWordStart_eq_false_of_isDigit hdigit)] at h
    cases h

namespace Spells

theorem append (h₁ : Spells ts cs mid) (h₂ : Spells us mid rest) : Spells (ts ++ us) cs rest := by
  induction h₁ with
  | nil => exact h₂
  | cons hnext _ ih => exact .cons hnext (ih h₂)

theorem split (h : Spells (ts ++ us) cs rest) : ∃ mid, Spells ts cs mid ∧ Spells us mid rest := by
  induction ts generalizing cs with
  | nil => exact ⟨cs, .nil cs, h⟩
  | cons t ts ih =>
    cases h with
    | cons hnext hmore =>
      obtain ⟨mid, h₁, h₂⟩ := ih hmore
      exact ⟨mid, .cons hnext h₁, h₂⟩

theorem head (h : Spells (t :: ts) cs rest) :
    ∃ mid, next? cs = some (t, mid) ∧ Spells ts mid rest := by
  cases h with
  | cons hnext hmore => exact ⟨_, hnext, hmore⟩

theorem single_iff : Spells [t] cs rest ↔ next? cs = some (t, rest) := by
  constructor
  · intro h
    obtain ⟨mid, hnext, hnil⟩ := h.head
    cases hnil
    exact hnext
  · exact fun h => .cons h (.nil rest)

theorem single (h : next? cs = some (t, rest)) : Spells [t] cs rest := .cons h (.nil rest)

/-- Every token takes a character at least. -/
theorem length_le (h : Spells ts cs rest) : ts.length + rest.length ≤ cs.length := by
  induction h with
  | nil => simp
  | @cons cs _ _ _ _ hnext _ ih =>
    have hlen := lexeme?_length hnext
    have hgap : (skipGap cs).length ≤ cs.length := (List.dropWhile_suffix isGap).length_le
    simp only [List.length_cons]
    omega

/-- A gap before the first token does not matter. -/
theorem skipGap_iff (h : ts ≠ []) : Spells ts (skipGap cs) rest ↔ Spells ts cs rest := by
  constructor <;> intro hs <;> cases hs with
  | nil => exact absurd rfl h
  | cons hnext hmore => exact .cons (by simpa using hnext) hmore

/-- A spelling up to where no token follows begins with every other one. -/
theorem goes_on (h₁ : Spells ts cs mid) (h₂ : Spells us cs rest) (hr : next? rest = none) :
    ∃ vs, us = ts ++ vs ∧ Spells vs mid rest := by
  induction h₁ generalizing us with
  | nil => exact ⟨us, rfl, h₂⟩
  | cons hnext _ ih =>
    cases h₂ with
    | nil =>
      rw [hr] at hnext
      cases hnext
    | cons hnext' hmore =>
      cases hnext.symm.trans hnext'
      obtain ⟨vs, rfl, hvs⟩ := ih hmore
      exact ⟨vs, rfl, hvs⟩

/-- Two spellings up to where no token follows are the same one. -/
theorem unique {rest' : List Char} (h₁ : Spells ts cs rest) (h₂ : Spells us cs rest')
    (hr : next? rest = none) (hr' : next? rest' = none) : ts = us ∧ rest = rest' := by
  obtain ⟨vs, rfl, hvs⟩ := h₁.goes_on h₂ hr'
  cases hvs with
  | nil => simp
  | cons hnext _ =>
    rw [hr] at hnext
    cases hnext

end Spells

end RowFilter.Grammar
