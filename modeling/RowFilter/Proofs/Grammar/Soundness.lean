import RowFilter.Proofs.Grammar.Phrase
import RowFilter.Proofs.Grammar.Replies

/-! What is read is a phrase of the grammar, spelled by the characters that were taken.
One lemma for each reader, each from what the readers one level deeper read. -/

namespace RowFilter.Grammar

open Reader

variable {α β : Type} {cs mid rest : List Char} {s w : String} {u : Unit}

theorem Reader.Accepts.gap_bind {p : Reader α} {a : α}
    (h : (do gap; p : Reader α).Accepts cs a rest) : p.Accepts (skipGap cs) a rest := by
  obtain ⟨_, mid, hgap, h⟩ := h.bind
  cases accepts_ofOption.1 hgap
  exact h

theorem Reader.Accepts.dropSymbol? (h : (Grammar.symbol s).Accepts cs u rest) :
    Grammar.dropSymbol? s.toList cs = some rest := by
  obtain ⟨_, hd, he⟩ := Option.map_eq_some_iff.1 (accepts_ofOption.1 h)
  cases he
  exact hd

theorem Reader.Accepts.symbol (hs : s ∈ symbols) (hj : ∀ rest, joins s rest = false)
    (h : (Grammar.symbol s).Accepts cs u rest) : next? cs = some (.symbol s, rest) :=
  next?_of_lexeme? (lexeme?_of_dropSymbol? hs h.dropSymbol? (hj rest))

theorem Reader.Accepts.word (h : (Grammar.word w).Accepts cs u rest) :
    next? cs = some (.word w, rest) := by
  obtain ⟨_, hd, he⟩ := Option.map_eq_some_iff.1 (accepts_ofOption.1 h)
  cases he
  exact next?_of_lexeme? (dropWord?_eq_some_iff.1 hd)

theorem Reader.Accepts.name {found : String} (h : Grammar.name.Accepts cs found rest) :
    next? cs = some (.word found, rest) ∧ IsName found := by
  obtain ⟨hl, hr⟩ := name?_eq_some_iff.1 (accepts_ofOption.1 h)
  exact ⟨next?_of_lexeme? hl, isWord_of_lexeme? hl, hr⟩

namespace Reader

/-- What the reader reads is a phrase with a token at least, and the text spells it. -/
def Sound (p : Reader α) (R : α → List Token → Prop) : Prop :=
  ∀ cs a rest, p.Accepts cs a rest → ∃ t ts, R a (t :: ts) ∧ Spells (t :: ts) cs rest

variable {p : Reader α} {R : α → List Token → Prop}

theorem Sound.behindGap (hp : p.Sound R) : (do gap; p : Reader α).Sound R := by
  intro cs a rest h
  obtain ⟨t, ts, hR, hs⟩ := hp _ _ _ h.gap_bind
  exact ⟨t, ts, hR, (Spells.skipGap_iff (by simp)).1 hs⟩

theorem Sound.chained (hp : p.Sound R) {as : List α} (h : Chained p.Accepts cs as rest) :
    ∃ ts, Repeats R as ts ∧ Spells ts cs rest := by
  induction h with
  | nil cs => exact ⟨[], .nil, .nil cs⟩
  | cons ha _ ih =>
    obtain ⟨t, ts, hR, hs⟩ := hp _ _ _ ha
    obtain ⟨us, hRs, hss⟩ := ih
    exact ⟨_, .cons hR hRs, hs.append hss⟩

theorem Sound.behindComma (hp : p.Sound R) :
    (do comma; p : Reader α).Sound (Led (.symbol ",") R) := by
  intro cs a rest h
  obtain ⟨_, mid, hcomma, h⟩ := h.bind
  obtain ⟨_, mid', hsymbol, hgap⟩ := hcomma.gap_bind.bind
  cases accepts_ofOption.1 hgap
  obtain ⟨t, ts, hR, hs⟩ := hp _ _ _ h
  have hnext := hsymbol.symbol (by decide) (fun _ => rfl)
  rw [next?_skipGap] at hnext
  exact ⟨_, t :: ts, .mk hR, .cons hnext ((Spells.skipGap_iff (by simp)).1 hs)⟩

theorem Sound.series (hp : p.Sound R) : (separated p comma).Sound (Series (.symbol ",") R) := by
  intro cs as rest h
  obtain ⟨a, more, mid, rfl, ha, hmore⟩ := h.separated
  obtain ⟨t, ts, hR, hs⟩ := hp _ _ _ ha
  obtain ⟨us, hRs, hss⟩ := Sound.chained hp.behindComma hmore
  exact ⟨t, ts ++ us, .mk hR hRs, hs.append hss⟩

end Reader

/-- The readers one level deeper read the phrases one level deeper, and only where there
is such a level do they not halt. -/
structure Inner.Sound (inner : Inner) (P : Phrases) : Prop where
  item : inner.item.Sound P.item
  negand : inner.negand.Sound P.negand
  starts : ∀ {t ts}, P.item t ts → Starts ts
  opened : inner.item.Entered → P.opened

theorem spells_lastComma {last : Option Unit} (h : (optional lastComma).Accepts cs last rest) :
    Spells (commaIf last.isSome) cs rest := by
  rcases h.optional with ⟨_, rfl, hlast⟩ | ⟨rfl, rfl, -⟩
  · have hnext := hlast.gap_bind.symbol (by decide) (fun _ => rfl)
    exact .single (by simpa using hnext)
  · exact .nil _

theorem numeral?_eq_some {n : Numeral} (h : numeral? cs = some (n, rest)) :
    next? cs = some (.number n, rest) ∨ ∃ m mid, n = { m with negative := true } ∧
      next? cs = some (.symbol "-", mid) ∧ next? mid = some (.number m, rest) := by
  unfold numeral? at h
  split at h
  · rename_i behind
    obtain ⟨⟨m, _⟩, hm, he⟩ := Option.map_eq_some_iff.1 h
    cases he
    exact .inr ⟨m, behind, rfl, next?_of_lexeme? (lexeme?_symbol (s := "-") (by decide) rfl),
      unsigned?_eq_some_iff.1 hm⟩
  · exact .inl (next?_of_lexeme? (unsigned?_eq_some_iff.1 h))

/-- Refused before a symbol is a text that does not start with it. -/
theorem Reader.Rejects.symbol_pure {a : α}
    (h : (do symbol s; pure a : Reader α).Rejects cs) : dropSymbol? s.toList cs = none := by
  obtain ⟨n, n', h⟩ := h
  cases hd : Grammar.dropSymbol? s.toList cs with
  | none => rfl
  | some r =>
    have hread : (Grammar.symbol s) n cs = .read () r n := by
      simp only [Grammar.symbol, ofOption, hd, Option.map_some]
    simp only [Bind.bind, hread] at h
    cases h

theorem Reader.Accepts.symbol_pure {a b : α}
    (h : (do Grammar.symbol s; pure a : Reader α).Accepts cs b rest) :
    a = b ∧ Grammar.dropSymbol? s.toList cs = some rest := by
  obtain ⟨_, mid, hs, h⟩ := h.bind
  obtain ⟨rfl, rfl⟩ := accepts_pure.1 h
  exact ⟨rfl, hs.dropSymbol?⟩

theorem Reader.Accepts.word_pure {a b : α}
    (h : (do Grammar.word w; pure a : Reader α).Accepts cs b rest) :
    a = b ∧ next? cs = some (.word w, rest) := by
  obtain ⟨_, mid, hs, h⟩ := h.bind
  obtain ⟨rfl, rfl⟩ := accepts_pure.1 h
  exact ⟨rfl, hs.word⟩

theorem Reader.Accepts.words_pure {v : String} {a b : α}
    (h : (do Grammar.word v; gap; Grammar.word w; pure a : Reader α).Accepts cs b rest) :
    a = b ∧ Spells [.word v, .word w] cs rest := by
  obtain ⟨_, mid, hv, h⟩ := h.bind
  obtain ⟨_, mid', hw, h⟩ := h.gap_bind.bind
  obtain ⟨rfl, rfl⟩ := accepts_pure.1 h
  have hnext := hw.word
  rw [next?_skipGap] at hnext
  exact ⟨rfl, .cons hv.word (.single hnext)⟩

theorem literal_sound : literal.Sound LiteralPhrase := by
  intro cs l rest h
  rcases h.firstOf with h | ⟨-, h⟩
  · obtain ⟨rfl, hnext⟩ := h.word_pure
    exact ⟨_, _, .true, .single hnext⟩
  rcases h.firstOf with h | ⟨-, h⟩
  · obtain ⟨rfl, hnext⟩ := h.word_pure
    exact ⟨_, _, .false, .single hnext⟩
  rcases h.firstOf with h | ⟨-, h⟩
  · obtain ⟨rfl, hnext⟩ := h.word_pure
    exact ⟨_, _, .none, .single hnext⟩
  rcases h.firstOf with h | ⟨-, h⟩
  · obtain ⟨n, hn, rfl⟩ := h.map
    rcases numeral?_eq_some (accepts_ofOption.1 hn) with hnext | ⟨m, mid, rfl, hminus, hnext⟩
    · exact ⟨_, _, .number (written_of_lexeme? hnext), .single hnext⟩
    · exact ⟨_, _, .negative (written_of_lexeme? hnext), .cons hminus (.single hnext)⟩
  rcases h.firstOf with h | ⟨-, h⟩
  · obtain ⟨s, hs, rfl⟩ := h.map
    exact ⟨_, _, .text s, .single (next?_of_lexeme? (quotedText?_eq_some_iff.1
      (accepts_ofOption.1 hs)))⟩
  · exact absurd h not_accepts_firstOf_nil

theorem assign_accepts (h : assign.Accepts cs u rest) : next? cs = some (.symbol "=", rest) := by
  have hread := accepts_ofOption.1 h
  split at hread
  · cases hread
  · rename_i hdouble
    cases hread
    have hj : joins "=" rest = false := by
      cases rest with
      | nil => rfl
      | cons c more =>
        rw [← Bool.not_eq_true]
        intro hc
        cases beq_iff_eq.1 hc
        exact hdouble _ rfl
    exact next?_of_lexeme? (lexeme?_symbol (by decide) hj)
  · cases hread

/-- A star before an expression is not the first of two. -/
theorem not_joins_star {ts : List Token} (hts : Starts ts) (h : Spells ts cs rest) :
    joins "*" cs = false := by
  cases cs with
  | nil => rfl
  | cons c cs =>
    rw [← Bool.not_eq_true]
    intro hc
    cases beq_iff_eq.1 hc
    cases h with
    | nil => exact hts.ne_nil rfl
    | @cons _ _ _ u _ hnext _ =>
      have hu : u.starts = true ∨ u = .word "not" := by
        rcases hts with ⟨_, _, ⟨⟩, hu⟩ | ⟨_, ⟨⟩⟩
        · exact .inl hu
        · exact .inr rfl
      rcases lexeme?_eq_some hnext with ⟨w, -, hw⟩ | ⟨n, -, hn⟩ | ⟨s, -, hs⟩ | ⟨s, -, rfl, hs⟩
      · cases hw
      · cases hn
      · cases hs
      · simp only [Token.starts, Bool.or_eq_true, beq_iff_eq, reduceCtorEq, or_false] at hu
        rcases hu with (rfl | rfl) | rfl <;> cases hs

/-- A symbol that another one continues was tried behind that one. -/
theorem spells_shortSymbol {long : String} (hs : s ∈ symbols)
    (hlong : long.toList = s.toList ++ ['='])
    (hj : ∀ rest, joins s rest = true → ∃ more, rest = '=' :: more)
    (hd : dropSymbol? s.toList cs = some rest) (hn : dropSymbol? long.toList cs = none) :
    Spells [.symbol s] cs rest := by
  refine .single (next?_of_lexeme? (lexeme?_of_dropSymbol? hs hd ?_))
  rw [← Bool.not_eq_true]
  intro hjoin
  obtain ⟨more, rfl⟩ := hj _ hjoin
  have hread : dropSymbol? long.toList cs = some more := by
    rw [dropSymbol?_eq_some_iff, hlong, dropSymbol?_eq_some_iff.1 hd, List.append_assoc]
    rfl
  rw [hread] at hn
  cases hn

theorem relation_accepts {r : Relation} (h : relation.Accepts cs r rest) :
    Spells (relationTokens r) cs rest := by
  have plain {s : String} (hs : s ∈ symbols) (hj : ∀ rest, joins s rest = false)
      (hd : dropSymbol? s.toList cs = some rest) : Spells [.symbol s] cs rest :=
    .single (next?_of_lexeme? (lexeme?_of_dropSymbol? hs hd (hj rest)))
  rcases h.firstOf with h | ⟨-, h⟩
  · obtain ⟨rfl, hd⟩ := h.symbol_pure
    exact plain (by decide) (fun _ => rfl) hd
  rcases h.firstOf with h | ⟨-, h⟩
  · obtain ⟨rfl, hd⟩ := h.symbol_pure
    exact plain (by decide) (fun _ => rfl) hd
  rcases h.firstOf with h | ⟨hle, h⟩
  · obtain ⟨rfl, hd⟩ := h.symbol_pure
    exact plain (by decide) (fun _ => rfl) hd
  rcases h.firstOf with h | ⟨hge, h⟩
  · obtain ⟨rfl, hd⟩ := h.symbol_pure
    exact plain (by decide) (fun _ => rfl) hd
  rcases h.firstOf with h | ⟨-, h⟩
  · obtain ⟨rfl, hd⟩ := h.symbol_pure
    exact spells_shortSymbol (by decide) rfl (fun _ => joins_less) hd hle.symbol_pure
  rcases h.firstOf with h | ⟨-, h⟩
  · obtain ⟨rfl, hd⟩ := h.symbol_pure
    exact spells_shortSymbol (by decide) rfl (fun _ => joins_greater) hd hge.symbol_pure
  rcases h.firstOf with h | ⟨-, h⟩
  · obtain ⟨rfl, hs⟩ := h.words_pure
    exact hs
  rcases h.firstOf with h | ⟨-, h⟩
  · obtain ⟨rfl, hnext⟩ := h.word_pure
    exact .single hnext
  rcases h.firstOf with h | ⟨-, h⟩
  · obtain ⟨rfl, hs⟩ := h.words_pure
    exact hs
  rcases h.firstOf with h | ⟨-, h⟩
  · obtain ⟨rfl, hnext⟩ := h.word_pure
    exact .single hnext
  · exact absurd h not_accepts_firstOf_nil

section

variable {inner : Inner} {P : Phrases} (hinner : inner.Sound P)

include hinner

theorem parentheses_sound : (parentheses inner).Sound (Primary P) := by
  intro cs t rest h
  obtain ⟨_, mid, hopen, h⟩ := h.bind
  have hopen := hopen.symbol (by decide) (fun _ => rfl)
  obtain ⟨items, mid₁, hitems, h⟩ := h.gap_bind.bind
  obtain ⟨last, mid₂, hlast, h⟩ := h.bind
  obtain ⟨_, mid₃, hclose, h⟩ := h.gap_bind.bind
  obtain ⟨rfl, rfl⟩ := accepts_pure.1 h
  have hclose := hclose.symbol (by decide) (fun _ => rfl)
  rw [next?_skipGap] at hclose
  have hmore : ∃ ts, Items P (items.getD []) ts ∧ Spells ts (skipGap mid) mid₁ := by
    rcases hitems.optional with ⟨items, rfl, hsome⟩ | ⟨rfl, rfl, hnone⟩
    · obtain ⟨t, ts, hR, hs⟩ := hinner.item.series _ _ _ hsome
      exact ⟨_, .some hR, hs⟩
    · exact ⟨[], .none (hinner.opened hnone.bind), .nil _⟩
  obtain ⟨ts, hR, hs⟩ := hmore
  refine ⟨_, _, .parentheses last.isSome hR, .cons hopen ?_⟩
  rw [← Spells.skipGap_iff (by simp)]
  exact hs.append ((spells_lastComma hlast).append (.single hclose))

theorem brackets_sound : (brackets inner).Sound (Primary P) := by
  intro cs t rest h
  obtain ⟨_, mid, hopen, h⟩ := h.bind
  have hopen := hopen.symbol (by decide) (fun _ => rfl)
  obtain ⟨items, mid₁, hitems, h⟩ := h.gap_bind.bind
  obtain ⟨_, mid₂, hclose, h⟩ := h.gap_bind.bind
  obtain ⟨rfl, rfl⟩ := accepts_pure.1 h
  have hclose := hclose.symbol (by decide) (fun _ => rfl)
  rw [next?_skipGap] at hclose
  rcases hitems.optional with ⟨items, rfl, hsome⟩ | ⟨rfl, rfl, hnone⟩
  · obtain ⟨items, mid₂, hseries, hsome⟩ := hsome.bind
    obtain ⟨last, mid₃, hlast, hsome⟩ := hsome.bind
    obtain ⟨rfl, rfl⟩ := accepts_pure.1 hsome
    obtain ⟨t, ts, hR, hs⟩ := hinner.item.series _ _ _ hseries
    refine ⟨_, _, .list last.isSome hR, .cons hopen ?_⟩
    rw [← Spells.skipGap_iff (by simp)]
    exact hs.append ((spells_lastComma hlast).append (.single hclose))
  · rw [next?_skipGap] at hclose
    exact ⟨_, _, .emptyList (hinner.opened (Entered.bind hnone.bind)), .cons hopen (.single hclose)⟩

theorem primary_sound : (primary inner).Sound (Primary P) := by
  apply Reader.Sound.behindGap
  intro cs t rest h
  rcases h.firstOf with h | ⟨-, h⟩
  · exact parentheses_sound hinner _ _ _ h
  rcases h.firstOf with h | ⟨-, h⟩
  · exact brackets_sound hinner _ _ _ h
  rcases h.firstOf with h | ⟨-, h⟩
  · obtain ⟨l, hl, rfl⟩ := h.map
    obtain ⟨t, ts, hR, hs⟩ := literal_sound _ _ _ hl
    exact ⟨t, ts, .literal hR, hs⟩
  rcases h.firstOf with h | ⟨-, h⟩
  · obtain ⟨name, hname, rfl⟩ := h.map
    obtain ⟨hnext, hr⟩ := hname.name
    exact ⟨_, _, .ident hr, .single hnext⟩
  · exact absurd h not_accepts_firstOf_nil

theorem argument_sound : (argument inner).Sound (Argument P) := by
  intro cs arg rest h
  have hitem {passing : Passing} {mid : List Char}
      (h : (do let value ← inner.item; pure (passing, value) : Reader _).Accepts mid arg rest) :
      ∃ value t ts, arg = (passing, value) ∧ P.item value (t :: ts) ∧ Spells (t :: ts) mid rest := by
    obtain ⟨value, mid', hvalue, h⟩ := h.bind
    obtain ⟨rfl, rfl⟩ := accepts_pure.1 h
    obtain ⟨t, ts, hR, hs⟩ := hinner.item _ _ _ hvalue
    exact ⟨value, t, ts, rfl, hR, hs⟩
  rcases h.firstOf with h | ⟨-, h⟩
  · obtain ⟨_, mid, hmark, h⟩ := h.bind
    obtain ⟨value, t, ts, rfl, hR, hs⟩ := hitem h.gap_bind
    rw [Spells.skipGap_iff (by simp)] at hs
    exact ⟨_, _, .doubleStarred hR, .cons (hmark.symbol (by decide) fun _ => rfl) hs⟩
  rcases h.firstOf with h | ⟨-, h⟩
  · obtain ⟨_, mid, hmark, h⟩ := h.bind
    obtain ⟨value, t, ts, rfl, hR, hs⟩ := hitem h.gap_bind
    rw [Spells.skipGap_iff (by simp)] at hs
    exact ⟨_, _, .starred hR, .cons (next?_of_lexeme? (lexeme?_of_dropSymbol? (by decide)
      hmark.dropSymbol? (not_joins_star (hinner.starts hR) hs))) hs⟩
  rcases h.firstOf with h | ⟨-, h⟩
  · obtain ⟨key, mid, hkey, h⟩ := h.bind
    obtain ⟨hkey, hr⟩ := hkey.name
    obtain ⟨_, mid', hassign, h⟩ := h.gap_bind.bind
    obtain ⟨value, t, ts, rfl, hR, hs⟩ := hitem h.gap_bind
    rw [Spells.skipGap_iff (by simp)] at hs
    have hassign := assign_accepts hassign
    rw [next?_skipGap] at hassign
    exact ⟨_, _, .keyword hr hR, .cons hkey (.cons hassign hs)⟩
  rcases h.firstOf with h | ⟨-, h⟩
  · obtain ⟨value, t, ts, rfl, hR, hs⟩ := hitem h
    exact ⟨t, ts, .positional hR, hs⟩
  · exact absurd h not_accepts_firstOf_nil

omit hinner in
theorem argument_entered (h : (argument inner).Entered) : inner.item.Entered := by
  obtain ⟨cs, h | ⟨arg, rest, h⟩⟩ := h
  · exact (h.firstOf _ (List.mem_of_getLast? rfl)).bind
  · rcases h.firstOf with h | ⟨-, h⟩
    · obtain ⟨_, mid, -, h⟩ := h.bind
      exact Entered.bind ⟨_, .inr ⟨_, _, h.gap_bind⟩⟩
    rcases h.firstOf with h | ⟨-, h⟩
    · obtain ⟨_, mid, -, h⟩ := h.bind
      exact Entered.bind ⟨_, .inr ⟨_, _, h.gap_bind⟩⟩
    rcases h.firstOf with h | ⟨-, h⟩
    · obtain ⟨key, mid, -, h⟩ := h.bind
      obtain ⟨_, mid', -, h⟩ := h.gap_bind.bind
      exact Entered.bind ⟨_, .inr ⟨_, _, h.gap_bind⟩⟩
    rcases h.firstOf with h | ⟨-, h⟩
    · exact Entered.bind ⟨_, .inr ⟨_, _, h⟩⟩
    · exact absurd h not_accepts_firstOf_nil

theorem arguments_accepts {args : Option (List (Passing × Tree))}
    (h : (optional (arguments inner)).Accepts cs args rest) :
    ∃ ts, Arguments P (args.getD []) ts ∧ Spells ts cs rest := by
  rcases h.optional with ⟨args, rfl, hsome⟩ | ⟨rfl, rfl, hnone⟩
  · obtain ⟨args, mid₂, hseries, hsome⟩ := hsome.bind
    obtain ⟨last, mid₃, hlast, hsome⟩ := hsome.bind
    obtain ⟨rfl, rfl⟩ := accepts_pure.1 hsome
    obtain ⟨t, ts, hR, hs⟩ := (argument_sound hinner).series _ _ _ hseries
    exact ⟨_, .some last.isSome hR, hs.append (spells_lastComma hlast)⟩
  · have hargument : (argument inner).Entered := Entered.bind hnone.bind
    exact ⟨[], .none (hinner.opened (argument_entered hargument)), .nil _⟩

/-- Trailers read behind an operand give an operand again. -/
theorem trailer_accepts {trailer : Trailer} {base : Tree} {ts : List Token}
    (h : (Grammar.trailer inner).Accepts cs trailer rest) (hbase : Operand P base ts) :
    ∃ us, Operand P (trailer.apply base) (ts ++ us) ∧ Spells us cs rest := by
  have h := h.gap_bind
  rcases h.firstOf with h | ⟨-, h⟩
  · obtain ⟨_, mid, hpoint, h⟩ := h.bind
    obtain ⟨name, mid', hname, h⟩ := h.gap_bind.bind
    obtain ⟨rfl, rfl⟩ := accepts_pure.1 h
    obtain ⟨hnext, hr⟩ := hname.name
    rw [next?_skipGap] at hnext
    refine ⟨_, .attr hbase hr, .cons ?_ (.single hnext)⟩
    rw [← next?_skipGap]
    exact next?_of_lexeme? (lexeme?_of_dropSymbol? (by decide) hpoint.dropSymbol?
      (not_joins_point hnext))
  rcases h.firstOf with h | ⟨-, h⟩
  · obtain ⟨_, mid, hopen, h⟩ := h.bind
    obtain ⟨args, mid', hargs, h⟩ := h.gap_bind.bind
    obtain ⟨_, mid'', hclose, h⟩ := h.gap_bind.bind
    obtain ⟨rfl, rfl⟩ := accepts_pure.1 h
    have hopen := hopen.symbol (by decide) (fun _ => rfl)
    have hclose := hclose.symbol (by decide) (fun _ => rfl)
    rw [next?_skipGap] at hopen hclose
    obtain ⟨us, hR, hs⟩ := arguments_accepts hinner hargs
    refine ⟨_, .call hbase hR, .cons hopen ?_⟩
    rw [← Spells.skipGap_iff (by simp)]
    exact hs.append (.single hclose)
  · exact absurd h not_accepts_firstOf_nil

theorem trailers_accept {trailers : List Trailer}
    (h : Chained (Grammar.trailer inner).Accepts cs trailers rest) {base : Tree} {ts : List Token}
    (hbase : Operand P base ts) :
    ∃ us, Operand P (trailers.foldl Trailer.apply base) (ts ++ us) ∧ Spells us cs rest := by
  induction h generalizing base ts with
  | nil => exact ⟨[], by simpa using hbase, .nil _⟩
  | cons htrailer _ ih =>
    obtain ⟨us, hR, hus⟩ := trailer_accepts hinner htrailer hbase
    obtain ⟨more, hR, hmore⟩ := ih hR
    exact ⟨us ++ more, by simpa using hR, hus.append hmore⟩

theorem operand_sound : (operand inner).Sound (Operand P) := by
  intro cs t rest h
  obtain ⟨base, mid, hbase, h⟩ := h.bind
  obtain ⟨trailers, mid', htrailers, h⟩ := h.bind
  obtain ⟨rfl, rfl⟩ := accepts_pure.1 h
  obtain ⟨t, ts, hR, hs⟩ := primary_sound hinner _ _ _ hbase
  obtain ⟨us, hR, hus⟩ := trailers_accept hinner htrailers.many (.primary hR)
  exact ⟨t, ts ++ us, hR, hs.append hus⟩

theorem comparison_sound : (comparison inner).Sound (Comparison P) := by
  have hstep : (do gap; let relation ← relation; let right ← operand inner; pure (relation, right) :
      Reader (Relation × Tree)).Sound (Step P) := by
    intro cs step rest h
    obtain ⟨r, mid, hr, h⟩ := h.gap_bind.bind
    obtain ⟨right, mid', hright, h⟩ := h.bind
    obtain ⟨rfl, rfl⟩ := accepts_pure.1 h
    obtain ⟨t, ts, hR, hs⟩ := operand_sound hinner _ _ _ hright
    have hs := (relation_accepts hr).append hs
    have hne : ∃ u us, relationTokens r ++ t :: ts = u :: us := by
      cases r <;> exact ⟨_, _, rfl⟩
    obtain ⟨u, us, hus⟩ := hne
    rw [Spells.skipGap_iff (by simp)] at hs
    exact ⟨u, us, hus ▸ .mk r hR, hus ▸ hs⟩
  intro cs t rest h
  obtain ⟨left, mid, hleft, h⟩ := h.bind
  obtain ⟨steps, mid', hsteps, h⟩ := h.bind
  obtain ⟨rfl, rfl⟩ := accepts_pure.1 h
  obtain ⟨t, ts, hR, hs⟩ := operand_sound hinner _ _ _ hleft
  obtain ⟨us, hRs, hus⟩ := hstep.chained hsteps.many
  cases steps with
  | nil =>
    cases hRs
    exact ⟨t, ts, .operand hR, by simpa using hs.append hus⟩
  | cons step steps => exact ⟨t, ts ++ us, .compare hR hRs, hs.append hus⟩

theorem negation_sound : (negation inner).Sound (Negation P) := by
  intro cs t rest h
  rcases h.firstOf with h | ⟨-, h⟩
  · obtain ⟨_, mid, hnot, h⟩ := h.gap_bind.bind
    obtain ⟨operand, mid', hoperand, h⟩ := h.bind
    obtain ⟨rfl, rfl⟩ := accepts_pure.1 h
    obtain ⟨t, ts, hR, hs⟩ := hinner.negand _ _ _ hoperand
    have hnext := hnot.word
    rw [next?_skipGap] at hnext
    exact ⟨_, _, .not hR, .cons hnext hs⟩
  rcases h.firstOf with h | ⟨-, h⟩
  · obtain ⟨t, ts, hR, hs⟩ := comparison_sound hinner _ _ _ h
    exact ⟨t, ts, .comparison hR, hs⟩
  · exact absurd h not_accepts_firstOf_nil

omit hinner in
/-- A chain of what a reader reads, with a word between. -/
theorem chain_sound {p : Reader Tree} {R : Tree → List Token → Prop} {c : Connective}
    (hw : connectiveToken c = .word w) (hp : p.Sound R) :
    (do
      let first ← p
      let more ← many (do gap; word w; p)
      pure (chainOf c first more) : Reader Tree).Sound (ChainPhrase c R) := by
  intro cs t rest h
  obtain ⟨first, mid, hfirst, h⟩ := h.bind
  obtain ⟨more, mid', hmore, h⟩ := h.bind
  obtain ⟨rfl, rfl⟩ := accepts_pure.1 h
  obtain ⟨t, ts, hR, hs⟩ := hp _ _ _ hfirst
  have hled : (do gap; word w; p : Reader Tree).Sound (Led (connectiveToken c) R) := by
    intro cs u rest h
    obtain ⟨_, mid, hword, h⟩ := h.gap_bind.bind
    obtain ⟨u', us, hR, hs⟩ := hp _ _ _ h
    have hnext := hword.word
    rw [next?_skipGap, ← hw] at hnext
    exact ⟨_, _, .mk hR, .cons hnext hs⟩
  obtain ⟨us, hRs, hus⟩ := hled.chained hmore.many
  cases more with
  | nil =>
    cases hRs
    exact ⟨t, ts, .single hR, by simpa using hs.append hus⟩
  | cons u more => exact ⟨t, ts ++ us, .chain hR hRs, hs.append hus⟩

theorem disjunction_sound : (disjunction inner).Sound (Disjunction P) :=
  chain_sound rfl (chain_sound rfl (negation_sound hinner))

end

theorem not_entered_halt {guard : Guard} : ¬ (nested guard (halt : Reader α)).Entered := by
  intro hentered
  obtain ⟨cs, ⟨n, n', h⟩ | ⟨a, rest, h⟩⟩ := hentered
  · unfold nested at h
    split at h
    · cases h
    · cases guard <;> cases h
  · obtain ⟨n, n', h⟩ := h.nested
    cases h

/-- Where `depth` levels are left, the readers of sub-expressions read the phrases. -/
theorem inner_sound (guard : Guard) (depth : Nat) :
    (inner guard depth).Sound (phrases depth) := by
  induction depth with
  | zero =>
    refine ⟨fun cs t rest h => ?_, fun cs t rest h => ?_, phrases_item_starts, fun h => ?_⟩
    · exact absurd ⟨cs, .inr ⟨t, rest, h⟩⟩ not_entered_halt
    · exact absurd ⟨cs, .inr ⟨t, rest, h⟩⟩ not_entered_halt
    · exact absurd h not_entered_halt
  | succ depth ih =>
    refine ⟨fun cs t rest h => ?_, fun cs t rest h => ?_, phrases_item_starts, fun _ => trivial⟩
    · have h : (nested guard (disjunction (inner guard depth))).Accepts cs t rest := h
      exact disjunction_sound ih _ _ _ h.nested
    · have h : (nested guard (negation (inner guard depth))).Accepts cs t rest := h
      exact negation_sound ih _ _ _ h.nested

end RowFilter.Grammar
