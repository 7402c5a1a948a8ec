import RowFilter.Proofs.Grammar.Phrase
import RowFilter.Proofs.Grammar.Replies

/-! Every phrase of the grammar is read. A phrase that a text spells is read up to its
last token, unless what follows goes on with it. Ordered choice is where this could fail:
each alternative before the right one has to be refused, and none of them may halt. -/

namespace RowFilter.Grammar

open Reader

variable {α : Type} {level : Nat} {cs mid rest : List Char} {s w : String} {t : Token}

/-- No token follows that would go on with the phrase. -/
def Ends (leads : List Token) (cs : List Char) : Prop :=
  ∀ t rest, next? cs = some (t, rest) → t ∉ leads

def operandLeads : List Token := [.symbol ".", .symbol "("]

def comparisonLeads : List Token :=
  operandLeads ++ [.symbol "==", .symbol "!=", .symbol "<", .symbol "<=", .symbol ">",
    .symbol ">=", .word "in", .word "not", .word "is"]

def conjunctionLeads : List Token := comparisonLeads ++ [.word "and"]

def disjunctionLeads : List Token := conjunctionLeads ++ [.word "or"]

theorem Ends.of_append {leads more : List Token} (h : Ends (leads ++ more) cs) : Ends leads cs :=
  fun t rest hnext ht => h t rest hnext (List.mem_append_left more ht)

theorem Ends.ne {leads : List Token} (h : Ends leads cs) (ht : t ∈ leads) (rest : List Char) :
    next? cs ≠ some (t, rest) :=
  fun hnext => h t rest hnext ht

theorem Ends.of_next? {leads : List Token} (h : next? cs = some (t, rest)) (ht : t ∉ leads) :
    Ends leads cs := by
  intro u r hu
  cases h.symm.trans hu
  exact ht

theorem reads_gap : gap.Reads level cs () (skipGap cs) := reads_ofOption rfl

theorem reads_symbol (h : next? cs = some (.symbol s, rest)) :
    (symbol s).Reads level (skipGap cs) () rest :=
  reads_ofOption (by rw [dropSymbol?_of_lexeme? h]; rfl)

theorem reads_word (h : next? cs = some (.word w, rest)) :
    (word w).Reads level (skipGap cs) () rest :=
  reads_ofOption (by rw [dropWord?_eq_some_iff.2 h]; rfl)

theorem reads_name (h : next? cs = some (.word w, rest)) (hr : w ∉ reserved) :
    name.Reads level (skipGap cs) w rest :=
  reads_ofOption (name?_eq_some_iff.2 ⟨h, hr⟩)

theorem refuses_word (h : ∀ rest, next? cs ≠ some (.word w, rest)) :
    (word w).Refuses level (skipGap cs) := by
  apply refuses_ofOption
  cases hd : dropWord? w (skipGap cs) with
  | none => rfl
  | some rest => exact absurd (dropWord?_eq_some_iff.1 hd) (h rest)

theorem refuses_name (h : ∀ w rest, next? cs = some (.word w, rest) → w ∈ reserved) :
    name.Refuses level (skipGap cs) := by
  apply refuses_ofOption
  cases hn : name? (skipGap cs) with
  | none => rfl
  | some found =>
    obtain ⟨hl, hr⟩ := name?_eq_some_iff.1 hn
    exact absurd (h _ _ hl) hr

/-- A symbol that nothing joins is refused before any other token. -/
theorem refuses_plain (hs : s ∈ symbols) (hj : ∀ rest, joins s rest = false)
    (h : ∀ rest, next? cs ≠ some (.symbol s, rest)) : (symbol s).Refuses level (skipGap cs) := by
  apply refuses_ofOption
  cases hd : dropSymbol? s.toList (skipGap cs) with
  | none => rfl
  | some rest => exact absurd (lexeme?_of_dropSymbol? hs hd (hj rest)) (h rest)

/-- A symbol that another one continues is refused before any token but these two. -/
theorem refuses_short {long : String} {c : Char} (hs : s ∈ symbols) (hlong : long ∈ symbols)
    (hchars : long.toList = s.toList ++ [c]) (hjlong : ∀ rest, joins long rest = false)
    (hj : ∀ rest, joins s rest = true → ∃ more, rest = c :: more)
    (h : ∀ rest, next? cs ≠ some (.symbol s, rest))
    (hne : ∀ rest, next? cs ≠ some (.symbol long, rest)) :
    (symbol s).Refuses level (skipGap cs) := by
  apply refuses_ofOption
  cases hd : dropSymbol? s.toList (skipGap cs) with
  | none => rfl
  | some rest =>
    exfalso
    cases hjoin : joins s rest with
    | false => exact h rest (lexeme?_of_dropSymbol? hs hd hjoin)
    | true =>
      obtain ⟨more, rfl⟩ := hj rest hjoin
      have hd' : dropSymbol? long.toList (skipGap cs) = some more := by
        rw [dropSymbol?_eq_some_iff, hchars, dropSymbol?_eq_some_iff.1 hd, List.append_assoc]
        rfl
      exact hne more (lexeme?_of_dropSymbol? hlong hd' (hjlong more))

theorem skipGap_ne_minus (h : next? cs = some (t, rest)) (ht : t ≠ .symbol "-") (more : List Char) :
    skipGap cs ≠ '-' :: more := by
  intro hcs
  have hminus : lexeme? (skipGap cs) = some (.symbol "-", more) := by
    rw [hcs]
    exact lexeme?_symbol (s := "-") (by decide) rfl
  cases h.symm.trans hminus
  exact ht rfl

theorem numeral?_eq_unsigned? (h : ∀ more, cs ≠ '-' :: more) :
    numeral? cs = Numeral.unsigned? cs := by
  unfold numeral?
  split
  · rename_i more
    exact absurd rfl (h more)
  · rfl

theorem numeral?_eq_none (h : next? cs = some (t, rest)) (hminus : t ≠ .symbol "-")
    (hnumber : ∀ n, t ≠ .number n) : numeral? (skipGap cs) = none := by
  rw [numeral?_eq_unsigned? (skipGap_ne_minus h hminus)]
  cases hn : Numeral.unsigned? (skipGap cs) with
  | none => rfl
  | some found =>
    cases h.symm.trans (unsigned?_eq_some_iff.1 hn)
    exact absurd rfl (hnumber _)

theorem quotedText?_eq_none (h : next? cs = some (t, rest)) (htext : ∀ s, t ≠ .text s) :
    quotedText? (skipGap cs) = none := by
  cases hs : quotedText? (skipGap cs) with
  | none => rfl
  | some found =>
    cases h.symm.trans (quotedText?_eq_some_iff.1 hs)
    exact absurd rfl (htext _)

theorem literal_reads {l : Literal} {ts : List Token} (hl : LiteralPhrase l ts)
    (h : Spells ts cs rest) : literal.Reads level (skipGap cs) l rest := by
  have other {w : String} {l : Literal} (h : ∀ r, next? cs ≠ some (.word w, r)) :
      (do word w; pure l : Reader Literal).Refuses level (skipGap cs) := (refuses_word h).bind
  have behindWords {ps : List (Reader Literal)} {l : Literal}
      (h : ∀ w r, next? cs ≠ some (.word w, r)) (hps : (firstOf ps).Reads level (skipGap cs) l rest) :
      (firstOf (
        (do word "True"; pure (.bool true)) ::
        (do word "False"; pure (.bool false)) ::
        (do word "None"; pure .none) :: ps)).Reads level (skipGap cs) l rest :=
    (other (h _)).firstOf_reads ((other (h _)).firstOf_reads ((other (h _)).firstOf_reads hps))
  cases hl with
  | true =>
    have hnext := Spells.single_iff.1 h
    exact ((reads_word hnext).seq reads_pure).firstOf
  | false =>
    have hnext := Spells.single_iff.1 h
    exact (other (by simp [hnext])).firstOf_reads ((reads_word hnext).seq reads_pure).firstOf
  | none =>
    have hnext := Spells.single_iff.1 h
    exact (other (by simp [hnext])).firstOf_reads ((other (by simp [hnext])).firstOf_reads
      ((reads_word hnext).seq reads_pure).firstOf)
  | @number n hn =>
    have hnext := Spells.single_iff.1 h
    have hnumeral : numeral? (skipGap cs) = some (n, rest) := by
      rw [numeral?_eq_unsigned? (skipGap_ne_minus hnext (by simp))]
      exact unsigned?_eq_some_iff.2 hnext
    exact behindWords (by simp [hnext]) (reads_ofOption hnumeral).map.firstOf
  | @negative n hn =>
    obtain ⟨mid, hnext, hmore⟩ := h.head
    have hnumber := Spells.single_iff.1 hmore
    have hnumeral : numeral? (skipGap cs) = some ({ n with negative := Bool.true }, rest) := by
      rw [dropSymbol?_eq_some_iff.1 (dropSymbol?_of_lexeme? hnext)]
      change numeral? ('-' :: mid) = _
      rw [numeral?, unsigned?_eq_some_iff.2 hnumber]
      rfl
    exact behindWords (by simp [hnext]) (reads_ofOption hnumeral).map.firstOf
  | text s =>
    have hnext := Spells.single_iff.1 h
    have hnumeral := numeral?_eq_none hnext (by simp) (by simp)
    exact behindWords (by simp [hnext]) ((refuses_ofOption hnumeral).map.firstOf_reads
      (reads_ofOption (quotedText?_eq_some_iff.2 hnext)).map.firstOf)

theorem literal_refuses (hnext : next? cs = some (t, rest))
    (hword : ∀ w ∈ ["True", "False", "None"], t ≠ .word w) (hminus : t ≠ .symbol "-")
    (hnumber : ∀ n, t ≠ .number n) (htext : ∀ s, t ≠ .text s) :
    literal.Refuses level (skipGap cs) := by
  have words {w : String} {l : Literal} (hw : w ∈ ["True", "False", "None"]) :
      (do word w; pure l : Reader Literal).Refuses level (skipGap cs) := by
    refine (refuses_word fun r hr => ?_).bind
    cases hnext.symm.trans hr
    exact hword w hw rfl
  apply refuses_firstOf
  simp only [List.forall_mem_cons, List.not_mem_nil, false_implies, implies_true, and_true]
  exact ⟨words (by decide), words (by decide), words (by decide),
    (refuses_ofOption (numeral?_eq_none hnext hminus hnumber)).map,
    (refuses_ofOption (quotedText?_eq_none hnext htext)).map⟩

theorem assign_reads (h : next? cs = some (.symbol "=", rest)) :
    assign.Reads level (skipGap cs) () rest := by
  apply reads_ofOption
  have hcs := dropSymbol?_eq_some_iff.1 (dropSymbol?_of_lexeme? h)
  change skipGap cs = '=' :: rest at hcs
  rw [next?, hcs] at h
  rw [hcs]
  split
  · -- two signs are one token
    rename_i more hdouble
    cases hdouble
    have hpair : lexeme? ('=' :: '=' :: more) = some (.symbol "==", more) :=
      lexeme?_symbol (s := "==") (by decide) rfl
    simp [hpair] at h
  · rename_i hsingle
    cases hsingle
    rfl
  · rename_i hnone
    exact absurd rfl (hnone rest)

theorem assign_refuses (h : ∀ rest, next? cs ≠ some (.symbol "=", rest)) :
    assign.Refuses level (skipGap cs) := by
  apply refuses_ofOption
  split
  · rfl
  · rename_i more hdouble hcs
    have hj : joins "=" more = false := by
      cases more with
      | nil => rfl
      | cons c more =>
        rw [← Bool.not_eq_true]
        intro hc
        cases beq_iff_eq.1 hc
        exact hdouble _ rfl
    refine absurd ?_ (h more)
    rw [next?, hcs]
    exact lexeme?_symbol (by decide) hj
  · rfl

/-- The comparison signs in the order in which they are tried. -/
def signs : List (String × Relation) :=
  [("==", .eq), ("!=", .ne), ("<=", .le), (">=", .ge), ("<", .lt), (">", .gt)]

def readSign (sign : String × Relation) : Reader Relation := do
  symbol sign.1
  pure sign.2

/-- The sign that starts with `s`, the longest one if there are two. -/
def longer : String → String
  | "<" => "<="
  | ">" => ">="
  | s => s

theorem refuses_sign {sign : String × Relation} (hsign : sign ∈ signs)
    (h : Ends [.symbol sign.1, .symbol (longer sign.1)] cs) :
    (readSign sign).Refuses level (skipGap cs) := by
  have hshort := h.ne List.mem_cons_self
  have hlong := h.ne (List.mem_cons_of_mem _ List.mem_cons_self)
  simp only [signs, List.mem_cons, List.not_mem_nil, or_false] at hsign
  rcases hsign with rfl | rfl | rfl | rfl | rfl | rfl
  · exact (refuses_plain (by decide) (fun _ => rfl) hshort).bind
  · exact (refuses_plain (by decide) (fun _ => rfl) hshort).bind
  · exact (refuses_plain (by decide) (fun _ => rfl) hshort).bind
  · exact (refuses_plain (by decide) (fun _ => rfl) hshort).bind
  · exact (refuses_short (by decide) (by decide) rfl (fun _ => rfl) (fun _ => joins_less)
      hshort hlong).bind
  · exact (refuses_short (by decide) (by decide) rfl (fun _ => rfl) (fun _ => joins_greater)
      hshort hlong).bind

/-- The signs that are tried before a relation is found are refused. -/
theorem reads_behind_signs {r : Relation} {ps : List (Reader Relation)}
    (tried : List (String × Relation)) (hnext : next? cs = some (t, rest))
    (htried : ∀ sign ∈ tried, sign ∈ signs ∧ t ∉ [.symbol sign.1, .symbol (longer sign.1)])
    (hps : (firstOf ps).Reads level (skipGap cs) r mid) :
    (firstOf (tried.map readSign ++ ps)).Reads level (skipGap cs) r mid := by
  induction tried with
  | nil => exact hps
  | cons sign tried ih =>
    obtain ⟨⟨hsign, ht⟩, htried⟩ := List.forall_mem_cons.1 htried
    exact (refuses_sign hsign (.of_next? hnext ht)).firstOf_reads (ih htried)

/-- Each comparison sign is read; what is tried before it is refused. -/
theorem relation_reads (level : Nat) {r : Relation} {ts : List Token}
    (h : Spells (relationTokens r ++ ts) cs rest) (hts : StartsOperand ts) :
    ∃ mid, relation.Reads level (skipGap cs) r mid ∧ Spells ts mid rest := by
  have behindSigns {w : String} {r : Relation} {ps : List (Reader Relation)}
      {behind after : List Char} (hnext : next? cs = some (.word w, behind))
      (hps : (firstOf ps).Reads level (skipGap cs) r after) :
      (firstOf (signs.map readSign ++ ps)).Reads level (skipGap cs) r after :=
    reads_behind_signs signs hnext (fun _ hsign => ⟨hsign, by simp⟩) hps
  cases r with
  | eq =>
    obtain ⟨mid, hnext, hmore⟩ := h.head
    exact ⟨mid, ((reads_symbol hnext).seq reads_pure).firstOf, hmore⟩
  | ne =>
    obtain ⟨mid, hnext, hmore⟩ := h.head
    exact ⟨mid, reads_behind_signs (signs.take 1) hnext (by simp [signs, longer])
      ((reads_symbol hnext).seq reads_pure).firstOf, hmore⟩
  | le =>
    obtain ⟨mid, hnext, hmore⟩ := h.head
    exact ⟨mid, reads_behind_signs (signs.take 2) hnext (by simp [signs, longer])
      ((reads_symbol hnext).seq reads_pure).firstOf, hmore⟩
  | ge =>
    obtain ⟨mid, hnext, hmore⟩ := h.head
    exact ⟨mid, reads_behind_signs (signs.take 3) hnext (by simp [signs, longer])
      ((reads_symbol hnext).seq reads_pure).firstOf, hmore⟩
  | lt =>
    obtain ⟨mid, hnext, hmore⟩ := h.head
    exact ⟨mid, reads_behind_signs (signs.take 4) hnext (by simp [signs, longer])
      ((reads_symbol hnext).seq reads_pure).firstOf, hmore⟩
  | gt =>
    obtain ⟨mid, hnext, hmore⟩ := h.head
    exact ⟨mid, reads_behind_signs (signs.take 5) hnext (by simp [signs, longer])
      ((reads_symbol hnext).seq reads_pure).firstOf, hmore⟩
  | isIn =>
    obtain ⟨mid, hnext, hmore⟩ := h.head
    refine ⟨mid, behindSigns hnext ?_, hmore⟩
    refine (refuses_word (by simp [hnext])).bind.firstOf_reads ?_
    exact ((reads_word hnext).seq reads_pure).firstOf
  | notIn =>
    obtain ⟨mid, hnext, hmore⟩ := h.head
    obtain ⟨mid', hin, hmore⟩ := hmore.head
    refine ⟨mid', behindSigns hnext ?_, hmore⟩
    exact ((reads_word hnext).seq (reads_gap.seq ((reads_word hin).seq reads_pure))).firstOf
  | is =>
    obtain ⟨mid, hnext, hmore⟩ := h.head
    refine ⟨mid, behindSigns hnext ?_, hmore⟩
    refine (refuses_word (by simp [hnext])).bind.firstOf_reads ?_
    refine (refuses_word (by simp [hnext])).bind.firstOf_reads ?_
    -- an operand does not start with `not`
    have hnot : ∀ rest, next? mid ≠ some (.word "not", rest) := by
      obtain ⟨u, us, rfl, hu⟩ := hts
      obtain ⟨mid', hnext, -⟩ := hmore.head
      intro rest hword
      cases hnext.symm.trans hword
      exact absurd hu (by decide)
    refine Refuses.firstOf_reads ?_ ((reads_word hnext).seq reads_pure).firstOf
    exact (reads_word hnext).bind_refuses (reads_gap.bind_refuses (refuses_word hnot).bind)
  | isNot =>
    obtain ⟨mid, hnext, hmore⟩ := h.head
    obtain ⟨mid', hnot, hmore⟩ := hmore.head
    refine ⟨mid', behindSigns hnext ?_, hmore⟩
    refine (refuses_word (by simp [hnext])).bind.firstOf_reads ?_
    refine (refuses_word (by simp [hnext])).bind.firstOf_reads ?_
    exact ((reads_word hnext).seq (reads_gap.seq ((reads_word hnot).seq reads_pure))).firstOf

theorem relation_refuses (h : Ends comparisonLeads cs) :
    relation.Refuses level (skipGap cs) := by
  have hleads : ∀ sign ∈ signs, ∀ t ∈ [Token.symbol sign.1, .symbol (longer sign.1)],
      t ∈ comparisonLeads := by decide
  have hsigns : ∀ p ∈ signs.map readSign, p.Refuses level (skipGap cs) :=
    List.forall_mem_map.2 fun sign hsign =>
      refuses_sign hsign fun t rest hnext ht => h t rest hnext (hleads sign hsign t ht)
  have first {w : String} {p : Reader Relation} (hlead : .word w ∈ comparisonLeads) :
      (do word w; p : Reader Relation).Refuses level (skipGap cs) :=
    (refuses_word (h.ne hlead)).bind
  refine refuses_firstOf (List.forall_mem_append.2 ⟨hsigns, ?_⟩)
  simp only [List.forall_mem_cons, List.not_mem_nil, false_implies, implies_true, and_true]
  exact ⟨first (by decide), first (by decide), first (by decide), first (by decide)⟩

namespace Repeats

variable {R : α → List Token → Prop} {as : List α} {ts : List Token}

theorem length_le (h : Repeats R as ts) (hne : ∀ a ts, R a ts → ts ≠ []) :
    as.length ≤ ts.length := by
  induction h with
  | nil => exact Nat.le_refl _
  | cons ha _ ih =>
    have := List.length_pos_iff.2 (hne _ _ ha)
    simp only [List.length_cons, List.length_append]
    omega

theorem concat (h : Repeats R as ts) {a : α} {us : List Token} (ha : R a us) :
    Repeats R (as ++ [a]) (ts ++ us) := by
  induction h with
  | nil =>
    have := Repeats.cons ha .nil
    simpa using this
  | cons hfirst _ ih =>
    rw [List.append_assoc]
    exact .cons hfirst ih

/-- A loop over phrases that each start with a token the one before cannot go on with. -/
theorem chained {step : Reader α} {leads : List Token} (h : Repeats R as ts)
    (hstep : ∀ {a ts cs rest}, R a ts → Spells ts cs rest → Ends leads rest →
      step.Reads level cs a rest)
    (hlead : ∀ {a ts}, R a ts → ∃ u us, ts = u :: us ∧ u ∉ leads)
    (hs : Spells ts cs rest) (hends : Ends leads rest) :
    Chained (step.Reads level) cs as rest ∧ Ends leads cs := by
  induction h generalizing cs with
  | nil =>
    cases hs
    exact ⟨.nil _, hends⟩
  | cons ha _ ih =>
    obtain ⟨mid, hfirst, hmore⟩ := hs.split
    obtain ⟨hchain, hmid⟩ := ih hmore
    obtain ⟨u, us, rfl, hu⟩ := hlead ha
    obtain ⟨_, hnext, -⟩ := hfirst.head
    exact ⟨.cons (hstep ha hfirst hmid) hchain, .of_next? hnext hu⟩

end Repeats

/-- The loop over phrases reads them all if what follows is refused. -/
theorem reads_repeats {R : α → List Token → Prop} {as : List α} {ts : List Token}
    {step : Reader α} {leads : List Token} (h : Repeats R as ts)
    (hstep : ∀ {a ts cs rest}, R a ts → Spells ts cs rest → Ends leads rest →
      step.Reads level cs a rest)
    (hlead : ∀ {a ts}, R a ts → ∃ u us, ts = u :: us ∧ u ∉ leads)
    (hs : Spells ts cs rest) (hends : Ends leads rest) (hstop : step.Refuses level rest) :
    (many step).Reads level cs as rest ∧ Ends leads cs := by
  obtain ⟨hchain, hcs⟩ := h.chained hstep hlead hs hends
  have hne (a : α) (ts : List Token) (hR : R a ts) : ts ≠ [] := by
    obtain ⟨u, us, rfl, -⟩ := hlead hR
    simp
  have hlen := h.length_le hne
  have hlen' := hs.length_le
  exact ⟨reads_many hchain (by omega) hstop, hcs⟩

theorem comma_reads (h : next? cs = some (.symbol ",", rest)) :
    comma.Reads level cs () (skipGap rest) :=
  reads_gap.seq ((reads_symbol h).seq reads_gap)

theorem comma_refuses (h : ∀ rest, next? cs ≠ some (.symbol ",", rest)) :
    comma.Refuses level cs :=
  reads_gap.bind_refuses (refuses_plain (by decide) (fun _ => rfl) h).bind

/-- A last comma or none, and the closing bracket behind it. -/
theorem closing_reads (level : Nat) {comma : Bool} (hclose : s ∈ [")", "]"])
    (h : Spells (commaIf comma ++ [.symbol s]) cs rest) :
    ∃ (last : Option Unit) (mid : List Char), (optional lastComma).Reads level cs last mid ∧
      last.isSome = comma ∧ (symbol s).Reads level (skipGap mid) () rest := by
  cases comma with
  | true =>
    obtain ⟨mid, hcomma, h⟩ := h.head
    exact ⟨some (), mid, (reads_gap.seq (reads_symbol hcomma)).optional, rfl,
      reads_symbol (Spells.single_iff.1 h)⟩
  | false =>
    have hnext := Spells.single_iff.1 h
    have hne : ∀ rest, next? cs ≠ some (.symbol ",", rest) := by
      intro r hr
      cases hnext.symm.trans hr
      exact absurd hclose (by decide)
    exact ⟨none, cs, (reads_gap.bind_refuses
      (refuses_plain (by decide) (fun _ => rfl) hne)).optional, rfl, reads_symbol hnext⟩

/-- A series is read behind a gap, and a comma that no further phrase follows stays. -/
theorem reads_series {R : α → List Token → Prop} {as : List α} {ts : List Token} {p : Reader α}
    {leads : List Token} (h : Series (.symbol ",") R as ts)
    (hp : ∀ {a ts cs rest}, R a ts → Spells ts cs rest → Ends leads rest →
      p.Reads level (skipGap cs) a rest)
    (hcomma : .symbol "," ∉ leads) (hs : Spells ts cs rest) (hends : Ends leads rest)
    (hstop : (do comma; p : Reader α).Refuses level rest) :
    (separated p comma).Reads level (skipGap cs) as rest := by
  cases h with
  | mk ha hmore =>
    obtain ⟨mid, hfirst, hmore'⟩ := hs.split
    have hstep {a : α} {ts : List Token} {cs rest : List Char} (hled : Led (.symbol ",") R a ts)
        (hs : Spells ts cs rest) (hends : Ends leads rest) :
        (do comma; p : Reader α).Reads level cs a rest := by
      cases hled with
      | mk ha =>
        obtain ⟨mid, hnext, hs⟩ := hs.head
        exact (comma_reads hnext).seq (hp ha hs hends)
    obtain ⟨hmany, hmid⟩ := reads_repeats hmore hstep (fun hled => by
      cases hled
      exact ⟨_, _, rfl, hcomma⟩) hmore' hends hstop
    exact (hp ha hfirst hmid).bind (hmany.bind reads_pure)

/-- The phrases one level deeper are read, and where there is such a level an item is
refused before a comma or a closing bracket. -/
structure Inner.Complete (inner : Inner) (P : Phrases) (level : Nat) : Prop where
  item : ∀ {t ts cs rest}, P.item t ts → Spells ts cs rest → Ends disjunctionLeads rest →
    inner.item.Reads level cs t rest
  negand : ∀ {t ts cs rest}, P.negand t ts → Spells ts cs rest → Ends comparisonLeads rest →
    inner.negand.Reads level cs t rest
  starts : ∀ {t ts}, P.item t ts → Starts ts
  unnamed : ∀ {t ts}, P.item t ts → Unnamed ts
  opened : ∀ {t ts}, P.item t ts → P.opened
  refuses : P.opened → ∀ {cs rest s}, next? cs = some (.symbol s, rest) →
    s ∈ [",", ")", "]"] → inner.item.Refuses level cs

section

variable {inner : Inner} {P : Phrases} (hinner : inner.Complete P level)

include hinner

/-- An item as it stands in a series. -/
theorem item_reads {t : Tree} {ts : List Token} (h : P.item t ts) (hs : Spells ts cs rest)
    (hends : Ends disjunctionLeads rest) : inner.item.Reads level (skipGap cs) t rest :=
  hinner.item h ((Spells.skipGap_iff (hinner.starts h).ne_nil).2 hs) hends

omit hinner in
/-- Where neither a comma nor a closing bracket goes on, a series ends before them. -/
theorem ends_of_closing {comma : Bool} {leads : List Token} (hclose : s ∈ [")", "]"])
    (hleads : ∀ s ∈ [",", ")", "]"], .symbol s ∉ leads)
    (h : Spells (commaIf comma ++ [.symbol s]) cs rest) : Ends leads cs := by
  cases comma with
  | true =>
    obtain ⟨_, hnext, -⟩ := h.head
    exact .of_next? hnext (hleads _ (by decide))
  | false =>
    exact .of_next? (Spells.single_iff.1 h) (hleads _ (List.mem_cons_of_mem _ hclose))

/-- Before a last comma or a closing bracket no item is read. -/
theorem item_refuses {comma : Bool} (ho : P.opened) (hclose : s ∈ [")", "]"])
    (h : Spells (commaIf comma ++ [.symbol s]) cs rest) :
    inner.item.Refuses level (skipGap cs) := by
  cases comma with
  | true =>
    obtain ⟨_, hnext, -⟩ := h.head
    rw [← next?_skipGap] at hnext
    exact hinner.refuses ho hnext (List.mem_cons_self ..)
  | false =>
    have hnext := Spells.single_iff.1 h
    rw [← next?_skipGap] at hnext
    exact hinner.refuses ho hnext (List.mem_cons_of_mem _ hclose)

omit hinner in
/-- Behind the last phrase of a series no further one is read, whether a comma follows or
not, if none is read before a closing bracket. -/
theorem comma_refuses_closing {p : Reader α} {comma : Bool} (hclose : s ∈ [")", "]"])
    (hp : ∀ {cs rest}, next? cs = some (.symbol s, rest) → p.Refuses level (skipGap cs))
    (h : Spells (commaIf comma ++ [.symbol s]) cs rest) :
    (do Grammar.comma; p : Reader α).Refuses level cs := by
  cases comma with
  | true =>
    obtain ⟨_, hnext, h⟩ := h.head
    exact (comma_reads hnext).bind_refuses (hp (Spells.single_iff.1 h))
  | false =>
    refine (comma_refuses fun r hr => ?_).bind
    cases (Spells.single_iff.1 h).symm.trans hr
    exact absurd hclose (by decide)

/-- The items of a series up to a last comma or the closing bracket. -/
theorem items_read {items : List Tree} {ts : List Token} {comma : Bool}
    (hclose : s ∈ [")", "]"]) (h : Series (.symbol ",") P.item items ts)
    (hs : Spells (ts ++ (commaIf comma ++ [.symbol s])) cs rest) :
    ∃ mid, (separated inner.item Grammar.comma).Reads level (skipGap cs) items mid ∧
      Spells (commaIf comma ++ [.symbol s]) mid rest := by
  obtain ⟨mid, hitems, hs⟩ := hs.split
  have ho : P.opened := by
    cases h with
    | mk hfirst => exact hinner.opened hfirst
  refine ⟨mid, reads_series h (item_reads hinner) (by decide) hitems
    (ends_of_closing hclose (by decide) hs) ?_, hs⟩
  refine comma_refuses_closing hclose (fun hnext => ?_) hs
  rw [← next?_skipGap] at hnext
  exact hinner.refuses ho hnext (List.mem_cons_of_mem _ hclose)

theorem parentheses_reads {items : List Tree} {ts : List Token} {comma : Bool}
    (h : Items P items ts)
    (hs : Spells (.symbol "(" :: (ts ++ (commaIf comma ++ [.symbol ")"]))) cs rest) :
    (parentheses inner).Reads level (skipGap cs) (parenthesis items comma) rest := by
  obtain ⟨mid, hopen, hs⟩ := hs.head
  have hitems : ∃ (found : Option (List Tree)) (mid₁ : List Char), found.getD [] = items ∧
      (optional (separated inner.item Grammar.comma)).Reads level (skipGap mid) found mid₁ ∧
        Spells (commaIf comma ++ [.symbol ")"]) mid₁ rest := by
    cases h with
    | none ho =>
      exact ⟨none, _, rfl, (item_refuses hinner ho (by decide) hs).bind.optional,
        (Spells.skipGap_iff (by simp)).2 hs⟩
    | some hseries =>
      obtain ⟨mid₁, hread, hs⟩ := items_read hinner (by decide) hseries hs
      exact ⟨some items, mid₁, rfl, hread.optional, hs⟩
  obtain ⟨found, mid₁, rfl, hfound, hs⟩ := hitems
  obtain ⟨last, mid₂, hlast, rfl, hclose⟩ := closing_reads level (by decide) hs
  exact (reads_symbol hopen).seq (reads_gap.seq (hfound.bind (hlast.bind
    (reads_gap.seq (hclose.seq reads_pure)))))

theorem brackets_reads {items : List Tree} {ts : List Token} {comma : Bool}
    (h : Series (.symbol ",") P.item items ts)
    (hs : Spells (.symbol "[" :: (ts ++ (commaIf comma ++ [.symbol "]"]))) cs rest) :
    (brackets inner).Reads level (skipGap cs) (.list items) rest := by
  obtain ⟨mid, hopen, hs⟩ := hs.head
  obtain ⟨mid₁, hitems, hs⟩ := items_read hinner (by decide) h hs
  obtain ⟨last, mid₂, hlast, -, hclose⟩ := closing_reads level (by decide) hs
  exact (reads_symbol hopen).seq (reads_gap.seq ((hitems.bind (hlast.seq reads_pure)).optional.bind
    (reads_gap.seq (hclose.seq reads_pure))))

theorem brackets_reads_empty (ho : P.opened)
    (hs : Spells [.symbol "[", .symbol "]"] cs rest) :
    (brackets inner).Reads level (skipGap cs) (.list []) rest := by
  obtain ⟨mid, hopen, hs⟩ := hs.head
  have hclose := Spells.single_iff.1 hs
  have hrefused : inner.item.Refuses level (skipGap mid) :=
    item_refuses hinner ho (by decide) (show Spells (commaIf false ++ _) mid rest from hs)
  rw [← next?_skipGap] at hclose
  exact (reads_symbol hopen).seq (reads_gap.seq (hrefused.bind.bind.optional.bind
    (reads_gap.seq ((reads_symbol hclose).seq reads_pure))))

/-- A primary is read behind a gap: which alternative it is shows in its first token. -/
theorem primary_reads {t : Tree} {ts : List Token} (h : Primary P t ts)
    (hs : Spells ts cs rest) : (primary inner).Reads level cs t rest := by
  have open_refuses (hnext : ∀ r, next? cs ≠ some (.symbol "(", r)) :
      (parentheses inner).Refuses level (skipGap cs) :=
    (refuses_plain (by decide) (fun _ => rfl) hnext).bind
  have bracket_refuses (hnext : ∀ r, next? cs ≠ some (.symbol "[", r)) :
      (brackets inner).Refuses level (skipGap cs) :=
    (refuses_plain (by decide) (fun _ => rfl) hnext).bind
  refine reads_gap.seq ?_
  cases h with
  | parentheses comma hitems => exact (parentheses_reads hinner hitems hs).firstOf
  | emptyList ho =>
    obtain ⟨mid, hnext, -⟩ := hs.head
    exact (open_refuses (by simp [hnext])).firstOf_reads (brackets_reads_empty hinner ho hs).firstOf
  | list comma hitems =>
    obtain ⟨mid, hnext, -⟩ := hs.head
    exact (open_refuses (by simp [hnext])).firstOf_reads (brackets_reads hinner hitems hs).firstOf
  | literal hl =>
    have hnext : ∀ s ∈ ["(", "["], ∀ r, next? cs ≠ some (.symbol s, r) := by
      intro s hs' r hr
      cases hl <;> obtain ⟨_, hnext, -⟩ := hs.head <;> cases hnext.symm.trans hr
      exact absurd hs' (by decide)
    exact (open_refuses (hnext _ (by decide))).firstOf_reads
      ((bracket_refuses (hnext _ (by decide))).firstOf_reads (literal_reads hl hs).map.firstOf)
  | @ident name hname =>
    have hnext := Spells.single_iff.1 hs
    have hliteral : literal.Refuses level (skipGap cs) := by
      refine literal_refuses hnext ?_ (by simp) (by simp) (by simp)
      intro w hw heq
      cases heq
      have hreserved : ∀ w ∈ ["True", "False", "None"], w ∈ reserved := by decide
      exact hname.notReserved (hreserved _ hw)
    exact (open_refuses (by simp [hnext])).firstOf_reads
      ((bracket_refuses (by simp [hnext])).firstOf_reads
        (hliteral.map.firstOf_reads (reads_name hnext hname.notReserved).map.firstOf))

omit hinner in
theorem primary_refuses (hnext : next? cs = some (.symbol s, rest)) (hs : s ∈ [",", ")", "]"]) :
    (primary inner).Refuses level cs := by
  have hne : s ≠ "(" ∧ s ≠ "[" ∧ s ≠ "-" := by
    simp only [List.mem_cons, List.not_mem_nil, or_false] at hs
    rcases hs with rfl | rfl | rfl <;> decide
  refine reads_gap.bind_refuses (refuses_firstOf ?_)
  simp only [List.forall_mem_cons, List.not_mem_nil, false_implies, implies_true, and_true]
  exact ⟨(refuses_plain (by decide) (fun _ => rfl) (by simp [hnext, hne])).bind,
    (refuses_plain (by decide) (fun _ => rfl) (by simp [hnext, hne])).bind,
    (literal_refuses hnext (by simp) (by simp [hne]) (by simp) (by simp)).map,
    (refuses_name (by simp [hnext])).map⟩

omit hinner in
/-- Before a comma or a closing bracket no expression is read. -/
theorem disjunction_refuses (hnext : next? cs = some (.symbol s, rest))
    (hs : s ∈ [",", ")", "]"]) : (disjunction inner).Refuses level cs := by
  have hnegation : (negation inner).Refuses level cs := by
    apply refuses_firstOf
    simp only [List.forall_mem_cons, List.not_mem_nil, false_implies, implies_true, and_true]
    exact ⟨reads_gap.bind_refuses (refuses_word (by simp [hnext])).bind,
      (primary_refuses hnext hs).bind.bind⟩
  exact hnegation.bind.bind

theorem passed_reads (passing : Passing) {t : Tree} {ts : List Token} (h : P.item t ts)
    (hs : Spells ts cs rest) (hends : Ends disjunctionLeads rest) :
    (do let value ← inner.item; pure (passing, value) : Reader (Passing × Tree)).Reads level
      (skipGap cs) (passing, t) rest :=
  (item_reads hinner h hs hends).bind reads_pure

/-- The reading of a name and a sign before an argument fails on any other argument. -/
theorem named_refuses {t : Tree} {ts : List Token} {next : String → Reader α} (h : P.item t ts)
    (hs : Spells ts cs rest) (hrest : ∀ r, next? rest ≠ some (.symbol "=", r)) :
    (do let key ← name; gap; assign; next key : Reader α).Refuses level (skipGap cs) := by
  obtain ⟨u, us, rfl⟩ := List.exists_cons_of_ne_nil (hinner.starts h).ne_nil
  obtain ⟨mid, hnext, hmore⟩ := hs.head
  by_cases hname : ∃ w, u = .word w ∧ w ∉ reserved
  · obtain ⟨w, rfl, hw⟩ := hname
    refine (reads_name hnext hw).bind_refuses (reads_gap.bind_refuses (assign_refuses ?_).bind)
    intro r hr
    cases us with
    | nil =>
      cases hmore
      exact hrest r hr
    | cons v us =>
      obtain ⟨mid', hnext', -⟩ := hmore.head
      cases hnext'.symm.trans hr
      exact hinner.unnamed h w us rfl
  · refine (refuses_name fun w r hr => ?_).bind
    cases hnext.symm.trans hr
    exact Classical.byContradiction fun hw => hname ⟨w, rfl, hw⟩

theorem argument_reads {arg : Passing × Tree} {ts : List Token} (h : Argument P arg ts)
    (hs : Spells ts cs rest) (hends : Ends (.symbol "=" :: disjunctionLeads) rest) :
    (argument inner).Reads level (skipGap cs) arg rest := by
  have hends' : Ends disjunctionLeads rest := fun t r hnext ht =>
    hends t r hnext (List.mem_cons_of_mem _ ht)
  have stars_refuse {u : Token} {mid : List Char} {ps : List (Reader (Passing × Tree))}
      (hnext : next? cs = some (u, mid)) (hu : ∀ s ∈ ["*", "**"], u ≠ .symbol s)
      (hps : (firstOf ps).Reads level (skipGap cs) arg rest) :
      (firstOf (
        (do symbol "**"; gap; let value ← inner.item; pure (.doubleStarred, value)) ::
        (do symbol "*"; gap; let value ← inner.item; pure (.starred, value)) :: ps) :
          Reader (Passing × Tree)).Reads level (skipGap cs) arg rest := by
    have hne (s : String) (hs : s ∈ ["*", "**"]) (r : List Char) :
        next? cs ≠ some (.symbol s, r) := by
      intro hr
      cases hnext.symm.trans hr
      exact hu s hs rfl
    refine (refuses_plain (by decide) (fun _ => rfl) (hne _ (by decide))).bind.firstOf_reads ?_
    exact (refuses_short (by decide) (show "**" ∈ symbols by decide) rfl (fun _ => rfl)
      (fun _ => joins_star) (hne _ (by decide)) (hne _ (by decide))).bind.firstOf_reads hps
  cases h with
  | doubleStarred hitem =>
    obtain ⟨mid, hmark, hs⟩ := hs.head
    exact ((reads_symbol hmark).seq (reads_gap.seq (passed_reads hinner _ hitem hs hends'))).firstOf
  | starred hitem =>
    obtain ⟨mid, hmark, hs⟩ := hs.head
    refine (refuses_plain (by decide) (fun _ => rfl) (by simp [hmark])).bind.firstOf_reads ?_
    exact ((reads_symbol hmark).seq (reads_gap.seq (passed_reads hinner _ hitem hs hends'))).firstOf
  | keyword hname hitem =>
    obtain ⟨mid, hkey, hs⟩ := hs.head
    obtain ⟨mid₁, hassign, hs⟩ := hs.head
    refine stars_refuse hkey (by simp) (Reads.firstOf ?_)
    exact (reads_name hkey hname.notReserved).bind (reads_gap.seq ((assign_reads hassign).seq
      (reads_gap.seq (passed_reads hinner _ hitem hs hends'))))
  | positional hitem =>
    have hu : ∃ u mid, next? cs = some (u, mid) ∧ ∀ s ∈ ["*", "**"], u ≠ .symbol s := by
      rcases hinner.starts hitem with ⟨u, us, rfl, hu⟩ | ⟨us, rfl⟩
      · obtain ⟨mid, hnext, -⟩ := hs.head
        refine ⟨u, mid, hnext, ?_⟩
        rintro s hstar rfl
        simp only [List.mem_cons, List.not_mem_nil, or_false] at hstar
        rcases hstar with rfl | rfl <;> exact absurd hu (by decide)
      · obtain ⟨mid, hnext, -⟩ := hs.head
        exact ⟨_, mid, hnext, by simp⟩
    obtain ⟨u, mid, hnext, hu⟩ := hu
    refine stars_refuse hnext hu ((named_refuses hinner hitem hs
      (hends.ne (List.mem_cons_self ..))).firstOf_reads (Reads.firstOf ?_))
    exact passed_reads hinner _ hitem hs hends'

theorem argument_refuses (ho : P.opened) (hnext : next? cs = some (.symbol s, rest))
    (hs : s ∈ [",", ")", "]"]) : (argument inner).Refuses level (skipGap cs) := by
  have hne : s ≠ "*" ∧ s ≠ "**" := by
    simp only [List.mem_cons, List.not_mem_nil, or_false] at hs
    rcases hs with rfl | rfl | rfl <;> decide
  have hitem : inner.item.Refuses level (skipGap cs) := by
    rw [← next?_skipGap] at hnext
    exact hinner.refuses ho hnext hs
  apply refuses_firstOf
  simp only [List.forall_mem_cons, List.not_mem_nil, false_implies, implies_true, and_true]
  exact ⟨(refuses_plain (by decide) (fun _ => rfl) (by simp [hnext, hne])).bind,
    (refuses_short (by decide) (show "**" ∈ symbols by decide) rfl (fun _ => rfl)
      (fun _ => joins_star) (by simp [hnext, hne]) (by simp [hnext, hne])).bind,
    (refuses_name (by simp [hnext])).bind, hitem.bind⟩

theorem series_arguments_opened {args : List (Passing × Tree)} {ts : List Token}
    (h : Series (.symbol ",") (Argument P) args ts) : P.opened := by
  cases h with
  | mk hfirst => cases hfirst <;> exact hinner.opened ‹_›

/-- The arguments of a call, with what closes them. -/
theorem arguments_read {args : List (Passing × Tree)} {ts : List Token} (h : Arguments P args ts)
    (hs : Spells (ts ++ [.symbol ")"]) cs rest) :
    ∃ (found : Option (List (Passing × Tree))) (mid : List Char), found.getD [] = args ∧
      (optional (arguments inner)).Reads level (skipGap cs) found mid ∧
        (symbol ")").Reads level (skipGap mid) () rest := by
  cases h with
  | none ho =>
    have hnext := Spells.single_iff.1 hs
    refine ⟨none, _, rfl, (argument_refuses hinner ho hnext (by decide)).bind.bind.optional, ?_⟩
    rw [← next?_skipGap] at hnext
    exact reads_symbol hnext
  | some comma hseries =>
    rw [List.append_assoc] at hs
    obtain ⟨mid, hargs, hs⟩ := hs.split
    have ho := series_arguments_opened hinner hseries
    have hread : (separated (argument inner) Grammar.comma).Reads level (skipGap cs) args mid :=
      reads_series hseries (argument_reads hinner) (by decide) hargs
        (ends_of_closing (by decide) (by decide) hs)
        (comma_refuses_closing (by decide)
          (fun hnext => argument_refuses hinner ho hnext (by decide)) hs)
    obtain ⟨last, mid', hlast, -, hclose⟩ := closing_reads level (by decide) hs
    exact ⟨_, mid', rfl, (hread.bind (hlast.seq reads_pure)).optional, hclose⟩

omit hinner in
theorem trailer_refuses (hends : Ends operandLeads cs) : (trailer inner).Refuses level cs := by
  refine reads_gap.bind_refuses (refuses_firstOf ?_)
  simp only [List.forall_mem_cons, List.not_mem_nil, false_implies, implies_true, and_true]
  refine ⟨?_, (refuses_plain (by decide) (fun _ => rfl) (hends.ne (by decide))).bind⟩
  cases hd : dropSymbol? ".".toList (skipGap cs) with
  | none => exact (refuses_ofOption (by rw [hd]; rfl)).bind
  | some behind =>
    -- a point that is no symbol is part of a numeral, which is no name
    have hread : (symbol ".").Reads level (skipGap cs) () behind :=
      reads_ofOption (by rw [hd]; rfl)
    refine hread.bind_refuses (reads_gap.bind_refuses (refuses_name fun w r hr => ?_).bind)
    have hjoin := not_joins_point hr
    exact absurd (lexeme?_of_dropSymbol? (by decide) hd hjoin) (hends.ne (by decide) _)

/-- A trailer with its tokens. -/
inductive TrailerPhrase (P : Phrases) : Trailer → List Token → Prop
  | attr {name : String} : IsName name →
    TrailerPhrase P (.attr name) [.symbol ".", .word name]
  | call {args : List (Passing × Tree)} {ts : List Token} : Arguments P args ts →
    TrailerPhrase P (.call args) (.symbol "(" :: (ts ++ [.symbol ")"]))

theorem trailer_reads {trailer : Trailer} {ts : List Token} (h : TrailerPhrase P trailer ts)
    (hs : Spells ts cs rest) : (Grammar.trailer inner).Reads level cs trailer rest := by
  refine reads_gap.seq ?_
  cases h with
  | attr hname =>
    obtain ⟨mid, hpoint, hs⟩ := hs.head
    refine Reads.firstOf ?_
    exact (reads_symbol hpoint).seq (reads_gap.seq
      ((reads_name (Spells.single_iff.1 hs) hname.notReserved).bind reads_pure))
  | call hargs =>
    obtain ⟨mid, hopen, hs⟩ := hs.head
    obtain ⟨found, mid', rfl, hfound, hclose⟩ := arguments_read hinner hargs hs
    have hpoint : (symbol ".").Refuses level (skipGap cs) := by
      apply refuses_ofOption
      rw [dropSymbol?_eq_some_iff.1 (dropSymbol?_of_lexeme? hopen)]
      rfl
    exact hpoint.bind.firstOf_reads ((reads_symbol hopen).seq (reads_gap.seq
      (hfound.bind (reads_gap.seq (hclose.seq reads_pure))))).firstOf

omit hinner in
/-- An operand is a primary with trailers behind it, applied from left to right. -/
theorem Operand.trailers {t : Tree} {ts : List Token} (h : Operand P t ts) :
    ∃ base trailers us vs, Primary P base us ∧ Repeats (TrailerPhrase P) trailers vs ∧
      t = trailers.foldl Trailer.apply base ∧ ts = us ++ vs := by
  induction h with
  | primary h => exact ⟨_, [], _, [], h, .nil, rfl, by simp⟩
  | attr _ hname ih =>
    obtain ⟨base, trailers, us, vs, hbase, htrailers, rfl, rfl⟩ := ih
    exact ⟨base, trailers ++ [.attr _], us, vs ++ _, hbase,
      htrailers.concat (.attr hname), by simp [Trailer.apply], by simp⟩
  | call _ hargs ih =>
    obtain ⟨base, trailers, us, vs, hbase, htrailers, rfl, rfl⟩ := ih
    exact ⟨base, trailers ++ [.call _], us, vs ++ _, hbase,
      htrailers.concat (.call hargs), by simp [Trailer.apply], by simp⟩

theorem operand_reads {t : Tree} {ts : List Token} (h : Operand P t ts) (hs : Spells ts cs rest)
    (hends : Ends operandLeads rest) : (operand inner).Reads level cs t rest := by
  obtain ⟨base, trailers, us, vs, hbase, htrailers, rfl, rfl⟩ := h.trailers
  obtain ⟨mid, hbase', htrailers'⟩ := hs.split
  obtain ⟨hmany, -⟩ := reads_repeats htrailers (fun h hs _ => trailer_reads hinner h hs)
    (fun h => by cases h <;> exact ⟨_, _, rfl, List.not_mem_nil⟩) htrailers'
    (fun _ _ _ => List.not_mem_nil) (trailer_refuses hends)
  exact (primary_reads hinner hbase hbase').bind (hmany.bind reads_pure)

theorem comparison_reads {t : Tree} {ts : List Token} (h : Comparison P t ts)
    (hs : Spells ts cs rest) (hends : Ends comparisonLeads rest) :
    (comparison inner).Reads level cs t rest := by
  have hstep {step : Relation × Tree} {ts : List Token} {cs rest : List Char}
      (h : Step P step ts) (hs : Spells ts cs rest) (hends : Ends operandLeads rest) :
      (do gap; let relation ← relation; let right ← operand inner; pure (relation, right) :
        Reader (Relation × Tree)).Reads level cs step rest := by
    cases h with
    | mk r hright =>
      obtain ⟨mid, hrelation, hs⟩ := relation_reads level hs hright.starts
      exact reads_gap.seq (hrelation.bind ((operand_reads hinner hright hs hends).bind reads_pure))
  have hstop : (do gap; let relation ← relation; let right ← operand inner; pure (relation, right) :
      Reader (Relation × Tree)).Refuses level rest :=
    reads_gap.bind_refuses (relation_refuses hends).bind
  cases h with
  | operand h =>
    have hnone := reads_many (.nil rest) (Nat.zero_le _) hstop
    exact (operand_reads hinner h hs hends.of_append).bind (hnone.bind reads_pure)
  | compare hleft hsteps =>
    obtain ⟨mid, hleft', hsteps'⟩ := hs.split
    obtain ⟨hmany, hmid⟩ := reads_repeats hsteps hstep (fun h => by
      cases h with
      | mk r _ => cases r <;> exact ⟨_, _, rfl, by decide⟩) hsteps' hends.of_append hstop
    exact (operand_reads hinner hleft hleft' hmid).bind (hmany.bind reads_pure)

theorem negation_reads {t : Tree} {ts : List Token} (h : Negation P t ts)
    (hs : Spells ts cs rest) (hends : Ends comparisonLeads rest) :
    (negation inner).Reads level cs t rest := by
  cases h with
  | not h =>
    obtain ⟨mid, hnot, hs⟩ := hs.head
    refine Reads.firstOf ?_
    exact reads_gap.seq ((reads_word hnot).seq ((hinner.negand h hs hends).bind reads_pure))
  | comparison h =>
    have hnot : ∀ r, next? cs ≠ some (.word "not", r) := by
      obtain ⟨u, us, rfl, hu⟩ := h.starts
      obtain ⟨mid, hnext, -⟩ := hs.head
      intro r hr
      cases hnext.symm.trans hr
      exact absurd hu (by decide)
    refine Refuses.firstOf_reads ?_ (comparison_reads hinner h hs hends).firstOf
    exact reads_gap.bind_refuses (refuses_word hnot).bind

omit hinner in
/-- A chain of what a reader reads, with a word between. -/
theorem chain_reads {p : Reader Tree} {R : Tree → List Token → Prop} {c : Connective}
    {leads : List Token} (hw : connectiveToken c = .word w)
    (hp : ∀ {t ts cs rest}, R t ts → Spells ts cs rest → Ends leads rest →
      p.Reads level cs t rest)
    (hlead : .word w ∉ leads) {t : Tree} {ts : List Token} (h : ChainPhrase c R t ts)
    (hs : Spells ts cs rest) (hends : Ends (leads ++ [.word w]) rest) :
    (do
      let first ← p
      let more ← many (do gap; word w; p)
      pure (chainOf c first more) : Reader Tree).Reads level cs t rest := by
  have hstop : (do gap; word w; p : Reader Tree).Refuses level rest :=
    reads_gap.bind_refuses (refuses_word (hends.ne (by simp))).bind
  cases h with
  | single h =>
    have hnone := reads_many (.nil rest) (Nat.zero_le _) hstop
    exact (hp h hs hends.of_append).bind (hnone.bind reads_pure)
  | chain hfirst hmore =>
    obtain ⟨mid, hfirst', hmore'⟩ := hs.split
    have hstep {t : Tree} {ts : List Token} {cs rest : List Char}
        (h : Led (connectiveToken c) R t ts) (hs : Spells ts cs rest) (hends : Ends leads rest) :
        (do gap; word w; p : Reader Tree).Reads level cs t rest := by
      cases h with
      | mk h =>
        obtain ⟨mid, hnext, hs⟩ := hs.head
        rw [hw] at hnext
        exact reads_gap.seq ((reads_word hnext).seq (hp h hs hends))
    obtain ⟨hmany, hmid⟩ := reads_repeats hmore hstep (fun h => by
      cases h
      exact ⟨_, _, rfl, by rw [hw]; exact hlead⟩) hmore' hends.of_append hstop
    exact (hp hfirst hfirst' hmid).bind (hmany.bind reads_pure)

theorem disjunction_reads {t : Tree} {ts : List Token} (h : Disjunction P t ts)
    (hs : Spells ts cs rest) (hends : Ends disjunctionLeads rest) :
    (disjunction inner).Reads level cs t rest :=
  chain_reads rfl (chain_reads rfl (negation_reads hinner) (by decide)) (by decide) h hs hends

end

theorem Fits.mono {guard : Guard} {m n : Nat} (h : Fits guard n) (hle : m ≤ n) : Fits guard m :=
  h.imp_right (Nat.le_trans hle)

/-- Where `depth` more levels fit, the readers of sub-expressions read the phrases of that
depth. -/
theorem inner_complete {guard : Guard} {depth level : Nat} (hfit : Fits guard (level + depth)) :
    (inner guard depth).Complete (phrases depth) level := by
  induction depth generalizing level with
  | zero =>
    exact ⟨fun h => h.elim, fun h => h.elim, phrases_item_starts, phrases_item_unnamed,
      fun h => h.elim, fun h => h.elim⟩
  | succ depth ih =>
    have hdeeper : (inner guard depth).Complete (phrases depth) (level + 1) :=
      ih (hfit.mono (by omega))
    have hlevel : Fits guard (level + 1) := hfit.mono (by omega)
    exact ⟨fun h hs hends => (disjunction_reads hdeeper h hs hends).nested hlevel,
      fun h hs hends => (negation_reads hdeeper h hs hends).nested hlevel,
      phrases_item_starts, phrases_item_unnamed, fun _ => trivial,
      fun _ _ _ _ hnext hs => (disjunction_refuses hnext hs).nested hlevel⟩

end RowFilter.Grammar
