import RowFilter.Proofs.Grammar.Compositional
import RowFilter.Proofs.Grammar.Sentence
import RowFilter.Proofs.Rendering.Literals
import RowFilter.Proofs.Tree.Subtrees

/-! Well formed trees: those that some sentence of the grammar may stand for. Whatever is
read from a source is well formed. -/

namespace RowFilter

open Grammar

/-- No number has the value of the numeral: no integer of 64 bits or, where a point or an
exponent is written, no finite double that it rounds to. -/
def Numeral.OutOfRange (n : Numeral) : Prop :=
  (n.isWhole = true → ∀ k : Int64,
      k.toInt ≠ if n.negative then -(n.significand : Int) else n.significand) ∧
    (n.isWhole = false → n.toBinary64.isFinite = false)

theorem Literal.WellFormed.outOfRange {text : String} (h : (Literal.outOfRange text).WellFormed) :
    ∃ n : Numeral, n.magnitude.Written ∧ n.text = text ∧ n.OutOfRange := by
  obtain ⟨n, hn⟩ := h
  obtain ⟨htext, hwhole, hbinary⟩ := literalOf_eq_outOfRange_iff.1 hn.literal
  refine ⟨n, hn.written, htext, fun h k hk => ?_, hbinary⟩
  have hnone := hwhole h
  rw [Numeral.int64?, ← hk, int64?_toInt] at hnone
  cases hnone

namespace Tree

/-- The names, literals and numbers of operands that a single node may have. -/
def NodeWellFormed : Tree → Prop
  | .chain _ operands => 2 ≤ operands.length
  | .compare _ steps => steps ≠ []
  | .ident name => IsName name
  | .literal l => l.WellFormed
  | .attr _ name => IsName name
  | .call _ args => Nameable args
  | .not _ | .list _ | .tuple _ => True

def WellFormed : Tree → Prop := Everywhere NodeWellFormed

theorem wellFormed_iff {t : Tree} :
    t.WellFormed ↔ t.NodeWellFormed ∧ ∀ u ∈ t.children, u.WellFormed := everywhere_iff

end Tree

namespace Grammar

theorem LiteralPhrase.wellFormed {l : Literal} {ts : List Token} (h : LiteralPhrase l ts) :
    l.WellFormed := by
  have hmagnitude {n : Numeral} (hn : n.Written) (negative : Bool) :
      ({ n with negative := negative } : Numeral).magnitude = n := by
    rw [Numeral.magnitude, ← hn.unsigned]
  cases h with
  | number hn => exact literalOf_wellFormed ((hmagnitude hn _).symm ▸ hn)
  | negative hn => exact literalOf_wellFormed ((hmagnitude hn _).symm ▸ hn)
  | true | false | none | text => trivial

section

variable {α : Type} {R : Tree → List Token → Prop} {p : Tree → Prop}

theorem Behind.snd {lead : α → List Token} (h : ∀ t ts, R t ts → p t) (a : α × Tree)
    (ts : List Token) (hbehind : Behind lead R a ts) : p a.2 := by
  cases hbehind with
  | mk _ hR => exact h _ _ hR

theorem Commas.forall {R : α → List Token → Prop} {p : α → Prop} (h : ∀ a ts, R a ts → p a)
    {as : List α} {ts : List Token} (hcommas : Commas R as ts) : ∀ a ∈ as, p a := by
  rcases hcommas with ⟨rfl, -⟩ | hseries
  · simp
  · exact hseries.forall h

end

theorem compositional_wellFormed : Compositional fun t _ => t.WellFormed where
  ident hname := Tree.wellFormed_iff.2 ⟨hname, by simp [Tree.children]⟩
  literal h := Tree.wellFormed_iff.2 ⟨h.wellFormed, by simp [Tree.children]⟩
  group h := h
  tuple _ h := Tree.wellFormed_iff.2 ⟨trivial, h.forall (p := Tree.WellFormed) fun _ _ h => h⟩
  list _ h := Tree.wellFormed_iff.2 ⟨trivial, h.forall (p := Tree.WellFormed) fun _ _ h => h⟩
  attr h hname := Tree.wellFormed_iff.2 ⟨hname, by simpa [Tree.children] using h⟩
  not h := Tree.wellFormed_iff.2 ⟨trivial, by simpa [Tree.children] using h⟩
  chain h hlen := Tree.wellFormed_iff.2 ⟨hlen, h.forall (p := Tree.WellFormed) fun _ _ h => h⟩
  call _ h hargs hname := by
    have hvalues := hargs.forall (Behind.snd (p := Tree.WellFormed) fun _ _ h => h)
    refine Tree.wellFormed_iff.2 ⟨hname, List.forall_mem_cons.2 ⟨h, fun u hu => ?_⟩⟩
    obtain ⟨arg, harg, rfl⟩ := List.mem_map.1 hu
    exact hvalues arg harg
  compare h hsteps hne := by
    have hvalues := hsteps.forall (Behind.snd (p := Tree.WellFormed) fun _ _ h => h)
    refine Tree.wellFormed_iff.2 ⟨hne, List.forall_mem_cons.2 ⟨h, fun u hu => ?_⟩⟩
    obtain ⟨step, hstep, rfl⟩ := List.mem_map.1 hu
    exact hvalues step hstep

end Grammar

/-- Whatever is read from a source is well formed. -/
theorem Tree.wellFormed_of_parse {source : String} {t : Tree} (h : Tree.parse source = .ok t) :
    t.WellFormed := by
  obtain ⟨ts, rest, hsentence, -, -⟩ := Tree.parse_eq_ok_iff.1 h
  exact (compositional_wellFormed.sentences maxNesting).1 t ts hsentence

end RowFilter
