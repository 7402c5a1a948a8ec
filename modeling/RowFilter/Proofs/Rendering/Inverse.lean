import RowFilter.Proofs.Grammar.Limit
import RowFilter.Proofs.Rendering.RoundTrip

/-! Rendering and parsing are inverse on trees built by hand. What makes a tree printable is
a condition on each of its nodes; the levels that its text opens then decide whether the
text is read back or is too deep. -/

namespace RowFilter

open Text Grammar

namespace Tree

/-- What a node of a printable tree has to satisfy. -/
def NodePrintable : Tree → Prop
  | .chain _ operands => 2 ≤ operands.length
  | .compare _ steps => steps ≠ []
  | .ident name => IsName name
  | .literal (.float x) => x.isFinite = true
  | .literal (.outOfRange text) => ∃ n : Numeral, n.magnitude.Written ∧ n.text = text ∧
      (n.isWhole = true → n.int64? = none) ∧ (n.isWhole = false → n.toBinary64.isFinite = false)
  | .attr base name =>
    IsName name ∧ base.isLoose = false ∧ ∀ value, base = .literal value → value.isWhole = false
  | .call callee args =>
    callee.isLoose = false ∧ ∀ arg ∈ args, ∀ name, arg.1 = .keyword name → IsName name
  | _ => True

variable {t : Tree}

theorem outOfRange_wellFormed_iff {text : String} :
    (Literal.outOfRange text).WellFormed ↔ NodePrintable (.literal (.outOfRange text)) := by
  constructor
  · intro h
    obtain ⟨n, hn⟩ := h
    exact ⟨n, hn.written, literalOf_eq_outOfRange_iff.1 hn.literal⟩
  · intro h
    obtain ⟨n, hwritten, hn⟩ := h
    exact ⟨n, hwritten, literalOf_eq_outOfRange_iff.2 hn⟩

theorem nodePrintable_iff : t.NodePrintable ↔ t.NodeWellFormed ∧ t.TightBase ∧ t.NumeralApart := by
  cases t with
  | chain | not | compare | ident | list | tuple =>
    simp [NodePrintable, NodeWellFormed, TightBase, NumeralApart]
  | literal l =>
    cases l with
    | outOfRange text =>
      rw [← outOfRange_wellFormed_iff]
      simp [NodeWellFormed, TightBase, NumeralApart]
    | _ => simp [NodePrintable, NodeWellFormed, Literal.WellFormed, TightBase, NumeralApart]
  | attr base name =>
    have happart : (attr base name).NumeralApart ↔
        ∀ value, base = .literal value → value.isWhole = false := by
      cases base <;> simp [NumeralApart]
    rw [happart]
    rfl
  | call callee args =>
    have hname : (∀ arg ∈ args, ∀ name, arg.1 = .keyword name → IsName name) ↔ Nameable args := by
      constructor
      · exact fun h name value hmem => h _ hmem name rfl
      · rintro h ⟨passing, value⟩ hmem name rfl
        exact h name value hmem
    simp only [NodePrintable, NodeWellFormed, TightBase, NumeralApart, hname, and_true]
    exact And.comm

/-- A tree is printable everywhere if it is well formed and no base goes astray. -/
theorem printable_iff : t.Everywhere NodePrintable ↔
    t.WellFormed ∧ t.Everywhere TightBase ∧ t.Everywhere NumeralApart := by
  constructor
  · intro h
    refine ⟨?_, ?_, ?_⟩
    · exact h.imp fun _ hnode => (nodePrintable_iff.1 hnode).1
    · exact h.imp fun _ hnode => (nodePrintable_iff.1 hnode).2.1
    · exact h.imp fun _ hnode => (nodePrintable_iff.1 hnode).2.2
  · intro h
    obtain ⟨hwellFormed, htight, hnumeral⟩ := h
    induction t using induct with
    | node t ih =>
      exact ⟨nodePrintable_iff.2 ⟨hwellFormed.here, htight.here, hnumeral.here⟩, fun u hu =>
        ih u hu (hwellFormed.child hu) (htight.child hu) (hnumeral.child hu)⟩

/-- The text of a printable tree is read as the tree where its levels fit below the limit,
and is too deep where they do not. -/
theorem parse_render_printable (h : t.Everywhere NodePrintable) :
    (1 + t.cost ≤ maxNesting → parse t.render = .ok t) ∧
      (maxNesting < 1 + t.cost → ∃ place, parse t.render = .error ⟨.tooDeep, place⟩) := by
  obtain ⟨ht, htight, hnumeral⟩ := printable_iff.1 h
  refine ⟨fun hcost => ?_, fun hcost => ?_⟩
  · exact parse_render ht ⟨htight, hnumeral, show t.cost < maxNesting by omega⟩
  · have hphrase : (phrases (t.cost + 1)).item t t.tokens := (sentential ht htight _ (Nat.le_refl _)).1
    have hspells := spells_render ht ((clear_pieces ht htight).2 hnumeral)
    rcases parse_phrase hphrase hspells rfl with hread | hdeep
    · have hshallow := (faithful_of_parse_render ht hread (alike_self ht)).shallow
      omega
    · exact hdeep

/-- `not (a.b in (9223372036854775808,))`: one integer more than fits. -/
theorem printable_outOfRange :
    Everywhere NodePrintable (.not (.compare (.attr (.ident "a") "b")
      [(.isIn, .tuple [.literal (.outOfRange "9223372036854775808")])])) ∧
    Tree.parse (render (.not (.compare (.attr (.ident "a") "b")
      [(.isIn, .tuple [.literal (.outOfRange "9223372036854775808")])]))) =
        .ok (.not (.compare (.attr (.ident "a") "b")
          [(.isIn, .tuple [.literal (.outOfRange "9223372036854775808")])])) := by
  have hname (w : String) (c : Char) (h : w.toList = [c]) (hc : isWordStart c = true)
      (hw : w ∉ reserved) : IsName w := ⟨isWord_of_all h hc rfl, hw⟩
  have hliteral : NodePrintable (.literal (.outOfRange "9223372036854775808")) := by
    refine ⟨⟨false, "9223372036854775808".toList, none, none⟩, ⟨rfl, ?_, by simp [Numeral.magnitude],
      .inl (by decide), by simp [Numeral.magnitude]⟩, by decide, fun _ => by decide +kernel,
      fun h => absurd h (by decide)⟩
    exact List.all_eq_true.1 (by decide)
  have hleaf {u : Tree} (h : NodePrintable u) (hu : u.children = []) :
      Everywhere NodePrintable u := .mk h (by simp [hu])
  have hident : NodePrintable (.ident "a") := hname "a" 'a' rfl rfl (by decide)
  have hattr : Everywhere NodePrintable (.attr (.ident "a") "b") :=
    .mk ⟨hname "b" 'b' rfl rfl (by decide), rfl, by simp⟩
      (by simpa [children] using hleaf hident rfl)
  have htuple : Everywhere NodePrintable
      (.tuple [.literal (.outOfRange "9223372036854775808")]) :=
    .mk trivial (by simpa [children] using hleaf hliteral rfl)
  have hcompare : Everywhere NodePrintable (.compare (.attr (.ident "a") "b")
      [(.isIn, .tuple [.literal (.outOfRange "9223372036854775808")])]) :=
    .mk (by simp [NodePrintable]) (by simpa [children] using ⟨hattr, htuple⟩)
  have hprintable : Everywhere NodePrintable (.not (.compare (.attr (.ident "a") "b")
      [(.isIn, .tuple [.literal (.outOfRange "9223372036854775808")])])) :=
    .mk trivial (by simpa [children] using hcompare)
  exact ⟨hprintable, (parse_render_printable hprintable).1 (by decide +kernel)⟩

end Tree

end RowFilter
