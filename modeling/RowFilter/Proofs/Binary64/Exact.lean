import RowFilter.Binary64.Shortest

/-! Rounding gives a double back. A quotient that is exactly the magnitude of a rank
rounds to that rank; so the exact decimal of a double reads back, and therefore the
shortest one does as well. -/

namespace RowFilter.Binary64

theorem pow_log2_units (block offset : Nat) (h : offset < blockSize) :
    Nat.log2 ((blockSize + offset) * Nat.pow 2 block) = 52 + block := by
  have hpos : 0 < Nat.pow 2 block := Nat.pow_pos (by decide)
  have hne : (blockSize + offset) * Nat.pow 2 block ≠ 0 :=
    Nat.mul_ne_zero (by simp [blockSize]) (Nat.ne_of_gt hpos)
  have hlow : 2 ^ (52 + block) = blockSize * Nat.pow 2 block := by
    rw [Nat.pow_add]
    rfl
  have hhigh : 2 ^ (52 + block + 1) = (blockSize + blockSize) * Nat.pow 2 block := by
    rw [Nat.pow_succ, hlow, Nat.mul_two, ← Nat.add_mul]
  rw [Nat.log2_eq_iff hne, hlow, hhigh]
  exact ⟨Nat.mul_le_mul_right _ (Nat.le_add_right _ _),
    Nat.mul_lt_mul_of_pos_right (Nat.add_lt_add_left h _) hpos⟩

/-- The quotient is in steps exactly the magnitude of the rank. -/
theorem nearestRank_eq {num den rank : Nat} (hden : 0 < den)
    (h : num * stepsPerOne = units rank * den) : nearestRank num den = rank := by
  have hquotient : num * stepsPerOne / den = units rank := by
    rw [h, Nat.mul_div_cancel _ hden]
  simp only [nearestRank, hquotient]
  rw [h]
  by_cases hsmall : rank < blockSize
  · rw [units_of_lt hsmall]
    have hlog : Nat.log2 rank - 52 = 0 := by
      by_cases hzero : rank = 0
      · subst hzero
        rfl
      · have := (Nat.log2_lt hzero).2 (show rank < 2 ^ 52 from hsmall)
        omega
    rw [hlog]
    simp [divHalfEven_mul _ _ hden]
  · have hpow (block : Nat) : 0 < Nat.pow 2 block := Nat.pow_pos (by decide)
    obtain ⟨block, offset, hoffset, rfl⟩ :
        ∃ block offset, offset < blockSize ∧ rank = (block + 1) * blockSize + offset := by
      refine ⟨rank / blockSize - 1, rank % blockSize, Nat.mod_lt _ (by decide), ?_⟩
      unfold blockSize at *
      omega
    rw [units_block block offset hoffset, pow_log2_units block offset hoffset,
      Nat.add_sub_cancel_left, Nat.mul_right_comm, Nat.mul_assoc,
      divHalfEven_mul _ _ (Nat.mul_pos hden (hpow block))]
    unfold blockSize
    omega

theorem ofRatio_eq {negative : Bool} {num den : Nat} {rank : Fin finiteCount} (hden : 0 < den)
    (h : num * stepsPerOne = units rank * den) :
    ofRatio negative num den = .finite negative rank := by
  rw [ofRatio, nearestRank_eq hden h, ofRank, dif_pos rank.isLt]

/-- The number with the sign `negative`. -/
def withSign (negative : Bool) : Binary64 → Binary64
  | .finite _ rank => .finite negative rank
  | .infinite _ => .infinite negative
  | .nan => .nan

theorem ofDecimal_withSign (negative : Bool) (significand : Nat) (exponent : Int) :
    ofDecimal negative significand exponent =
      withSign negative (ofDecimal false significand exponent) := by
  have hratio (num den : Nat) :
      ofRatio negative num den = withSign negative (ofRatio false num den) := by
    unfold ofRatio ofRank
    split <;> rfl
  unfold ofDecimal
  split
  · rfl
  split
  · rfl
  split
  · rfl
  split <;> exact hratio _ _

theorem ofDecimal_of_readsBack {negative : Bool} {rank : Fin finiteCount} {d : Decimal}
    (h : readsBack rank d = true) :
    ofDecimal negative d.significand d.exponent = .finite negative rank := by
  rw [ofDecimal_withSign]
  unfold readsBack at h
  split at h
  · rename_i hd
    rw [hd, withSign, Fin.ext (beq_iff_eq.1 h)]
  · cases h

/-- No guard of the reading answers for a number that is nonzero and not too small. -/
theorem ofDecimal_negSucc {negative : Bool} {significand e : Nat} (hne : significand ≠ 0)
    (hlog : e ≤ 399 + Nat.log2 significand) :
    ofDecimal negative significand (.negSucc e) =
      ofRatio negative significand (Nat.pow 10 (e + 1)) := by
  unfold ofDecimal
  rw [if_neg hne, if_neg (by omega), if_neg (by omega)]

theorem units_eq_zero_iff {rank : Nat} : units rank = 0 ↔ rank = 0 := by
  by_cases hsmall : rank < blockSize
  · rw [units_of_lt hsmall]
  · rw [units, if_neg hsmall]
    have hpow : Nat.pow 2 (rank / blockSize - 1) ≠ 0 := Nat.ne_of_gt (Nat.pow_pos (by decide))
    have hne : (blockSize + rank % blockSize) * Nat.pow 2 (rank / blockSize - 1) ≠ 0 :=
      Nat.mul_ne_zero (by unfold blockSize; omega) hpow
    exact ⟨fun h => absurd h hne, fun h => absurd (h ▸ by decide : rank < blockSize) hsmall⟩

theorem ofDecimal_zero (negative : Bool) (exponent : Int) :
    ofDecimal negative 0 exponent = zero negative := by
  unfold ofDecimal
  rw [if_pos rfl]

/-- A whole number is read back with one more digit behind the point. -/
theorem ofDecimal_whole {negative : Bool} {rank : Fin finiteCount} {whole : Nat}
    (h : whole * stepsPerOne = units rank) :
    ofDecimal negative (whole * 10) (-1) = .finite negative rank := by
  by_cases hzero : whole = 0
  · have hrank : rank = ⟨0, by decide⟩ :=
      Fin.ext (units_eq_zero_iff.1 (by rw [← h, hzero, Nat.zero_mul]))
    rw [hzero, hrank]
    rfl
  · change ofDecimal negative (whole * 10) (.negSucc 0) = _
    rw [ofDecimal_negSucc (Nat.mul_ne_zero hzero (by decide)) (by omega)]
    refine ofRatio_eq (by decide) ?_
    rw [← h, Nat.mul_right_comm, Nat.pow_eq]

theorem divHalfEven_mul_mul (num den : Nat) {c : Nat} (hc : 0 < c) :
    divHalfEven (num * c) (den * c) = divHalfEven num den := by
  have hmod : 2 * (num * c % (den * c)) = 2 * (num % den) * c := by
    rw [Nat.mul_mod_mul_right, Nat.mul_assoc]
  simp only [divHalfEven, Nat.mul_div_mul_right _ _ hc, hmod, Nat.mul_lt_mul_right hc]

theorem nearestRank_mul_mul (num den : Nat) {c : Nat} (hc : 0 < c) :
    nearestRank (num * c) (den * c) = nearestRank num den := by
  have hscaled : num * c * stepsPerOne = num * stepsPerOne * c := Nat.mul_right_comm _ _ _
  simp only [nearestRank, hscaled, Nat.mul_div_mul_right _ _ hc, Nat.mul_right_comm den c,
    divHalfEven_mul_mul _ _ hc]

theorem ofRatio_mul_mul {negative : Bool} (num den : Nat) {c : Nat} (hc : 0 < c) :
    ofRatio negative (num * c) (den * c) = ofRatio negative num den := by
  rw [ofRatio, nearestRank_mul_mul num den hc, ofRatio]

/-- A whole decimal is read back with one more digit behind the point. -/
theorem ofDecimal_point {negative : Bool} {significand e : Nat} {rank : Fin finiteCount}
    (h : ofDecimal negative significand (.ofNat e) = .finite negative rank)
    (hne : significand ≠ 0) :
    ofDecimal negative (significand * Nat.pow 10 e * 10) (-1) = .finite negative rank := by
  have hpow : Nat.pow 10 e ≠ 0 := Nat.ne_of_gt (Nat.pow_pos (by decide))
  have hread : ofRatio negative (significand * Nat.pow 10 e) 1 = .finite negative rank := by
    unfold ofDecimal at h
    rw [if_neg hne] at h
    split at h
    · cases h
    · have hexponent : (0 : Int) ≤ Int.ofNat e := Int.natCast_nonneg e
      rwa [if_neg (by omega)] at h
  have hten : Nat.pow 10 (0 + 1) = 1 * 10 := rfl
  change ofDecimal negative (significand * Nat.pow 10 e * 10) (.negSucc 0) = _
  rw [ofDecimal_negSucc (Nat.mul_ne_zero (Nat.mul_ne_zero hne hpow) (by decide)) (by omega),
    hten, ofRatio_mul_mul _ _ (by decide), hread]

theorem le_log2_mul_five_pow {n k m : Nat} (hn : n ≠ 0) (h : k ≤ m) :
    k ≤ Nat.log2 (n * Nat.pow 5 m) := by
  have hpos : 0 < Nat.pow 5 m := Nat.pow_pos (by decide)
  rw [Nat.le_log2 (Nat.mul_ne_zero hn (Nat.ne_of_gt hpos))]
  calc 2 ^ k ≤ 5 ^ k := Nat.pow_le_pow_left (by decide) k
    _ ≤ 5 ^ m := Nat.pow_le_pow_right (by decide) h
    _ ≤ n * 5 ^ m := Nat.le_mul_of_pos_left _ (Nat.pos_of_ne_zero hn)

/-- A number of steps of `2 ^ -k`, written with `k` digits behind the point. -/
theorem ofDecimal_steps {negative : Bool} {rank : Fin finiteCount} {e k : Nat} (hk : k = e + 1)
    (hsteps : stepsPerOne = Nat.pow 2 k) (hne : units rank ≠ 0) :
    ofDecimal negative (units rank * Nat.pow 5 k) (.negSucc e) = .finite negative rank := by
  have hpos : 0 < Nat.pow 5 k := Nat.pow_pos (by decide)
  have hlog : e ≤ 399 + Nat.log2 (units rank * Nat.pow 5 k) :=
    Nat.le_trans (le_log2_mul_five_pow hne (hk ▸ Nat.le_succ e)) (Nat.le_add_left _ _)
  rw [ofDecimal_negSucc (Nat.mul_ne_zero hne (Nat.ne_of_gt hpos)) hlog, ← hk]
  refine ofRatio_eq (Nat.pow_pos (by decide)) ?_
  have hten : Nat.pow 10 k = Nat.pow 5 k * Nat.pow 2 k := Nat.mul_pow 5 2 k
  rw [hten, hsteps, Nat.mul_assoc]

theorem readsBack_exactDecimal {rank : Fin finiteCount} (hne : units rank ≠ 0) :
    readsBack rank (exactDecimal rank) = true := by
  have hread : ofDecimal false (exactDecimal rank).significand (exactDecimal rank).exponent =
      .finite false rank := ofDecimal_steps rfl rfl hne
  rw [readsBack, hread]
  simp

theorem readsBack_of_withDigits? {tie : Tie} {rank count : Nat} {d : Decimal}
    (h : withDigits? tie rank count = some d) : readsBack rank d = true := by
  have hpick {near far : Decimal} (h : (if readsBack rank near then some near
      else if readsBack rank far then some far else none) = some d) : readsBack rank d = true := by
    split at h
    · rename_i hnear
      rwa [← Option.some.inj h]
    · split at h
      · rename_i hfar
        rwa [← Option.some.inj h]
      · cases h
  simp only [withDigits?] at h
  exact hpick h

/-- The shortest decimal reads back. -/
theorem readsBack_shortest (tie : Tie) {rank : Fin finiteCount} (hne : units rank ≠ 0) :
    readsBack rank (shortest tie rank) = true := by
  have hrank : rank.val ≠ 0 := by
    intro hzero
    exact hne (by rw [hzero]; rfl)
  rw [shortest, if_neg hrank]
  cases hfind : (List.range 17).findSome? fun fewer => withDigits? tie rank (fewer + 1) with
  | none => exact readsBack_exactDecimal hne
  | some d =>
    obtain ⟨fewer, -, hd⟩ := List.exists_of_findSome?_eq_some hfind
    exact readsBack_of_withDigits? hd

theorem ofDecimal_shortest (tie : Tie) (negative : Bool) (rank : Fin finiteCount) :
    ofDecimal negative (shortest tie rank).significand (shortest tie rank).exponent =
      .finite negative rank := by
  by_cases hzero : units rank = 0
  · have hrank : rank = ⟨0, by decide⟩ := Fin.ext (units_eq_zero_iff.1 hzero)
    rw [shortest, if_pos (by rw [hrank]), ofDecimal_zero, hrank]
    rfl
  · exact ofDecimal_of_readsBack (readsBack_shortest tie hzero)

end RowFilter.Binary64
