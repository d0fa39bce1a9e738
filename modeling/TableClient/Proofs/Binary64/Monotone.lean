import TableClient.Proofs.Binary64.Exact

/-! Rounding keeps the order of numbers, and so do products of doubles. A binade that ends is followed by one
whose significands begin where the last one's are half used up, so that the encoding is monotone across the
border too. -/

namespace TableClient.Binary64

variable {num num' den : Nat}

theorem divideNearest_mono (h : num ≤ num') : divideNearest num den ≤ divideNearest num' den := by
  have hdivision := Nat.div_add_mod num den
  have hdivision' := Nat.div_add_mod num' den
  unfold divideNearest
  dsimp only
  rcases Nat.lt_or_eq_of_le (Nat.div_le_div_right (c := den) h) with hlt | heq
  · split <;> split <;> omega
  · rw [heq] at hdivision ⊢
    split <;> split <;> omega

theorem le_divideNearest {n : Nat} (hden : 0 < den) (h : n * den ≤ num) : n ≤ divideNearest num den := by
  have hquotient : n ≤ num / den := (Nat.le_div_iff_mul_le hden).2 h
  unfold divideNearest
  dsimp only
  split <;> omega

theorem divideNearest_le {n : Nat} (hden : 0 < den) (h : num < n * den) : divideNearest num den ≤ n := by
  have hquotient : num / den < n := (Nat.div_lt_iff_lt_mul hden).2 h
  unfold divideNearest
  dsimp only
  split <;> omega

theorem log2_mono {m n : Nat} (h : m ≤ n) : m.log2 ≤ n.log2 := by
  rcases Nat.eq_zero_or_pos m with rfl | hpos
  · exact Nat.zero_le _
  · have hpower : 2 ^ m.log2 ≤ n := Nat.le_trans (Nat.log2_self_le (Nat.ne_of_gt hpos)) h
    exact (Nat.le_log2 (by omega)).2 hpower

/-- The unit in which a quotient is rounded. -/
def roundingUnit (num den : Nat) : Nat :=
  (num * 2 ^ 1074 / den).log2 - 52

/-- A quotient in its unit is below 2^53, and not below 2^52 but in the least unit. -/
theorem roundingUnit_spec (num : Nat) (hden : 0 < den) :
    num * 2 ^ 1074 < 2 ^ 53 * (den * 2 ^ roundingUnit num den) ∧
      (0 < roundingUnit num den → 2 ^ 52 * (den * 2 ^ roundingUnit num den) ≤ num * 2 ^ 1074) := by
  have hlog : (num * 2 ^ 1074 / den).log2 < 53 + roundingUnit num den := by
    unfold roundingUnit
    omega
  obtain ⟨u, hu⟩ : ∃ u, roundingUnit num den = u := ⟨_, rfl⟩
  rw [hu] at hlog ⊢
  have hplaces (k : Nat) : 2 ^ k * (den * 2 ^ u) = 2 ^ (k + u) * den := by
    rw [Nat.pow_add]
    ring
  rw [hplaces, hplaces]
  refine ⟨(Nat.div_lt_iff_lt_mul hden).1 ?_, fun hpos => (Nat.le_div_iff_mul_le hden).1 ?_⟩
  · by_cases hzero : num * 2 ^ 1074 / den = 0
    · rw [hzero]
      exact Nat.two_pow_pos _
    · exact (Nat.log2_lt hzero).1 hlog
  · have hle : 52 + u ≤ (num * 2 ^ 1074 / den).log2 := by
      unfold roundingUnit at hu
      omega
    refine (Nat.le_log2 ?_).1 hle
    intro hzero
    rw [hzero, Nat.log2_zero] at hle
    omega

theorem roundMagnitude_mono (hden : 0 < den) (h : num ≤ num') :
    roundMagnitude num den ≤ roundMagnitude num' den := by
  have hscaled : num * 2 ^ 1074 ≤ num' * 2 ^ 1074 := Nat.mul_le_mul_right _ h
  obtain ⟨hhigh, hlow⟩ := roundingUnit_spec num hden
  obtain ⟨hhigh', hlow'⟩ := roundingUnit_spec num' hden
  have hunit : 0 < den * 2 ^ roundingUnit num den := Nat.mul_pos hden (Nat.two_pow_pos _)
  have hunit' : 0 < den * 2 ^ roundingUnit num' den := Nat.mul_pos hden (Nat.two_pow_pos _)
  rw [roundMagnitude_eq hden hlow hhigh rfl, roundMagnitude_eq hden hlow' hhigh' rfl]
  have hunits : roundingUnit num den ≤ roundingUnit num' den := by
    have hlog := log2_mono (Nat.div_le_div_right (c := den) hscaled)
    unfold roundingUnit
    omega
  refine min_le_min_right _ ?_
  rcases Nat.lt_or_eq_of_le hunits with hlt | heq
  · have hmost := divideNearest_le hunit hhigh
    have hleast := le_divideNearest hunit' (hlow' (Nat.zero_lt_of_lt hlt))
    unfold leadingBit
    omega
  · rw [heq]
    exact Nat.add_le_add_left (divideNearest_mono hscaled) _

theorem scaled_mono {x y : Binary64} (h : x.magnitude ≤ y.magnitude) : x.scaled ≤ y.scaled := by
  have hx := magnitude_eq x
  have hy := magnitude_eq y
  have hunits : x.unit ≤ y.unit := by
    have hdiv := Nat.div_le_div_right (c := leadingBit) h
    unfold unit
    omega
  rw [scaled_eq, scaled_eq]
  rcases Nat.lt_or_eq_of_le hunits with hlt | heq
  · have hpower : 2 * 2 ^ x.unit ≤ 2 ^ y.unit := by
      rw [← Nat.pow_succ']
      exact Nat.pow_le_pow_right (by decide) hlt
    calc x.significand * 2 ^ x.unit ≤ 2 ^ 53 * 2 ^ x.unit :=
          Nat.mul_le_mul_right _ (Nat.le_of_lt x.significand_lt)
      _ = 2 ^ 52 * (2 * 2 ^ x.unit) := by rw [← Nat.mul_assoc, ← Nat.pow_succ]
      _ ≤ y.significand * 2 ^ y.unit :=
          Nat.mul_le_mul (y.le_significand (Nat.zero_lt_of_lt hlt)) hpower
  · rw [heq] at hx ⊢
    exact Nat.mul_le_mul_right _ (by omega)

theorem scaled_ofInt_mono {m n : Nat} (h : m ≤ n) : (ofInt m).scaled ≤ (ofInt n).scaled := by
  refine scaled_mono ?_
  rw [ofInt, ofInt, magnitude_ofRatio, magnitude_ofRatio, Int.natAbs_natCast, Int.natAbs_natCast]
  exact roundMagnitude_mono Nat.one_pos h

/-- A product is not larger than one of larger factors. -/
theorem isFinite_mulMagnitude {w x y z : Binary64} (hx : w.scaled ≤ x.scaled) (hz : y.scaled ≤ z.scaled)
    (h : (x.mulMagnitude z).isFinite) : (w.mulMagnitude y).isFinite := by
  have hden (k : Nat) : 0 < 1 <<< k := by
    rw [Nat.one_shiftLeft]
    exact Nat.two_pow_pos k
  have hround := roundMagnitude_mono (hden 2148) (Nat.mul_le_mul hx hz)
  simp only [isFinite, mulMagnitude, magnitude_ofRatio, decide_eq_true_eq] at h ⊢
  exact Nat.lt_of_le_of_lt hround h

end TableClient.Binary64
