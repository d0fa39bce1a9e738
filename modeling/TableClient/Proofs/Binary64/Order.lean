import TableClient.Proofs.Binary64.Number

/-! The order of doubles by their keys. The number that a double is depends on its key alone, both zeros
having one, and the keys of the doubles nearest to integers are in the order of the integers. Two integers
can share a key, but not if they are doubles themselves. -/

namespace TableClient.Binary64

variable {x y : Binary64} {m n : Int}

theorem natAbs_key (x : Binary64) : x.key.natAbs = x.magnitude := by
  unfold key
  split <;> simp

theorem key_ofInt (n : Int) : (ofInt n).key =
    if n < 0 then -(roundMagnitude n.natAbs 1 : Int) else roundMagnitude n.natAbs 1 := by
  have hsign : (ofInt n).isNegative = decide (n < 0) := isNegative_ofRatio _ _ _
  have hmagnitude : (ofInt n).magnitude = roundMagnitude n.natAbs 1 := magnitude_ofRatio _ _ _
  rw [key, hsign, hmagnitude]
  simp only [decide_eq_true_eq]

theorem key_ofInt_mono (h : m ≤ n) : (ofInt m).key ≤ (ofInt n).key := by
  have hround {k l : Int} (hle : k.natAbs ≤ l.natAbs) :
      roundMagnitude k.natAbs 1 ≤ roundMagnitude l.natAbs 1 := roundMagnitude_mono Nat.one_pos hle
  rw [key_ofInt, key_ofInt]
  split
  next hm =>
    split
    next hn => exact Int.neg_le_neg (Int.ofNat_le.2 (hround (by omega)))
    next => omega
  next hm =>
    rw [if_neg (by omega)]
    exact Int.ofNat_le.2 (hround (by omega))

/-- A double with key zero is one of the zeros. -/
theorem scaled_eq_zero_iff : x.scaled = 0 ↔ x.key = 0 := by
  rw [scaled_eq, ← Int.natAbs_eq_zero, natAbs_key, Nat.mul_eq_zero, or_iff_left (Nat.two_pow_pos _).ne']
  constructor
  · intro h
    by_contra hne
    exact absurd h (significand_pos hne).ne'
  · intro h
    rw [significand, h, if_pos (by decide)]

theorem signedScaled_of_key (h : x.key = y.key) : x.signedScaled = y.signedScaled := by
  have hmagnitude : x.magnitude = y.magnitude := by rw [← natAbs_key, h, natAbs_key]
  have hscaled : x.scaled = y.scaled := by
    rw [scaled_eq, scaled_eq, significand, significand, unit, unit, hmagnitude]
  by_cases hzero : x.key = 0
  · rw [signedScaled, signedScaled, ← hscaled, scaled_eq_zero_iff.2 hzero, Nat.cast_zero, mul_zero, mul_zero]
  · have hsign : x.isNegative = y.isNegative := by
      unfold key at h hzero
      cases hx : x.isNegative <;> cases hy : y.isNegative <;> simp only [hx, hy, if_true, if_false,
        Bool.false_eq_true] at h hzero ⊢ <;> omega
    rw [signedScaled, signedScaled, hsign, hscaled]

/-- Doubles with one key are one number. -/
theorem toRat?_of_key (h : x.key = y.key) : x.toRat? = y.toRat? := by
  have hfinite : x.isFinite = y.isFinite := by
    rw [isFinite, isFinite, ← natAbs_key, ← natAbs_key, h]
  rw [toRat?, toRat?, hfinite, signedScaled_of_key h]

/-- Integers that are doubles have keys of their own. -/
theorem eq_of_key_ofInt (hm : m.natAbs ≤ 2 ^ 64) (hn : n.natAbs ≤ 2 ^ 64) (hfits : FitsSignificand m)
    (hfits' : FitsSignificand n) (h : (ofInt m).key = (ofInt n).key) : m = n := by
  have hsame := toRat?_of_key h
  rw [(toRat?_ofInt_iff hm).2 hfits, (toRat?_ofInt_iff hn).2 hfits'] at hsame
  exact Int.cast_injective (Option.some.inj hsame)

/-- A double that is the number zero has key zero. -/
theorem key_of_toRat?_zero (h : x.toRat? = some 0) : x.isNaN = false ∧ x.key = 0 := by
  have hzero : x.toRat? = some ((0 : Int) : ℚ) := h
  obtain ⟨-, hsigned⟩ := toRat?_eq_intCast_iff.1 hzero
  rw [zero_mul, ← Int.natAbs_eq_zero, natAbs_signedScaled, scaled_eq_zero_iff] at hsigned
  refine ⟨?_, hsigned⟩
  rw [isNaN, ← natAbs_key, hsigned]
  rfl

end TableClient.Binary64
