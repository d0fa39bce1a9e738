import TableClient.Proofs.Binary64.Rounding

/-! Doubles that are put together exactly. A double is its sign and its magnitude. Rounding depends on the value
of a quotient only, so products and quotients of doubles that are exact are rounded once. A number of at most 53
bits with zeros after them is not rounded when it is made a double. -/

namespace TableClient.Binary64

theorem magnitude_ofMagnitude {magnitude : Nat} (negative : Bool) (h : magnitude < signBit) :
    (ofMagnitude negative magnitude).magnitude = magnitude := by
  unfold ofMagnitude Binary64.magnitude
  rw [UInt64.toNat_ofNat']
  unfold signBit at h ⊢
  split <;> omega

/-- A double is put together from its sign and its magnitude. -/
theorem ofMagnitude_magnitude (x : Binary64) : ofMagnitude x.isNegative x.magnitude = x := by
  have hbits : x.bits.toNat < 2 ^ 64 := x.bits.toNat_lt
  have hback : (if x.isNegative then signBit else 0) + x.magnitude = x.bits.toNat := by
    simp only [isNegative, magnitude, decide_eq_true_eq]
    unfold signBit
    split <;> omega
  rw [ofMagnitude, hback, UInt64.ofNat_toNat]

theorem roundMagnitude_le (num den : Nat) : roundMagnitude num den ≤ infinityMagnitude :=
  Nat.min_le_right _ _

theorem magnitude_ofRatio (negative : Bool) (num den : Nat) :
    (ofRatio negative num den).magnitude = roundMagnitude num den :=
  magnitude_ofMagnitude negative (Nat.lt_of_le_of_lt (roundMagnitude_le num den) (by decide))

theorem roundMagnitude_zero {den : Nat} (hden : 0 < den) : roundMagnitude 0 den = 0 := by
  simp [roundMagnitude, divideNearest, hden]

/-! ### Products and quotients -/

theorem divideNearest_mul_right (num den : Nat) {c : Nat} (hc : 0 < c) :
    divideNearest (num * c) (den * c) = divideNearest num den := by
  have hless : 2 * (num % den) * c < den * c ↔ 2 * (num % den) < den := Nat.mul_lt_mul_right hc
  have hequal : 2 * (num % den) * c = den * c ↔ 2 * (num % den) = den := Nat.mul_left_inj (Nat.ne_of_gt hc)
  simp only [divideNearest, Nat.mul_div_mul_right _ _ hc, Nat.mul_mod_mul_right, ← Nat.mul_assoc, hless, hequal]

theorem roundMagnitude_mul_right (num den : Nat) {c : Nat} (hc : 0 < c) :
    roundMagnitude (num * c) (den * c) = roundMagnitude num den := by
  simp only [roundMagnitude, Nat.shiftLeft_eq, Nat.mul_right_comm _ c, Nat.mul_div_mul_right _ _ hc,
    divideNearest_mul_right _ _ hc]

/-- The quotient of two doubles is the rounded quotient of the numbers that they are. -/
theorem magnitude_divMagnitude {x y : Binary64} {n d : Nat} (hx : x.scaled = n * 2 ^ 1074)
    (hy : y.scaled = d * 2 ^ 1074) : (x.divMagnitude y).magnitude = roundMagnitude n d := by
  rw [divMagnitude, magnitude_ofRatio, hx, hy, roundMagnitude_mul_right _ _ (Nat.two_pow_pos 1074)]

/-- The product of two doubles is the rounded product of the numbers that they are. -/
theorem magnitude_mulMagnitude {x y : Binary64} {m n : Nat} (hx : x.scaled = m * 2 ^ 1074)
    (hy : y.scaled = n * 2 ^ 1074) : (x.mulMagnitude y).magnitude = roundMagnitude (m * n) 1 := by
  have hsquare (b : Nat) : 1 <<< (b + b) = 1 * (2 ^ b * 2 ^ b) := by
    rw [Nat.one_shiftLeft, Nat.pow_add, Nat.one_mul]
  have hpos (b : Nat) : 0 < 2 ^ b * 2 ^ b := Nat.mul_pos (Nat.two_pow_pos b) (Nat.two_pow_pos b)
  have hden : 1 <<< 2148 = 1 * (2 ^ 1074 * 2 ^ 1074) := hsquare 1074
  rw [mulMagnitude, magnitude_ofRatio, hx, hy, hden, Nat.mul_mul_mul_comm, roundMagnitude_mul_right _ _ (hpos 1074)]

/-! ### Integers -/

/-- The unit and the significand of a magnitude. -/
theorem scaled_of_magnitude {x : Binary64} {u s : Nat} (hlow : 2 ^ 52 ≤ s) (hhigh : s < 2 ^ 53)
    (h : x.magnitude = u * leadingBit + s) : x.scaled = s * 2 ^ u := by
  have hunit : x.unit = u := by
    unfold unit
    rw [h]
    unfold leadingBit
    omega
  have hsignificand : x.significand = s := by
    unfold significand
    rw [h]
    unfold leadingBit
    split <;> omega
  rw [scaled_eq, hunit, hsignificand]

/-- A quotient that is a double is rounded to it. -/
theorem scaled_ofRatio {num den u s : Nat} (hden : 0 < den) (hlow : 2 ^ 52 ≤ s) (hhigh : s < 2 ^ 53)
    (hu : u ≤ 2045) (h : num * 2 ^ 1074 = s * (den * 2 ^ u)) :
    (ofRatio false num den).scaled = s * 2 ^ u := by
  have hunit : 0 < den * 2 ^ u := Nat.mul_pos hden (Nat.two_pow_pos _)
  have hround : roundMagnitude num den = u * leadingBit + s := by
    rw [roundMagnitude_eq hden (u := u) (n := s)]
    · unfold leadingBit infinityMagnitude
      omega
    · intro _
      rw [h]
      exact Nat.mul_le_mul_right _ hlow
    · rw [h]
      exact Nat.mul_lt_mul_of_pos_right hhigh hunit
    · rw [h]
      exact divideNearest_eq hunit (by omega) (by omega) (by omega)
  exact scaled_of_magnitude hlow hhigh ((magnitude_ofRatio _ _ _).trans hround)

theorem mul_two_pow_eq (a : Nat) {b c d e : Nat} (h : b + c = d + e) :
    a * 2 ^ b * 2 ^ c = a * 2 ^ d * 2 ^ e := by
  rw [Nat.mul_assoc, Nat.mul_assoc, ← Nat.pow_add, ← Nat.pow_add, h]

/-- An integer of at most 53 bits, with zeros after them, is a double. -/
theorem scaled_ofRatio_one {a b : Nat} (hpos : 0 < a) (ha : a < 2 ^ 53) (hb : b ≤ 971) :
    (ofRatio false (a * 2 ^ b) 1).scaled = a * 2 ^ b * 2 ^ 1074 := by
  have hne : a ≠ 0 := Nat.ne_of_gt hpos
  have hlog : a.log2 ≤ 52 := Nat.le_of_lt_succ ((Nat.log2_lt hne).2 ha)
  -- the digits moved up to the first of the 53 places
  have hexponents : a * 2 ^ b * 2 ^ 1074 = a * 2 ^ (52 - a.log2) * 2 ^ (a.log2 + b + 1022) :=
    mul_two_pow_eq a (by omega)
  have hplaces : 2 ^ a.log2 * 2 ^ (52 - a.log2) = 2 ^ 52 := by
    rw [← Nat.pow_add, Nat.add_sub_cancel' hlog]
  have hlow : 2 ^ 52 ≤ a * 2 ^ (52 - a.log2) := by
    rw [← hplaces]
    exact Nat.mul_le_mul_right _ (Nat.log2_self_le hne)
  have hhigh : a * 2 ^ (52 - a.log2) < 2 ^ 53 := by
    rw [Nat.pow_succ, ← hplaces, Nat.mul_right_comm, ← Nat.pow_succ]
    exact Nat.mul_lt_mul_of_pos_right Nat.lt_log2_self (Nat.two_pow_pos _)
  rw [hexponents]
  refine scaled_ofRatio Nat.one_pos hlow hhigh (by omega) ?_
  rw [Nat.one_mul, hexponents]

theorem scaled_ofInt {n : Nat} (h : n < 2 ^ 53) : (ofInt n).scaled = n * 2 ^ 1074 := by
  rcases Nat.eq_zero_or_pos n with rfl | hpos
  · rw [Nat.zero_mul]
    decide +kernel
  · have hscaled := scaled_ofRatio_one (b := 0) hpos h (by omega)
    rw [Nat.pow_zero, Nat.mul_one] at hscaled
    have hsign : ¬(n : Int) < 0 := by omega
    rw [ofInt, decide_eq_false hsign, Int.natAbs_natCast, hscaled]

end TableClient.Binary64
