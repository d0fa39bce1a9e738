import Mathlib.Algebra.Field.Rat
import Mathlib.Algebra.GroupWithZero.Basic
import Mathlib.Data.Rat.Cast.CharZero
import TableClient.Proofs.Binary64.Monotone

/-! The numbers that doubles are. The integers among them are those whose digits, up to the zeros at the end,
fit into the significand. A double is made an integer only if it is the same number, and an integer a double
that is the same number exactly if there is one. -/

namespace TableClient.Binary64

variable {x : Binary64}

/-- A finite double, times `2^1074`. -/
def signedScaled (x : Binary64) : Int :=
  (if x.isNegative then -1 else 1) * x.scaled

def toRat? (x : Binary64) : Option ℚ :=
  if x.isFinite then some (x.signedScaled / 2 ^ 1074) else none

theorem toRat?_eq_intCast_iff {n : Int} :
    x.toRat? = some (n : ℚ) ↔ x.isFinite ∧ x.signedScaled = n * 2 ^ 1074 := by
  have hquotient (k : Nat) : (x.signedScaled : ℚ) / 2 ^ k = n ↔ x.signedScaled = n * 2 ^ k := by
    rw [div_eq_iff (pow_ne_zero k two_ne_zero)]
    exact_mod_cast Iff.rfl
  unfold toRat?
  split
  next h => rw [Option.some_inj, hquotient 1074, and_iff_right h]
  next h => exact iff_of_false nofun fun hfinite => h hfinite.1

theorem natAbs_signedScaled (x : Binary64) : x.signedScaled.natAbs = x.scaled := by
  unfold signedScaled
  split <;> simp

/-! ### Doubles as integers -/

/-- A number in units is whole if nothing is left over. -/
theorem signed_div_eq_iff (negative : Bool) (s k : Nat) (n : Int) :
    s % (1 <<< k) = 0 ∧ (if negative then -1 else 1) * ((s >>> k : Nat) : Int) = n ↔
      (if negative then -1 else 1) * (s : Int) = n * 2 ^ k := by
  have hpos := Nat.two_pow_pos k
  have hcast : ((2 ^ k : Nat) : Int) = 2 ^ k := Nat.cast_pow 2 k
  rw [Nat.one_shiftLeft, Nat.shiftRight_eq_div_pow, ← hcast]
  generalize 2 ^ k = unit at hpos
  constructor
  · rintro ⟨hrest, rfl⟩
    have hs : s / unit * unit = s := Nat.div_mul_cancel (Nat.dvd_of_mod_eq_zero hrest)
    rw [mul_assoc, ← Nat.cast_mul, hs]
  · intro h
    have hs : s = n.natAbs * unit := by
      have habs := congrArg Int.natAbs h
      rw [Int.natAbs_mul, Int.natAbs_mul, Int.natAbs_natCast, Int.natAbs_natCast] at habs
      split at habs <;> simpa using habs
    refine ⟨by rw [hs, Nat.mul_mod_left], ?_⟩
    rw [hs, Nat.mul_div_cancel _ hpos]
    have hunit : (unit : Int) ≠ 0 := by omega
    refine mul_right_cancel₀ hunit ?_
    rw [← h, mul_assoc, ← Nat.cast_mul, ← hs]

/-- A double becomes the integer that is the same number. -/
theorem toInt64?_eq_some_iff {n : Int64} : x.toInt64? = some n ↔ x.toRat? = some (n.toInt : ℚ) := by
  have hwhole := signed_div_eq_iff x.isNegative x.scaled 1074 n.toInt
  rw [toRat?_eq_intCast_iff, signedScaled, ← hwhole]
  unfold toInt64?
  have hmin := n.minValue_le_toInt
  have hmax := n.toInt_le
  split
  next h =>
    simp only [Option.ite_none_right_eq_some, Option.some.injEq, h.1, h.2, true_and]
    constructor
    · rintro ⟨⟨hlow, hhigh⟩, rfl⟩
      rw [Int64.toInt_ofInt_of_le hlow (Int.lt_of_le_of_lt hhigh (by decide))]
    · intro heq
      rw [heq]
      exact ⟨⟨hmin, hmax⟩, Int64.ofInt_toInt n⟩
  next h => exact iff_of_false nofun fun hn => h ⟨hn.1, hn.2.1⟩

/-! ### Integers as doubles -/

/-- The digits of the integer, up to the zeros at the end, fit into the significand of a double. -/
def FitsSignificand (n : Int) : Prop :=
  ∃ m e : Nat, n.natAbs = m * 2 ^ e ∧ m < 2 ^ 53

/-- The integers that are doubles. -/
theorem fitsSignificand_of_toRat? {n : Int} (h : x.toRat? = some (n : ℚ)) : FitsSignificand n := by
  have hscaled (k : Nat) (hs : x.signedScaled = n * 2 ^ k) :
      x.significand * 2 ^ x.unit = n.natAbs * 2 ^ k := by
    rw [← scaled_eq, ← natAbs_signedScaled, hs, Int.natAbs_mul, Int.natAbs_pow]
    rfl
  replace hscaled := hscaled 1074 (toRat?_eq_intCast_iff.1 h).2
  have hsignificand := x.significand_lt
  generalize 1074 = k at hscaled
  rcases Nat.le_total k x.unit with hle | hle
  · refine ⟨x.significand, x.unit - k, ?_, hsignificand⟩
    refine Nat.eq_of_mul_eq_mul_right (Nat.two_pow_pos k) ?_
    rw [← hscaled, Nat.mul_assoc, ← Nat.pow_add, Nat.sub_add_cancel hle]
  · refine ⟨n.natAbs, 0, (Nat.mul_one _).symm, Nat.lt_of_le_of_lt ?_ hsignificand⟩
    have hmore : x.significand = n.natAbs * 2 ^ (k - x.unit) := by
      refine Nat.eq_of_mul_eq_mul_right (Nat.two_pow_pos x.unit) ?_
      rw [hscaled, Nat.mul_assoc, ← Nat.pow_add, Nat.sub_add_cancel hle]
    rw [hmore]
    exact Nat.le_mul_of_pos_right _ (Nat.two_pow_pos _)

theorem isNegative_ofRatio (negative : Bool) (num den : Nat) :
    (ofRatio negative num den).isNegative = negative := by
  have hle := roundMagnitude_le num den
  unfold infinityMagnitude at hle
  simp only [ofRatio, ofMagnitude, isNegative, UInt64.toNat_ofNat', signBit]
  cases negative
  · exact decide_eq_false (by simp only [Bool.false_eq_true, if_false]; omega)
  · exact decide_eq_true (by simp only [if_true]; omega)

theorem scaled_ofRatio_sign (negative : Bool) (num den : Nat) :
    (ofRatio negative num den).scaled = (ofRatio false num den).scaled := by
  rw [scaled, scaled, significand, significand, unit, unit, magnitude_ofRatio, magnitude_ofRatio]

theorem isFinite_ofInt {n : Int} (h : n.natAbs ≤ 2 ^ 64) : (ofInt n).isFinite := by
  have hround : roundMagnitude n.natAbs 1 ≤ roundMagnitude (2 ^ 64) 1 := roundMagnitude_mono Nat.one_pos h
  have hlast : roundMagnitude (2 ^ 64) 1 < infinityMagnitude := by decide +kernel
  rw [isFinite, ofInt, magnitude_ofRatio]
  exact decide_eq_true (Nat.lt_of_le_of_lt hround hlast)

theorem scaled_ofInt_of_fits {n : Int} (hn : n.natAbs ≤ 2 ^ 64) (h : FitsSignificand n) :
    (ofInt n).scaled = n.natAbs * 2 ^ 1074 := by
  obtain ⟨m, e, hme, hm⟩ := h
  rw [ofInt, scaled_ofRatio_sign]
  rcases Nat.eq_zero_or_pos m with rfl | hpos
  · rw [hme, Nat.zero_mul, Nat.zero_mul]
    decide +kernel
  · have he : e ≤ 64 := by
      refine (Nat.pow_le_pow_iff_right Nat.one_lt_two).1 (Nat.le_trans ?_ hn)
      rw [hme]
      exact Nat.le_mul_of_pos_left _ hpos
    rw [hme]
    exact scaled_ofRatio_one hpos hm (by omega)

/-- An integer becomes the same number exactly if it is a double. -/
theorem toRat?_ofInt_iff {n : Int} (hn : n.natAbs ≤ 2 ^ 64) :
    (ofInt n).toRat? = some (n : ℚ) ↔ FitsSignificand n := by
  refine ⟨fitsSignificand_of_toRat?, fun h => toRat?_eq_intCast_iff.2 ⟨isFinite_ofInt hn, ?_⟩⟩
  have hnegative : (ofInt n).isNegative = decide (n < 0) := isNegative_ofRatio _ _ _
  have hsign : (if (ofInt n).isNegative then -1 else 1) * (n.natAbs : Int) = n := by
    rw [hnegative]
    split
    next hlt =>
      have := of_decide_eq_true hlt
      omega
    next hge =>
      have : ¬n < 0 := fun hlt => hge (decide_eq_true hlt)
      omega
  have hscaled (k : Nat) (hs : (ofInt n).scaled = n.natAbs * 2 ^ k) : (ofInt n).signedScaled = n * 2 ^ k := by
    rw [signedScaled, hs, Nat.cast_mul, ← mul_assoc, hsign, Nat.cast_pow]
    rfl
  exact hscaled 1074 (scaled_ofInt_of_fits hn h)

theorem fitsSignificand_of_lt {n : Int} (h : n.natAbs < 2 ^ 53) : FitsSignificand n :=
  ⟨n.natAbs, 0, (Nat.mul_one _).symm, h⟩

end TableClient.Binary64
