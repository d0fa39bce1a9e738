import Mathlib.Algebra.Order.Field.Basic
import Mathlib.Data.Rat.Cast.Order
import Mathlib.Tactic.FieldSimp
import Mathlib.Tactic.Linarith
import Mathlib.Tactic.NormNum
import Mathlib.Tactic.Positivity
import TableClient.Proofs.Binary64.Rounding
import TableClient.Proofs.Text.Digits

/-! The search for the shortest decimal of a double finds one. On the finest grid, that of seventeen digits,
the points are closer together than the ends of the rounding interval, so one of the two points around the
double is inside. What is found on any grid is inside, and is not zero. -/

namespace TableClient

/-! ### Lengths of decimals -/

theorem Text.lt_pow_length_decimal (n : Nat) : n < 10 ^ (Text.decimal n).length :=
  (Nat.length_toDigits_le_iff (by decide) (List.length_pos_iff.2 (decimal_ne_nil n))).1 (Nat.le_refl _)

theorem Text.pow_length_decimal_le {n : Nat} (h : 0 < n) : 10 ^ ((Text.decimal n).length - 1) ≤ n := by
  by_contra hlt
  rcases Nat.eq_zero_or_pos ((decimal n).length - 1) with hzero | hpos
  · rw [hzero] at hlt
    omega
  · have hle := (Nat.length_toDigits_le_iff (by decide) hpos).2 (Nat.not_le.1 hlt)
    have hlength : (decimal n).length ≤ (decimal n).length - 1 := hle
    omega

namespace Binary64

/-- The position is that of the leading digit. -/
theorem decimalPosition_bounds {num den : Nat} (hnum : 0 < num) (hden : 0 < den) :
    (10 : ℚ) ^ (decimalPosition num den - 1) ≤ num / den ∧
      (num : ℚ) / den < 10 ^ decimalPosition num den := by
  have hdenQ : (0 : ℚ) < den := by exact_mod_cast hden
  have hnumQ : (0 : ℚ) < num := by exact_mod_cast hnum
  unfold decimalPosition
  split
  next hle =>
    have hquotient : 0 < num / den := Nat.div_pos hle hden
    have hlength := List.length_pos_iff.2 (Text.decimal_ne_nil (num / den))
    constructor
    · rw [le_div_iff₀ hdenQ]
      have hlow := (Nat.le_div_iff_mul_le hden).1 (Text.pow_length_decimal_le hquotient)
      have hcast : ((Text.decimal (num / den)).length : ℤ) - 1 =
          ((Text.decimal (num / den)).length - 1 : ℕ) := by omega
      rw [hcast, zpow_natCast]
      exact_mod_cast hlow
    · rw [div_lt_iff₀ hdenQ, zpow_natCast]
      exact_mod_cast (Nat.div_lt_iff_lt_mul hden).1 (Text.lt_pow_length_decimal (num / den))
  next hlt =>
    have hquotient : 0 < (den - 1) / num := Nat.div_pos (by omega) hnum
    have hlength := List.length_pos_iff.2 (Text.decimal_ne_nil ((den - 1) / num))
    have hlow := (Nat.div_lt_iff_lt_mul hnum).1 (Text.lt_pow_length_decimal ((den - 1) / num))
    have hhigh := (Nat.le_div_iff_mul_le hnum).1 (Text.pow_length_decimal_le hquotient)
    generalize (Text.decimal ((den - 1) / num)).length = l at hlength hlow hhigh
    constructor
    · have hexponent : (1 : ℤ) - l - 1 = -(l : ℤ) := by omega
      rw [hexponent, zpow_neg, zpow_natCast, le_div_iff₀ hdenQ, inv_mul_le_iff₀ (by positivity)]
      have hle : den ≤ 10 ^ l * num := by omega
      exact_mod_cast hle
    · have hexponent : (1 : ℤ) - l = -((l - 1 : ℕ) : ℤ) := by omega
      rw [hexponent, zpow_neg, zpow_natCast, div_lt_iff₀ hdenQ, lt_inv_mul_iff₀ (by positivity)]
      have hless : 10 ^ (l - 1) * num < den := by omega
      exact_mod_cast hless

/-! ### Points of a grid -/

namespace Interval

theorem contains_iff {i : Interval} {n : Nat} : i.contains n ↔ (i.low < n * i.den ∧ n * i.den < i.high) ∨
    (i.closed ∧ (n * i.den = i.low ∨ n * i.den = i.high)) := by
  simp [contains]

/-- The point that is taken is in the interval, and the last one up to the value or the first one beyond. -/
theorem nearest?_eq_some {i : Interval} {tie : Tie} {n : Nat} (h : i.nearest? tie = some n) :
    i.contains n ∧ (n = i.value / i.den ∨ n = i.value / i.den + 1) := by
  simp only [nearest?] at h
  split at h
  next hboth =>
    rw [Bool.and_eq_true] at hboth
    split at h
    · cases h
      exact ⟨hboth.1, .inl rfl⟩
    · split at h
      · cases h
        exact ⟨hboth.2, .inr rfl⟩
      · split at h <;> cases h
        · exact ⟨hboth.1, .inl rfl⟩
        · exact ⟨hboth.2, .inr rfl⟩
  next =>
    split at h
    next hbelow =>
      cases h
      exact ⟨hbelow, .inl rfl⟩
    next =>
      split at h
      next habove =>
        cases h
        exact ⟨habove, .inr rfl⟩
      next => cases h

/-- One of the two points around the value is taken if one of them is in the interval. -/
theorem exists_nearest? {i : Interval} (tie : Tie)
    (h : i.contains (i.value / i.den) ∨ i.contains (i.value / i.den + 1)) :
    ∃ n, i.nearest? tie = some n := by
  rw [← Option.isSome_iff_exists]
  simp only [nearest?]
  split
  · split
    · rfl
    · split
      · rfl
      · split <;> rfl
  next hboth =>
    split
    · rfl
    next hbelow =>
      rw [if_pos (h.resolve_left hbelow)]
      rfl

/-- Ends that are further apart than the points of the grid have a point between them. -/
theorem contains_of_wide {i : Interval} (hden : 0 < i.den) (hlow : i.low < i.value)
    (hhigh : i.value < i.high) (hwide : i.low + i.den < i.high) :
    i.contains (i.value / i.den) ∨ i.contains (i.value / i.den + 1) := by
  have hdivision := Nat.div_add_mod i.value i.den
  have hmod := Nat.mod_lt i.value hden
  rw [contains_iff, contains_iff, Nat.add_mul, Nat.one_mul, Nat.mul_comm]
  by_cases hbelow : i.low < i.den * (i.value / i.den)
  · exact .inl (.inl ⟨hbelow, by omega⟩)
  · exact .inr (.inl ⟨by omega, by omega⟩)

end Interval

/-! ### The search -/

theorem tenTo_pos (k : Nat) : 0 < Text.tenTo k := Nat.pow_pos (by decide)

theorem zpow_mul_tenTo (k : ℤ) : (10 : ℚ) ^ k * Text.tenTo (-k).toNat = Text.tenTo k.toNat := by
  have hcast (n : Nat) : (Text.tenTo n : ℚ) = 10 ^ n := Nat.cast_pow 10 n
  rw [hcast, hcast]
  rcases Int.le_total 0 k with hk | hk
  · obtain ⟨n, rfl⟩ := Int.eq_ofNat_of_zero_le hk
    have hzero : (-(n : ℤ)).toNat = 0 := by omega
    rw [hzero, Int.toNat_natCast, zpow_natCast, pow_zero, mul_one]
  · obtain ⟨n, hn⟩ := Int.eq_ofNat_of_zero_le (Int.neg_nonneg_of_nonpos hk)
    obtain rfl : k = -(n : ℤ) := by omega
    have hzero : (-(n : ℤ)).toNat = 0 := by omega
    rw [hzero, neg_neg, Int.toNat_natCast, zpow_neg, zpow_natCast, pow_zero,
      inv_mul_cancel₀ (by positivity)]

theorem value_interval (x : Binary64) : x.interval.value = 4 * x.significand * 2 ^ x.unit := by
  rw [Nat.mul_assoc, ← scaled_eq]
  rfl

theorem den_pos (x : Binary64) : 0 < x.interval.den := by
  have hfour (k : Nat) : 0 < 4 * 2 ^ k := Nat.mul_pos (by decide) (Nat.two_pow_pos k)
  rw [den_interval]
  exact hfour 1074

/-- The interval is wider than a 10^16-th of the value. -/
theorem value_lt_width {x : Binary64} (h : x.magnitude ≠ 0) :
    x.interval.low < x.interval.value ∧ x.interval.value < x.interval.high ∧
      x.interval.value + x.interval.low * 10 ^ 16 < x.interval.high * 10 ^ 16 := by
  have hpos := significand_pos h
  have hlt := x.significand_lt
  have hunit : 0 < 2 ^ x.unit := Nat.two_pow_pos _
  rw [low_interval, high_interval, value_interval]
  refine ⟨Nat.mul_lt_mul_of_pos_right ?_ hunit, Nat.mul_lt_mul_of_pos_right (by omega) hunit, ?_⟩
  · rcases x.quartersBelow_cases with ⟨hquarters, -⟩ | ⟨hquarters, -⟩ <;> rw [hquarters] <;> omega
  · rw [Nat.mul_right_comm _ _ (10 ^ 16), Nat.mul_right_comm _ _ (10 ^ 16), ← Nat.add_mul]
    refine Nat.mul_lt_mul_of_pos_right ?_ hunit
    rcases x.quartersBelow_cases with ⟨hquarters, hleast, -⟩ | ⟨hquarters, -⟩ <;> rw [hquarters] <;> omega

theorem den_onGrid (i : Interval) (k : ℤ) :
    ((i.onGrid k).den : ℚ) = i.den * 10 ^ k * Text.tenTo (-k).toNat := by
  rw [mul_assoc, zpow_mul_tenTo]
  exact Nat.cast_mul _ _

theorem onGrid_wide {i : Interval} {k : ℤ} (h : (i.low : ℚ) + i.den * 10 ^ k < i.high) :
    (i.onGrid k).low + (i.onGrid k).den < (i.onGrid k).high := by
  have hup : (0 : ℚ) < Text.tenTo (-k).toNat := by exact_mod_cast tenTo_pos _
  have hscaled : (i.low : ℚ) * Text.tenTo (-k).toNat + (i.onGrid k).den < i.high * Text.tenTo (-k).toNat := by
    rw [den_onGrid, ← add_mul]
    exact mul_lt_mul_of_pos_right h hup
  exact_mod_cast hscaled

/-- The first point of a grid below the leading digit is not zero, and the points have as many digits as the
grid is finer. -/
theorem onGrid_bounds {i : Interval} {p : ℤ} {m : Nat} (hden : 0 < i.den)
    (hleast : (10 : ℚ) ^ (p - 1) ≤ i.value / i.den) (hless : (i.value : ℚ) / i.den < 10 ^ p) :
    let g := i.onGrid (p - (m + 1 : Nat))
    0 < g.value / g.den ∧ g.value / g.den < 10 ^ (m + 1) := by
  intro g
  have hdenQ : (0 : ℚ) < i.den := by exact_mod_cast hden
  have hup : (0 : ℚ) < Text.tenTo (-(p - (m + 1 : Nat))).toNat := by exact_mod_cast tenTo_pos _
  have hg : 0 < g.den := Nat.mul_pos hden (tenTo_pos _)
  have hvalue : (g.value : ℚ) = i.value * Text.tenTo (-(p - (m + 1 : Nat))).toNat := Nat.cast_mul _ _
  rw [le_div_iff₀ hdenQ] at hleast
  rw [div_lt_iff₀ hdenQ] at hless
  constructor
  · refine Nat.div_pos ?_ hg
    have hpower : (10 : ℚ) ^ (p - (m + 1 : Nat)) ≤ 10 ^ (p - 1) :=
      zpow_le_zpow_right₀ (by norm_num) (by omega)
    have hle : (g.den : ℚ) ≤ g.value := by
      rw [hvalue, den_onGrid]
      refine mul_le_mul_of_nonneg_right ?_ hup.le
      calc (i.den : ℚ) * 10 ^ (p - (m + 1 : Nat)) ≤ i.den * 10 ^ (p - 1) :=
            mul_le_mul_of_nonneg_left hpower hdenQ.le
        _ = 10 ^ (p - 1) * i.den := mul_comm _ _
        _ ≤ i.value := hleast
    exact_mod_cast hle
  · rw [Nat.div_lt_iff_lt_mul hg]
    have hpower : (10 : ℚ) ^ p = 10 ^ (m + 1) * 10 ^ (p - (m + 1 : Nat)) := by
      rw [← zpow_natCast, ← zpow_add₀ (by norm_num)]
      congr 1
      omega
    have hlt : (g.value : ℚ) < 10 ^ (m + 1) * g.den := by
      rw [hvalue, den_onGrid, ← mul_assoc]
      refine mul_lt_mul_of_pos_right ?_ hup
      calc (i.value : ℚ) < 10 ^ p * i.den := hless
        _ = 10 ^ (m + 1) * (i.den * 10 ^ (p - (m + 1 : Nat))) := by
            rw [hpower, mul_assoc, mul_comm (i.den : ℚ)]
    exact_mod_cast hlt

/-- On the grid of seventeen digits the search takes a point. -/
theorem exists_nearest?_finest {x : Binary64} (tie : Tie) (h : x.magnitude ≠ 0) :
    ∃ n, (x.interval.onGrid (decimalPosition x.interval.value x.interval.den - 17)).nearest? tie = some n := by
  obtain ⟨hlow, hhigh, hwidth⟩ := value_lt_width h
  have hdenQ : (0 : ℚ) < x.interval.den := by exact_mod_cast x.den_pos
  obtain ⟨hposition, -⟩ := decimalPosition_bounds (Nat.zero_lt_of_lt hlow) x.den_pos
  generalize decimalPosition x.interval.value x.interval.den = p at hposition ⊢
  have hup := tenTo_pos (-(p - 17)).toNat
  have hwide : (x.interval.low : ℚ) + x.interval.den * 10 ^ (p - 17) < x.interval.high := by
    have hsplit : (10 : ℚ) ^ (p - 1) = 10 ^ (p - 17) * 10 ^ 16 := by
      rw [← zpow_natCast, ← zpow_add₀ (by norm_num)]
      congr 1
      omega
    rw [le_div_iff₀ hdenQ, hsplit] at hposition
    have hwidthQ : (x.interval.value : ℚ) + x.interval.low * 10 ^ 16 < x.interval.high * 10 ^ 16 := by
      exact_mod_cast hwidth
    linarith
  refine Interval.exists_nearest? tie (Interval.contains_of_wide ?_ ?_ ?_ (onGrid_wide hwide))
  · exact Nat.mul_pos x.den_pos (tenTo_pos _)
  · exact Nat.mul_lt_mul_of_pos_right hlow hup
  · exact Nat.mul_lt_mul_of_pos_right hhigh hup

/-- What the search finds: a point of a grid of at most seventeen digits that is in the rounding interval. -/
theorem shortest_spec {x : Binary64} (tie : Tie) (h : x.magnitude ≠ 0) :
    ∃ n k, x.shortest tie = ⟨n, k⟩ ∧ 0 < n ∧ n ≤ 10 ^ 17 ∧
      x.interval.Holds (n * Text.tenTo k.toNat) (Text.tenTo (-k).toNat) := by
  have hlow := (value_lt_width h).1
  obtain ⟨hleast, hless⟩ := decimalPosition_bounds (Nat.zero_lt_of_lt hlow) x.den_pos
  obtain ⟨finest, hfinest⟩ := exists_nearest?_finest tie h
  generalize hp : decimalPosition x.interval.value x.interval.den = p at hleast hless hfinest
  obtain ⟨d, hd⟩ : ∃ d, (grids p).findSome? (fun k =>
      ((x.interval.onGrid k).nearest? tie).map fun digits => Decimal.mk digits k) = some d := by
    rw [← Option.isSome_iff_exists, List.findSome?_isSome_iff]
    refine ⟨p - 17, List.mem_map.2 ⟨16, by simp, rfl⟩, ?_⟩
    rw [hfinest]
    rfl
  obtain ⟨k, hk, hfound⟩ := List.exists_of_findSome?_eq_some hd
  obtain ⟨n, hn, rfl⟩ := Option.map_eq_some_iff.1 hfound
  obtain ⟨m, hm, rfl⟩ := List.mem_map.1 hk
  rw [List.mem_range] at hm
  obtain ⟨hcontains, hpoint⟩ := Interval.nearest?_eq_some hn
  obtain ⟨hpos, hdigits⟩ := onGrid_bounds (m := m) x.den_pos hleast hless
  have hpow : 10 ^ (m + 1) ≤ 10 ^ 17 := Nat.pow_le_pow_right (by decide) (by omega)
  refine ⟨n, _, by rw [shortest, hp, hd]; rfl, by omega, by omega, ?_⟩
  have hplace : n * (x.interval.onGrid (p - (m + 1 : Nat))).den =
      n * Text.tenTo (p - (m + 1 : Nat)).toNat * x.interval.den :=
    (congrArg (n * ·) (Nat.mul_comm _ _)).trans (Nat.mul_assoc _ _ _).symm
  rw [Interval.contains_iff, hplace] at hcontains
  exact hcontains

end Binary64

end TableClient
