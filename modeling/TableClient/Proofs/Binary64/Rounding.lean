import Mathlib.Tactic.Ring
import TableClient.Binary64.Shortest

/-! Rounding to the nearest double. Every quotient in the rounding interval of a finite double, the end points
included where its significand is even, is rounded to this double. So no quotient is in the rounding
intervals of two. -/

namespace TableClient.Binary64

variable {x : Binary64} {num den : Nat}

theorem scaled_eq (x : Binary64) : x.scaled = x.significand * 2 ^ x.unit :=
  Nat.shiftLeft_eq _ _

/-- The encoding counts the doubles of one sign in their order: those of the units below, and then the
significands. -/
theorem magnitude_eq (x : Binary64) : x.magnitude = x.unit * leadingBit + x.significand := by
  unfold unit significand
  split
  next h => rw [Nat.div_eq_of_lt h]; omega
  next h =>
    unfold leadingBit at *
    omega

theorem significand_lt (x : Binary64) : x.significand < 2 ^ 53 := by
  unfold significand
  split
  next h =>
    unfold leadingBit at h
    omega
  next h =>
    unfold leadingBit
    omega

theorem le_significand (h : 0 < x.unit) : 2 ^ 52 ≤ x.significand := by
  unfold significand
  unfold unit leadingBit at h
  unfold leadingBit
  split <;> omega

theorem significand_pos (h : x.magnitude ≠ 0) : 0 < x.significand := by
  unfold significand leadingBit
  split <;> omega

/-- The quotient is rounded to the number that is less than a half away, or a half away and even. -/
theorem divideNearest_eq {n : Nat} (hden : 0 < den) (hlow : 2 * (n * den) ≤ 2 * num + den)
    (hhigh : 2 * num ≤ 2 * (n * den) + den)
    (htie : 2 * (n * den) = 2 * num + den ∨ 2 * num = 2 * (n * den) + den → n % 2 = 0) :
    divideNearest num den = n := by
  have hdivision := Nat.div_add_mod num den
  have hmod := Nat.mod_lt num hden
  rw [divideNearest]
  rcases Nat.lt_trichotomy (num / den) n with hlt | heq | hgt
  · -- the quotient is the number before, since it is more than one half away from those further down
    have hnext : num / den + 1 = n := by
      by_contra hne
      have htwo : (num / den + 2) * den ≤ n * den := Nat.mul_le_mul_right den (by omega)
      rw [Nat.add_mul, Nat.mul_comm] at htwo
      omega
    rw [← hnext, Nat.add_mul, Nat.mul_comm (num / den)] at hlow htie
    rw [if_neg]
    · exact hnext
    · omega
  · rw [← heq, Nat.mul_comm (num / den)] at hhigh htie
    rw [if_pos]
    · exact heq
    · omega
  · have hnext : (n + 1) * den ≤ num / den * den := Nat.mul_le_mul_right den hgt
    rw [Nat.add_mul, Nat.mul_comm (num / den)] at hnext
    omega

/-! ### The rounding interval -/

/-- The quotient `num / den` is in the interval. -/
def Interval.Holds (i : Interval) (num den : Nat) : Prop :=
  (i.low * den < num * i.den ∧ num * i.den < i.high * den) ∨
    (i.closed ∧ (num * i.den = i.low * den ∨ num * i.den = i.high * den))

/-- Only the value of a quotient counts. -/
theorem Interval.Holds.congr {i : Interval} {num' den' : Nat} (h : i.Holds num den) (hden : 0 < den)
    (heq : num * den' = num' * den) (hden' : 0 < den') : i.Holds num' den' := by
  have hend (bound : Nat) : num' * i.den * den = num * i.den * den' ∧
      bound * den' * den = bound * den * den' := by
    constructor
    · rw [Nat.mul_right_comm, ← heq, Nat.mul_right_comm]
    · rw [Nat.mul_right_comm]
  rcases h with ⟨hlow, hhigh⟩ | ⟨hclosed, hlow | hhigh⟩
  · refine .inl ⟨Nat.lt_of_mul_lt_mul_right (a := den) ?_, Nat.lt_of_mul_lt_mul_right (a := den) ?_⟩
    · rw [(hend i.low).1, (hend i.low).2]
      exact Nat.mul_lt_mul_of_pos_right hlow hden'
    · rw [(hend i.high).1, (hend i.high).2]
      exact Nat.mul_lt_mul_of_pos_right hhigh hden'
  · refine .inr ⟨hclosed, .inl (Nat.eq_of_mul_eq_mul_right hden ?_)⟩
    rw [(hend i.low).1, (hend i.low).2, hlow]
  · refine .inr ⟨hclosed, .inr (Nat.eq_of_mul_eq_mul_right hden ?_)⟩
    rw [(hend i.high).1, (hend i.high).2, hhigh]

/-- The width of the interval below the double, in quarters of the last bit of the significand. -/
def quartersBelow (x : Binary64) : Nat :=
  if x.significand = leadingBit ∧ 0 < x.unit then 1 else 2

/-- Only the least significand of a binade is nearer to the double below it. -/
theorem quartersBelow_cases (x : Binary64) :
    (x.quartersBelow = 1 ∧ x.significand = 2 ^ 52 ∧ 0 < x.unit) ∨
      (x.quartersBelow = 2 ∧ (0 < x.unit → 2 ^ 52 < x.significand)) := by
  unfold quartersBelow
  split
  next h => exact .inl ⟨rfl, h⟩
  next h =>
    refine .inr ⟨rfl, fun hu => ?_⟩
    have hne : x.significand ≠ 2 ^ 52 := fun heq => h ⟨heq, hu⟩
    have hle := x.le_significand hu
    omega

theorem low_interval (x : Binary64) :
    x.interval.low = (4 * x.significand - x.quartersBelow) * 2 ^ x.unit := by
  rw [interval, scaled_eq, ← quartersBelow, Nat.shiftLeft_eq, Nat.sub_mul, Nat.mul_assoc]

theorem high_interval (x : Binary64) : x.interval.high = (4 * x.significand + 2) * 2 ^ x.unit := by
  rw [Nat.add_mul, Nat.mul_assoc, ← scaled_eq, ← Nat.shiftLeft_eq 2]
  rfl

theorem den_interval (x : Binary64) : x.interval.den = 4 * 2 ^ 1074 := by
  have hfour (k : Nat) : 1 <<< (2 + k) = 4 * 2 ^ k := by rw [Nat.one_shiftLeft, Nat.pow_add]
  exact hfour 1074

/-- The interval around the significand, over the unit of its last bit. -/
theorem Interval.Holds.bounds (h : x.interval.Holds num den) (hpos : x.magnitude ≠ 0) :
    let unit := den * 2 ^ x.unit
    let n := num * 2 ^ 1074
    4 * (x.significand * unit) ≤ 4 * n + x.quartersBelow * unit ∧
      4 * n ≤ 4 * (x.significand * unit) + 2 * unit ∧
      (4 * (x.significand * unit) = 4 * n + x.quartersBelow * unit ∨
        4 * n = 4 * (x.significand * unit) + 2 * unit → x.significand % 2 = 0) := by
  intro unit n
  have hsig := significand_pos hpos
  have hquarters : x.quartersBelow ≤ 4 * x.significand := by
    rcases x.quartersBelow_cases with h | h <;> omega
  have hlow : x.interval.low * den + x.quartersBelow * unit = 4 * (x.significand * unit) := by
    rw [low_interval, Nat.sub_mul, Nat.sub_mul]
    have hle : x.quartersBelow * 2 ^ x.unit * den ≤ 4 * x.significand * 2 ^ x.unit * den :=
      Nat.mul_le_mul_right _ (Nat.mul_le_mul_right _ hquarters)
    have hbelow : x.quartersBelow * 2 ^ x.unit * den = x.quartersBelow * unit := by ring
    have hvalue : 4 * x.significand * 2 ^ x.unit * den = 4 * (x.significand * unit) := by ring
    omega
  have hhigh : x.interval.high * den = 4 * (x.significand * unit) + 2 * unit := by
    rw [high_interval]
    ring
  have hnum : num * x.interval.den = 4 * n := by
    rw [den_interval, Nat.mul_left_comm]
  have hclosed : x.interval.closed = true ↔ x.significand % 2 = 0 := decide_eq_true_iff
  rw [Holds, hnum, hhigh, hclosed] at h
  omega

/-- The unit of the last bit, by the size of a number. -/
theorem log2_sub_eq {n u : Nat} (hlow : 0 < u → 2 ^ (52 + u) ≤ n) (hhigh : n < 2 ^ (53 + u)) :
    n.log2 - 52 = u := by
  by_cases hzero : n = 0
  · subst hzero
    have hu : u = 0 := by
      by_contra hne
      exact absurd (hlow (Nat.pos_of_ne_zero hne)) (Nat.not_le.2 (Nat.two_pow_pos _))
    rw [hu]
    rfl
  · have hlog : n.log2 < 53 + u := (Nat.log2_lt hzero).2 hhigh
    rcases Nat.eq_zero_or_pos u with rfl | hpos
    · omega
    · have hle : 52 + u ≤ n.log2 := (Nat.le_log2 hzero).2 (hlow hpos)
      omega

/-- How a quotient is rounded whose integer part has a known size. -/
theorem roundMagnitude_eq {u n : Nat} (hden : 0 < den)
    (hlow : 0 < u → 2 ^ 52 * (den * 2 ^ u) ≤ num * 2 ^ 1074)
    (hhigh : num * 2 ^ 1074 < 2 ^ 53 * (den * 2 ^ u))
    (hnear : divideNearest (num * 2 ^ 1074) (den * 2 ^ u) = n) :
    roundMagnitude num den = min (u * leadingBit + n) infinityMagnitude := by
  have hunit : (num * 2 ^ 1074 / den).log2 - 52 = u := by
    refine log2_sub_eq (fun hu => ?_) ?_
    · rw [Nat.le_div_iff_mul_le hden, Nat.pow_add]
      calc 2 ^ 52 * 2 ^ u * den = 2 ^ 52 * (den * 2 ^ u) := by ring
        _ ≤ _ := hlow hu
    · rw [Nat.div_lt_iff_lt_mul hden, Nat.pow_add]
      calc num * 2 ^ 1074 < 2 ^ 53 * (den * 2 ^ u) := hhigh
        _ = 2 ^ 53 * 2 ^ u * den := by ring
  simp only [roundMagnitude, Nat.shiftLeft_eq, hunit, hnear]

/-- A quotient in the rounding interval of a finite double is rounded to the double. -/
theorem roundMagnitude_of_holds (hfinite : x.isFinite) (hpos : x.magnitude ≠ 0) (hden : 0 < den)
    (h : x.interval.Holds num den) : roundMagnitude num den = x.magnitude := by
  obtain ⟨hlow, hhigh, htie⟩ := h.bounds hpos
  have hsig := x.significand_lt
  have hmagnitude : min (x.unit * leadingBit + x.significand) infinityMagnitude = x.magnitude := by
    rw [← magnitude_eq]
    exact Nat.min_eq_left (Nat.le_of_lt (of_decide_eq_true hfinite))
  have hunit : 0 < den * 2 ^ x.unit := Nat.mul_pos hden (Nat.two_pow_pos _)
  have hbelow : x.significand * (den * 2 ^ x.unit) + den * 2 ^ x.unit ≤ 2 ^ 53 * (den * 2 ^ x.unit) := by
    rw [← Nat.succ_mul]
    exact Nat.mul_le_mul_right _ hsig
  by_cases hcross : x.quartersBelow = 1 ∧ num * 2 ^ 1074 < x.significand * (den * 2 ^ x.unit)
  · -- below the least significand of a binade the unit is half as large
    obtain ⟨hquarter, hless⟩ := hcross
    have hleast : x.significand = 2 ^ 52 ∧ 0 < x.unit := by
      rcases x.quartersBelow_cases with h | h <;> omega
    obtain ⟨u, hu⟩ : ∃ u, x.unit = u + 1 := Nat.exists_eq_add_one_of_ne_zero (Nat.ne_of_gt hleast.2)
    have hhalf : den * 2 ^ x.unit = 2 * (den * 2 ^ u) := by
      rw [hu, Nat.pow_succ]
      ring
    rw [hhalf, hleast.1] at hless
    rw [hhalf, hleast.1, hquarter] at hlow
    have hmag : u * leadingBit + 2 ^ 53 = x.unit * leadingBit + x.significand := by
      rw [hleast.1, hu, leadingBit]
      omega
    have hhalfPos : 0 < den * 2 ^ u := Nat.mul_pos hden (Nat.two_pow_pos _)
    rw [roundMagnitude_eq hden (by omega) (by omega)
      (divideNearest_eq (n := 2 ^ 53) hhalfPos (by omega) (by omega) (by omega)), hmag, hmagnitude]
  · -- elsewhere the number is at most half of the last bit away
    have hlast : 0 < x.unit → 2 ^ 52 * (den * 2 ^ x.unit) ≤ num * 2 ^ 1074 := by
      intro hu
      rcases x.quartersBelow_cases with ⟨hquarter, -⟩ | ⟨hquarter, hmore⟩
      · have hleast := Nat.mul_le_mul_right (den * 2 ^ x.unit) (x.le_significand hu)
        omega
      · have hleast := Nat.mul_le_mul_right (den * 2 ^ x.unit) (hmore hu)
        rw [Nat.succ_mul] at hleast
        rw [hquarter] at hlow
        omega
    obtain ⟨hhalf, hties⟩ :
        2 * (x.significand * (den * 2 ^ x.unit)) ≤ 2 * (num * 2 ^ 1074) + den * 2 ^ x.unit ∧
        (2 * (x.significand * (den * 2 ^ x.unit)) = 2 * (num * 2 ^ 1074) + den * 2 ^ x.unit ∨
          2 * (num * 2 ^ 1074) = 2 * (x.significand * (den * 2 ^ x.unit)) + den * 2 ^ x.unit →
            x.significand % 2 = 0) := by
      rcases x.quartersBelow_cases with ⟨hquarter, -⟩ | ⟨hquarter, -⟩ <;> rw [hquarter] at hlow htie <;> omega
    rw [roundMagnitude_eq hden hlast (by omega) (divideNearest_eq hunit hhalf (by omega) hties), hmagnitude]

end TableClient.Binary64
