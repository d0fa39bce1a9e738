import TableClient.Json.Decode
import TableClient.Proofs.Binary64.Monotone
import TableClient.Proofs.Json.DoubleText
import TableClient.Proofs.Json.Spelling

/-! Numbers read back. Integers are read as what they are. A double is read from its digits by one product or
quotient, which is exact before it is rounded if the digits and the power of ten are doubles; then the double
is read as what it is, and else it need not be. The text itself always says which double it is. -/

namespace TableClient.Json

/-! ### Digits -/

theorem le_ofDigitChars (ds : List Char) (n : Nat) : n ≤ Nat.ofDigitChars 10 ds n := by
  induction ds generalizing n with
  | nil => exact Nat.le_refl n
  | cons d ds ih =>
    rw [Nat.ofDigitChars_cons]
    exact Nat.le_trans (by omega) (ih _)

/-- Digits are taken to the last one, if their number fits 64 bits. -/
theorem Significand.take_eq {ds : List Char} {n : Nat} (h : Nat.ofDigitChars 10 ds n < UInt64.size) :
    Significand.take n ds = ⟨Nat.ofDigitChars 10 ds n, 0⟩ := by
  induction ds generalizing n with
  | nil => rfl
  | cons d ds ih =>
    rw [Nat.ofDigitChars_cons] at h ⊢
    have hnext := Nat.lt_of_le_of_lt (le_ofDigitChars ds _) h
    rw [Significand.take, Nat.mul_comm n, if_pos hnext, ih h]

/-- The value of a number with a fraction or an exponent. -/
theorem NumberText.value?_eq {t : NumberText} (h : t.significand < UInt64.size)
    (hparts : t.fraction.isSome ∨ t.exponent.isSome) :
    t.value? = signed t.negative t.significand t.power := by
  obtain ⟨negative, whole, fraction, exponent⟩ := t
  have hsplit : Nat.ofDigitChars 10 (whole ++ fraction.getD []) 0 =
      Nat.ofDigitChars 10 (fraction.getD []) (Nat.ofDigitChars 10 whole 0) := Nat.ofDigitChars_append 0
  simp only [significand, hsplit] at h
  have hwhole := Significand.take_eq (Nat.lt_of_le_of_lt (le_ofDigitChars _ _) h)
  have hall := Significand.take_eq h
  have hpower (e : Int) (k : Nat) : ((0 : Nat) : Int) - ((k - 0 : Nat) : Int) + e = e - k := by omega
  rw [NumberText.value?]
  split
  next hfraction hexponent =>
    subst hfraction hexponent
    exact absurd hparts (by simp)
  next =>
    simp only [significand, power, hsplit, hwhole, hall, hpower]

/-! ### Integers -/

def integerText (n : Int) : NumberText :=
  ⟨n < 0, Text.decimal n.natAbs, none, none⟩

theorem chars_integerText (n : Int) : (integerText n).chars = Text.integer n := by
  simp only [integerText, NumberText.chars, fractionChars, exponentChars, Text.integer, decide_eq_true_eq,
    List.append_nil]
  split <;> rfl

theorem isPlain_integerText (n : Int) : (integerText n).IsPlain := by
  refine ⟨fun _ => Text.isDigit_of_mem_decimal, Text.decimal_ne_nil _, ?_, by rintro _ ⟨⟩⟩
  rcases Nat.eq_zero_or_pos n.natAbs with hzero | hpos
  · refine .inl ?_
    rw [integerText, hzero]
    rfl
  · exact .inr (head?_decimal hpos)

/-- An integer of 64 bits is read as what it is. -/
theorem value?_integerText {n : Int} (hlow : Int64.minValue.toInt ≤ n) (hhigh : n < UInt64.size) :
    (integerText n).value? = some (.int n) := by
  have hmin : Int64.minValue.toInt = -2 ^ 63 := rfl
  have hsize : UInt64.size = 2 ^ 64 := rfl
  have hvalue : Nat.ofDigitChars 10 (Text.decimal n.natAbs) 0 = n.natAbs := Nat.ofDigitChars_ten_toDigits
  have htake : Significand.take 0 (Text.decimal n.natAbs) = ⟨n.natAbs, 0⟩ := by
    rw [Significand.take_eq, hvalue]
    omega
  simp only [integerText, NumberText.value?, htake]
  by_cases hneg : n < 0
  · have hback : -(n.natAbs : Int) = n := by omega
    rw [if_neg (by simp [hneg]), if_pos ⟨trivial, by omega, by omega⟩, hback]
  · have hback : (n.natAbs : Int) = n := by omega
    rw [if_pos (by simp [hneg]), hback]

theorem Tree.integerIn?_integerText {low high n : Int} (hlow : low ≤ n) (hhigh : n ≤ high)
    (hmin : Int64.minValue.toInt ≤ n) (hmax : n < UInt64.size) :
    integerIn? low high (.number (integerText n)) = some n := by
  simp only [integerIn?, value?_integerText hmin hmax]
  exact if_pos ⟨hlow, hhigh⟩

theorem spells_integer (n : Int) : Spells (Text.integer n) (.number (integerText n)) :=
  chars_integerText n ▸ .number (isPlain_integerText n)

/-! ### Doubles -/

theorem NumberText.pointed_parts (negative : Bool) (ds : List Char) (point : Int) :
    (pointed negative ds point).negative = negative ∧ (pointed negative ds point).fraction.isSome := by
  unfold pointed
  split
  · exact ⟨rfl, rfl⟩
  · split <;> exact ⟨rfl, rfl⟩

/-- The text of a double has its sign, and says by a fraction or an exponent that it is none of an integer. -/
theorem numberText_parts (x : Binary64) : (numberText x).negative = x.isNegative ∧
    ((numberText x).fraction.isSome ∨ (numberText x).exponent.isSome) := by
  unfold numberText
  split
  · exact (NumberText.pointed_parts _ _ _).imp_right Or.inl
  · dsimp only
    split
    · exact (NumberText.pointed_parts _ _ _).imp_right Or.inl
    · exact ⟨rfl, .inr rfl⟩

theorem numberText_zero {x : Binary64} (h : x.magnitude = 0) :
    (numberText x).significand = 0 ∧ (numberText x).power = -1 := by
  rw [numberText, if_pos h]
  exact ⟨rfl, rfl⟩

theorem significand_numberText_le (x : Binary64) : (numberText x).significand ≤ 10 ^ 17 := by
  by_cases h : x.magnitude = 0
  · rw [(numberText_zero h).1]
    decide
  · exact (numberText_spec h).2.1

/-- A finite double is not read off as null. -/
theorem spells_doubleText {x : Binary64} (h : x.isFinite) : Spells (doubleText x) (.number (numberText x)) :=
  chars_numberText h ▸ .number (isPlain_numberText x)

/-- The decimal in the text of a finite double is rounded to it. -/
theorem roundMagnitude_numberText {x : Binary64} (h : x.isFinite) :
    Binary64.roundMagnitude ((numberText x).significand * Text.tenTo (numberText x).power.toNat)
      (Text.tenTo (-(numberText x).power).toNat) = x.magnitude := by
  by_cases hzero : x.magnitude = 0
  · rw [(numberText_zero hzero).1, Nat.zero_mul, Binary64.roundMagnitude_zero (Binary64.tenTo_pos _), hzero]
  · exact Binary64.roundMagnitude_of_holds h hzero (Binary64.tenTo_pos _) (numberText_spec hzero).2.2

/-- The parts of the text of a finite double say which one it is. -/
theorem numberText_inj {x y : Binary64} (hx : x.isFinite) (hy : y.isFinite)
    (h : numberText x = numberText y) : x = y := by
  have hsign : x.isNegative = y.isNegative := by
    rw [← (numberText_parts x).1, h, (numberText_parts y).1]
  have hmagnitude : x.magnitude = y.magnitude := by
    rw [← roundMagnitude_numberText hx, h, roundMagnitude_numberText hy]
  rw [← Binary64.ofMagnitude_magnitude x, hsign, hmagnitude, Binary64.ofMagnitude_magnitude]

theorem readNumber_doubleText {x : Binary64} (h : x.isFinite) :
    readNumber (doubleText x) = some (numberText x, []) := by
  rw [← chars_numberText h, ← List.append_nil (numberText x).chars,
    readNumber_chars (isPlain_numberText x) stops_nil]

def reread? (x : Binary64) : Option Binary64 :=
  (Tree.read? (String.ofList (doubleText x))).bind Tree.double?

theorem doubleText_of_not_isFinite {x : Binary64} (h : x.isFinite = false) : doubleText x = "null".toList :=
  if_neg (by rw [h]; exact Bool.false_ne_true)

theorem reread?_of_not_isFinite {x : Binary64} (h : x.isFinite = false) : reread? x = none := by
  rw [reread?, doubleText_of_not_isFinite h, Spells.null.read?_eq]
  rfl

theorem double?_numberText (x : Binary64) : Tree.double? (.number (numberText x)) =
    (scale (.ofInt (numberText x).significand) (numberText x).power).map
      fun y => .ofMagnitude x.isNegative y.magnitude := by
  have hlt : (numberText x).significand < UInt64.size :=
    Nat.lt_of_le_of_lt (significand_numberText_le x) (by decide)
  obtain ⟨hnegative, hparts⟩ := numberText_parts x
  rw [Tree.double?, NumberText.value?_eq hlt hparts, signed, hnegative, Option.map_map]
  rfl

theorem reread?_of_isFinite {x : Binary64} (h : x.isFinite) :
    reread? x = Tree.double? (.number (numberText x)) := by
  rw [reread?, (spells_doubleText h).read?_eq, Option.bind_some]

theorem scaled_powerOfTen {k : Nat} (h : k ≤ 22) :
    (powerOfTen k).scaled = Text.tenTo k * 2 ^ 1074 := by
  have hten : Text.tenTo k = 5 ^ k * 2 ^ k := Nat.mul_pow 5 2 k
  have hfive : 5 ^ k < 2 ^ 53 := by
    calc 5 ^ k ≤ 5 ^ 22 := Nat.pow_le_pow_right (by decide) h
      _ < 2 ^ 53 := by decide
  rw [powerOfTen, hten, Binary64.scaled_ofRatio_one (Nat.pow_pos (by decide)) hfive (by omega)]

theorem scale_of_neg (x : Binary64) {e : Int} (h : e < 0) (hlow : -308 ≤ e) :
    scale x e = some (x.divMagnitude (powerOfTen e.natAbs)) := by
  rw [scale, if_neg (by omega), if_pos h]

theorem scale_of_nonneg (x : Binary64) {e : Int} (h : 0 ≤ e) (hhigh : e ≤ 308)
    (hfinite : (x.mulMagnitude (powerOfTen e.natAbs)).isFinite) :
    scale x e = some (x.mulMagnitude (powerOfTen e.natAbs)) := by
  rw [scale, if_neg (by omega), if_neg (by omega), if_pos hhigh]
  exact if_pos hfinite

/-- The product or quotient of two exact doubles is rounded only once, and so to the double whose text it is. -/
theorem scale_numberText {x : Binary64} (hfinite : x.isFinite) (hsig : (numberText x).significand < 2 ^ 53)
    (hpower : (numberText x).power.natAbs ≤ 22) :
    ∃ y, scale (.ofInt (numberText x).significand) (numberText x).power = some y ∧
      y.magnitude = x.magnitude := by
  have hround := roundMagnitude_numberText hfinite
  have hdigits := Binary64.scaled_ofInt hsig
  have hten := scaled_powerOfTen hpower
  rcases Int.lt_or_le (numberText x).power 0 with hneg | hnonneg
  · have hplain : (numberText x).power.toNat = 0 := by omega
    have hplaces : (-(numberText x).power).toNat = (numberText x).power.natAbs := by omega
    rw [hplain, hplaces] at hround
    refine ⟨_, scale_of_neg _ hneg (by omega), ?_⟩
    rw [Binary64.magnitude_divMagnitude hdigits hten, ← hround]
    exact congrArg (Binary64.roundMagnitude · _) (Nat.mul_one _).symm
  · have hplain : (-(numberText x).power).toNat = 0 := by omega
    have hplaces : (numberText x).power.toNat = (numberText x).power.natAbs := by omega
    rw [hplain, hplaces] at hround
    have hproduct := (Binary64.magnitude_mulMagnitude hdigits hten).trans hround
    refine ⟨_, scale_of_nonneg _ hnonneg (by omega) ?_, hproduct⟩
    rw [Binary64.isFinite, hproduct]
    exact hfinite

/-- A double comes back, if its digits are a number of at most 53 bits and the power of ten is within 22. -/
theorem reread?_of_exact {x : Binary64} {t : NumberText} (h : readNumber (doubleText x) = some (t, []))
    (hsig : t.significand < 2 ^ 53) (hpower : t.power.natAbs ≤ 22) : reread? x = some x := by
  cases hfinite : x.isFinite with
  | true =>
    rw [readNumber_doubleText hfinite] at h
    cases h
    obtain ⟨y, hscale, hmagnitude⟩ := scale_numberText hfinite hsig hpower
    rw [reread?_of_isFinite hfinite, double?_numberText, hscale, Option.map_some, hmagnitude,
      Binary64.ofMagnitude_magnitude]
  | false =>
    rw [doubleText_of_not_isFinite hfinite] at h
    cases h

/-! ### No text of a double is too large -/

theorem isSome_scale_of_neg (x : Binary64) {e : Int} (h : e < 0) : (scale x e).isSome := by
  fun_induction scale x e with
  | case1 => rfl
  | case2 x e hlow hne ih => exact ih (by omega)
  | case3 => rfl
  | case4 => omega
  | case5 => omega
  | case6 => omega
  | case7 => omega

/-- The middle between the largest double and the power of two after it. -/
def overflowStart : Nat := (2 ^ 54 - 1) * 2 ^ 970

/-- A number is below the end of the last binade, in whatever unit both are counted. -/
theorem le_of_last_binade {n s u a b m : Nat} (hs : s < 2 ^ 53) (hu : u ≤ m) (hplaces : m + 1 = a + (b + 2))
    (h : 4 * (n * 2 ^ b) ≤ 4 * (s * 2 ^ u) + 2 * 2 ^ u) : n ≤ (2 ^ 54 - 1) * 2 ^ a := by
  have hlast : 2 * 2 ^ m = 2 ^ a * 2 ^ (b + 2) := by rw [← Nat.pow_add, ← hplaces, Nat.pow_succ']
  refine Nat.le_of_mul_le_mul_right ?_ (Nat.two_pow_pos (b + 2))
  calc n * 2 ^ (b + 2) = 4 * (n * 2 ^ b) := by ring
    _ ≤ (4 * s + 2) * 2 ^ u := by rwa [Nat.add_mul, Nat.mul_assoc]
    _ ≤ (2 ^ 54 - 1) * 2 * 2 ^ m := Nat.mul_le_mul (by omega) (Nat.pow_le_pow_right (by decide) hu)
    _ = (2 ^ 54 - 1) * 2 ^ a * 2 ^ (b + 2) := by rw [Nat.mul_assoc, hlast, Nat.mul_assoc]

/-- A number in the rounding interval of a finite double is not more than that middle. -/
theorem le_overflowStart {x : Binary64} {n : Nat} (hfinite : x.isFinite) (hne : x.magnitude ≠ 0)
    (h : x.interval.Holds n 1) : n ≤ overflowStart := by
  obtain ⟨-, hhigh, -⟩ := h.bounds hne
  have hunit : x.unit ≤ 2045 := by
    have hmagnitude : x.magnitude < Binary64.infinityMagnitude := of_decide_eq_true hfinite
    unfold Binary64.infinityMagnitude at hmagnitude
    unfold Binary64.unit Binary64.leadingBit
    omega
  rw [Nat.one_mul] at hhigh
  exact le_of_last_binade x.significand_lt hunit rfl hhigh

/-- The largest double is written with another last digit than the number of seventeen digits next to it,
whose product with the power of ten would be too large. -/
theorem significand_numberText_ne {x : Binary64} (hfinite : x.isFinite) (hpower : (numberText x).power = 292) :
    (numberText x).significand ≠ 17976931348623158 := by
  intro hsig
  have hplaces : (numberText x).power.toNat = 292 := by omega
  have hplain : (-(numberText x).power).toNat = 0 := by omega
  have hmagnitude := roundMagnitude_numberText hfinite
  have hround : Binary64.roundMagnitude (17976931348623158 * Text.tenTo 292) (Text.tenTo 0) =
      0x7fefffffffffffff := by decide +kernel
  have hlargest (negative : Bool) :
      (numberText (.ofMagnitude negative 0x7fefffffffffffff)).significand = 17976931348623157 := by
    cases negative <;> decide +kernel
  rw [hsig, hplaces, hplain, hround] at hmagnitude
  rw [← Binary64.ofMagnitude_magnitude x, ← hmagnitude, hlargest] at hsig
  cases hsig

theorem scaled_powerOfTen_mono {j k : Nat} (h : j ≤ k) : (powerOfTen j).scaled ≤ (powerOfTen k).scaled := by
  refine Binary64.scaled_mono ?_
  rw [powerOfTen, powerOfTen, Binary64.magnitude_ofRatio, Binary64.magnitude_ofRatio]
  exact Binary64.roundMagnitude_mono Nat.one_pos (Nat.pow_le_pow_right (by decide) h)

theorem isFinite_product {m n j k : Nat} (hn : m ≤ n) (hk : j ≤ k)
    (h : (Binary64.mulMagnitude (.ofInt n) (powerOfTen k)).isFinite) :
    (Binary64.mulMagnitude (.ofInt m) (powerOfTen j)).isFinite :=
  Binary64.isFinite_mulMagnitude (Binary64.scaled_ofInt_mono hn) (scaled_powerOfTen_mono hk) h

/-- The text of a finite double is read as some finite double: the product is largest at the largest digits
for a power of ten. -/
theorem isSome_scale_numberText {x : Binary64} (h : x.isFinite) :
    (scale (.ofInt (numberText x).significand) (numberText x).power).isSome := by
  rcases Int.lt_or_le (numberText x).power 0 with hneg | hnonneg
  · exact isSome_scale_of_neg _ hneg
  obtain ⟨k, hk⟩ := Int.eq_ofNat_of_zero_le hnonneg
  have hne : x.magnitude ≠ 0 := by
    intro hzero
    rw [(numberText_zero hzero).2] at hk
    omega
  obtain ⟨hpos, hmost, hholds⟩ := numberText_spec hne
  have hbound : (numberText x).significand * Text.tenTo k ≤ overflowStart := by
    have hplain : (-(k : Int)).toNat = 0 := by omega
    rw [hk, Int.toNat_natCast, hplain] at hholds
    exact le_overflowStart h hne hholds
  have hpower : k ≤ 308 := by
    by_contra hlarge
    have hten (j : Nat) (hj : j ≤ k) : Text.tenTo j ≤ overflowStart :=
      calc Text.tenTo j ≤ Text.tenTo k := Nat.pow_le_pow_right (by decide) hj
        _ ≤ (numberText x).significand * Text.tenTo k := Nat.le_mul_of_pos_left _ hpos
        _ ≤ overflowStart := hbound
    exact absurd (hten 309 (by omega)) (by decide +kernel)
  have hfinite : (Binary64.mulMagnitude (.ofInt (numberText x).significand) (powerOfTen k)).isFinite := by
    rcases Nat.lt_trichotomy k 292 with hless | rfl | hmore
    · exact isFinite_product hmost (show k ≤ 291 by omega) (by decide +kernel)
    · have hlast : (numberText x).significand ≤ overflowStart / Text.tenTo 292 :=
        (Nat.le_div_iff_mul_le (Binary64.tenTo_pos 292)).2 hbound
      have hquotient : overflowStart / Text.tenTo 292 = 17976931348623158 := by decide +kernel
      have hother := significand_numberText_ne h hk
      exact isFinite_product (n := 17976931348623157) (by omega) (Nat.le_refl 292) (by decide +kernel)
    · obtain ⟨j, hj, rfl⟩ : ∃ j < 16, k = 293 + j := ⟨k - 293, by omega, by omega⟩
      have hlargest : ∀ j < 16, (Binary64.mulMagnitude (.ofInt (overflowStart / Text.tenTo (293 + j) : Nat))
          (powerOfTen (293 + j))).isFinite := by decide +kernel
      exact isFinite_product ((Nat.le_div_iff_mul_le (Binary64.tenTo_pos _)).2 hbound) (Nat.le_refl _)
        (hlargest j hj)
  rw [scale_of_nonneg _ hnonneg (by omega)]
  · rfl
  · rw [hk]
    exact hfinite

/-- What is written for a double is read as a double, if it is finite. -/
theorem isSome_reread? (x : Binary64) : (reread? x).isSome = x.isFinite := by
  cases hfinite : x.isFinite with
  | true =>
    rw [reread?_of_isFinite hfinite, double?_numberText, Option.isSome_map]
    exact isSome_scale_numberText hfinite
  | false => rw [reread?_of_not_isFinite hfinite, Option.isSome_none]

end TableClient.Json
