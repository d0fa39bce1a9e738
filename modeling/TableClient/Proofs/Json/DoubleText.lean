import Mathlib.Tactic.LinearCombination
import TableClient.Proofs.Binary64.Shortest
import TableClient.Proofs.Json.Lexing

/-! The text of a double as a number of JSON. Its parts are digits without a leading zero, so it is read as one
number, and what it says is the decimal that the search for the shortest one has found: a number in the
rounding interval of the double. -/

namespace TableClient

/-! ### Digits without leading zeros -/

/-- The digits of a number that is not zero. -/
structure LeadingDigits (ds : List Char) : Prop where
  digits : ∀ c ∈ ds, c.isDigit
  ne_nil : ds ≠ []
  head : ds.head? ≠ some '0'

theorem head?_decimal {n : Nat} (h : 0 < n) : (Text.decimal n).head? ≠ some '0' := by
  induction n using Nat.strongRecOn with
  | ind n ih =>
    rw [Text.decimal]
    by_cases hlt : n < 10
    · rw [Nat.toDigits_of_lt_base hlt]
      simpa using Nat.ne_of_gt h
    · rw [Nat.toDigits_of_base_le (by decide) (Nat.not_lt.1 hlt),
        List.head?_append_of_ne_nil _ Nat.toDigits_ne_nil]
      exact ih (n / 10) (by omega) (by omega)

theorem leadingDigits_decimal {n : Nat} (h : 0 < n) : LeadingDigits (Text.decimal n) :=
  ⟨fun _ => Text.isDigit_of_mem_decimal, Text.decimal_ne_nil n, head?_decimal h⟩

theorem ofDigitChars_append_zeros (ds : List Char) (j : Nat) :
    Nat.ofDigitChars 10 (ds ++ List.replicate j '0') 0 = Nat.ofDigitChars 10 ds 0 * 10 ^ j := by
  rw [Nat.ofDigitChars_append, Nat.ofDigitChars_replicate_zero, Nat.mul_comm]

theorem exists_dropWhile_zeros (cs : List Char) :
    ∃ j, cs = List.replicate j '0' ++ cs.dropWhile (· == '0') := by
  induction cs with
  | nil => exact ⟨0, rfl⟩
  | cons c cs ih =>
    by_cases hzero : c = '0'
    · obtain ⟨j, hj⟩ := ih
      refine ⟨j + 1, ?_⟩
      rw [List.dropWhile_cons, if_pos (by simpa using hzero), List.replicate_succ, List.cons_append, ← hj,
        hzero]
    · exact ⟨0, by simp [hzero]⟩

/-- Cutting zeros from the end of the digits moves them into the exponent. -/
theorem Decimal.exists_dropZeros {n : Nat} (h : 0 < n) (k : Int) :
    ∃ ds j, (Decimal.mk n k).dropZeros = (ds, k + (j : Nat)) ∧ LeadingDigits ds ∧
      n = Nat.ofDigitChars 10 ds 0 * 10 ^ j := by
  have hleading := leadingDigits_decimal h
  have hvalue : Nat.ofDigitChars 10 (Text.decimal n) 0 = n := Nat.ofDigitChars_ten_toDigits
  obtain ⟨j, hj⟩ := exists_dropWhile_zeros (Text.decimal n).reverse
  obtain ⟨ds, hds⟩ : ∃ ds, ((Text.decimal n).reverse.dropWhile (· == '0')).reverse = ds := ⟨_, rfl⟩
  have hsplit : Text.decimal n = ds ++ List.replicate j '0' := by
    rw [← List.reverse_reverse (Text.decimal n), hj, List.reverse_append, List.reverse_replicate, hds]
  have hpower : n = Nat.ofDigitChars 10 ds 0 * 10 ^ j := by
    rw [← ofDigitChars_append_zeros, ← hsplit, hvalue]
  have hne : ds ≠ [] := by
    rintro rfl
    rw [Nat.ofDigitChars_nil, Nat.zero_mul] at hpower
    omega
  refine ⟨ds, j, ?_, ⟨fun c hc => ?_, hne, ?_⟩, hpower⟩
  · have hlength : ((Text.decimal n).length : Int) - ds.length = j := by
      rw [hsplit, List.length_append, List.length_replicate]
      omega
    simp only [dropZeros, hds, hlength]
  · exact hleading.digits c (hsplit ▸ List.mem_append_left _ hc)
  · have hhead := hleading.head
    rwa [hsplit, List.head?_append_of_ne_nil _ hne] at hhead

namespace Json

/-! ### The parts of the text -/

namespace NumberText

def significand (t : NumberText) : Nat :=
  Nat.ofDigitChars 10 (t.whole ++ t.fraction.getD []) 0

/-- The power of ten that the last digit counts. -/
def power (t : NumberText) : Int :=
  t.exponent.getD 0 - (t.fraction.getD []).length

/-- Digits with the point after the first `point` of them. -/
def pointed (negative : Bool) (ds : List Char) (point : Int) : NumberText :=
  if point ≤ 0 then ⟨negative, ['0'], some (List.replicate (-point).toNat '0' ++ ds), none⟩
  else if ds.length ≤ point then
    ⟨negative, ds ++ List.replicate (point - ds.length).toNat '0', some ['0'], none⟩
  else ⟨negative, ds.take point.toNat, some (ds.drop point.toNat), none⟩

/-- Digits with the point after the first one, and an exponent. -/
def scientific (negative : Bool) (ds : List Char) (e : Int) : NumberText :=
  ⟨negative, ds.take 1, if 1 < ds.length then some (ds.drop 1) else none, some e⟩

variable {negative : Bool} {ds : List Char} {point e : Int}

theorem chars_pointed : (pointed negative ds point).chars =
    (if negative then ['-'] else []) ++ Binary64.json.pointed ds point := by
  unfold pointed Binary64.DigitLayout.pointed
  split
  · simp [chars, fractionChars, exponentChars]
  · split <;> simp [chars, fractionChars, exponentChars, Binary64.json]

theorem chars_scientific : (scientific negative ds e).chars =
    (if negative then ['-'] else []) ++ Binary64.scientific ds e := by
  unfold scientific Binary64.scientific
  split <;> simp [chars, fractionChars, exponentChars]

theorem isPlain_pointed (h : LeadingDigits ds) : (pointed negative ds point).IsPlain := by
  have hzeros {j : Nat} {c : Char} (hc : c ∈ List.replicate j '0') : c.isDigit := by
    rw [List.eq_of_mem_replicate hc]
    decide
  unfold pointed
  split
  next =>
    refine ⟨by simp, by simp, .inl rfl, ?_⟩
    rintro _ ⟨⟩
    refine ⟨by simp [h.ne_nil], fun c hc => ?_⟩
    exact (List.mem_append.1 hc).elim hzeros (h.digits c)
  next hpositive =>
    split
    next =>
      refine ⟨fun c hc => (List.mem_append.1 hc).elim (h.digits c) hzeros, by simp [h.ne_nil], .inr ?_, ?_⟩
      · dsimp only
        rw [List.head?_append_of_ne_nil _ h.ne_nil]
        exact h.head
      · rintro _ ⟨⟩
        exact ⟨by simp, by simp⟩
    next hlength =>
      have htake : ds.take point.toNat ≠ [] := by
        rw [ne_eq, List.take_eq_nil_iff, not_or]
        exact ⟨by omega, h.ne_nil⟩
      refine ⟨fun c hc => h.digits c (List.mem_of_mem_take hc), htake, .inr ?_, ?_⟩
      · dsimp only
        rw [List.head?_take, if_neg (by omega)]
        exact h.head
      · rintro _ ⟨⟩
        refine ⟨?_, fun c hc => h.digits c (List.mem_of_mem_drop hc)⟩
        rw [ne_eq, List.drop_eq_nil_iff]
        omega

theorem isPlain_scientific (h : LeadingDigits ds) : (scientific negative ds e).IsPlain := by
  refine ⟨fun c hc => h.digits c (List.mem_of_mem_take hc), ?_, .inr ?_, ?_⟩
  · simp only [scientific, ne_eq, List.take_eq_nil_iff, h.ne_nil, or_false]
    decide
  · simp only [scientific, List.head?_take]
    exact h.head
  · intro fraction hfraction
    simp only [scientific] at hfraction
    split at hfraction
    next hlength =>
      cases hfraction
      refine ⟨?_, fun c hc => h.digits c (List.mem_of_mem_drop hc)⟩
      rw [ne_eq, List.drop_eq_nil_iff]
      omega
    next => cases hfraction

/-- All digits are in the text, with zeros around them, and count what they counted. -/
theorem value_pointed (negative : Bool) (ds : List Char) (point : Int) :
    ∃ j : Nat, (pointed negative ds point).significand = Nat.ofDigitChars 10 ds 0 * 10 ^ j ∧
    (pointed negative ds point).power = point - ds.length - j ∧ (0 < j → ds.length + j ≤ point + 1) := by
  unfold pointed
  split
  next hpoint =>
    refine ⟨0, ?_, ?_, by omega⟩
    · show Nat.ofDigitChars 10 (List.replicate ((-point).toNat + 1) '0' ++ ds) 0 = _
      rw [Nat.ofDigitChars_append, Nat.ofDigitChars_replicate_zero, Nat.mul_zero, Nat.pow_zero, Nat.mul_one]
    · simp [power]
      omega
  next hpoint =>
    split
    next hlength =>
      refine ⟨(point - ds.length).toNat + 1, ?_, ?_, by omega⟩
      · rw [← ofDigitChars_append_zeros, List.replicate_succ', ← List.append_assoc]
        rfl
      · simp [power]
        omega
    next hlength =>
      refine ⟨0, ?_, ?_, by omega⟩
      · simp [significand]
      · simp [power]
        omega

theorem value_scientific (h : ds ≠ []) : (scientific negative ds e).significand = Nat.ofDigitChars 10 ds 0 ∧
    (scientific negative ds e).power = e + 1 - ds.length := by
  have hlength := List.length_pos_iff.2 h
  unfold scientific
  split
  next hlong =>
    refine ⟨?_, ?_⟩
    · show Nat.ofDigitChars 10 (ds.take 1 ++ ds.drop 1) 0 = _
      rw [List.take_append_drop]
    · simp [power]
      omega
  next hshort =>
    refine ⟨?_, ?_⟩
    · simp [significand, List.take_of_length_le (show ds.length ≤ 1 by omega)]
    · simp [power]
      omega

end NumberText

def numberText (x : Binary64) : NumberText :=
  if x.magnitude = 0 then .pointed x.isNegative ['0'] 1
  else
    let (ds, exponent) := (x.shortest Binary64.json.tie).dropZeros
    let point := ds.length + exponent
    if Binary64.json.positional (point - 1) then .pointed x.isNegative ds point
    else .scientific x.isNegative ds (point - 1)

theorem chars_numberText {x : Binary64} (h : x.isFinite) : (numberText x).chars = doubleText x := by
  have hsign (cs : List Char) : (if x.isNegative then '-' :: cs else cs) =
      (if x.isNegative then ['-'] else []) ++ cs := by
    split <;> rfl
  rw [doubleText, if_pos h, Binary64.DigitLayout.finite, hsign, Binary64.DigitLayout.digits, numberText]
  split
  · exact NumberText.chars_pointed
  · dsimp only
    split
    · exact NumberText.chars_pointed
    · exact NumberText.chars_scientific

theorem isPlain_numberText (x : Binary64) : (numberText x).IsPlain := by
  have hzero : ∀ c ∈ ['0'], c.isDigit := by
    intro c hc
    rw [List.mem_singleton.1 hc]
    decide
  rw [numberText]
  split
  next =>
    refine ⟨hzero, List.cons_ne_nil _ _, .inl rfl, ?_⟩
    rintro _ ⟨⟩
    exact ⟨List.cons_ne_nil _ _, hzero⟩
  next hne =>
    obtain ⟨n, k, hshortest, hpos, -⟩ := Binary64.shortest_spec Binary64.json.tie hne
    obtain ⟨ds, j, hdrop, hleading, -⟩ := Decimal.exists_dropZeros hpos k
    rw [hshortest, hdrop]
    dsimp only
    split
    · exact NumberText.isPlain_pointed hleading
    · exact NumberText.isPlain_scientific hleading

/-- A decimal may be written with other powers of ten. -/
theorem holds_of_powers {i : Binary64.Interval} {n d a b : Nat} {k p : Int}
    (h : i.Holds (n * Text.tenTo k.toNat) (Text.tenTo (-k).toNat)) (hn : n = d * 10 ^ a)
    (hp : k + a = p + b) : i.Holds (d * 10 ^ b * Text.tenTo p.toNat) (Text.tenTo (-p).toNat) := by
  refine h.congr (Binary64.tenTo_pos _) ?_ (Binary64.tenTo_pos _)
  have hpowers : (10 : ℚ) ^ a * 10 ^ k = 10 ^ b * 10 ^ p := by
    rw [← zpow_natCast, ← zpow_natCast, ← zpow_add₀ (by norm_num), ← zpow_add₀ (by norm_num)]
    congr 1
    omega
  have hcast : ((n * Text.tenTo k.toNat * Text.tenTo (-p).toNat : ℕ) : ℚ) =
      (d * 10 ^ b * Text.tenTo p.toNat * Text.tenTo (-k).toNat : ℕ) := by
    push_cast
    rw [← Binary64.zpow_mul_tenTo k, ← Binary64.zpow_mul_tenTo p, hn]
    push_cast
    linear_combination (d : ℚ) * Text.tenTo (-k).toNat * Text.tenTo (-p).toNat * hpowers
  exact_mod_cast hcast

/-- The text of a double that is not zero is a number in its rounding interval. -/
theorem numberText_spec {x : Binary64} (h : x.magnitude ≠ 0) :
    0 < (numberText x).significand ∧ (numberText x).significand ≤ 10 ^ 17 ∧
      x.interval.Holds ((numberText x).significand * Text.tenTo (numberText x).power.toNat)
        (Text.tenTo (-(numberText x).power).toNat) := by
  obtain ⟨n, k, hshortest, hpos, hmost, hholds⟩ := Binary64.shortest_spec Binary64.json.tie h
  obtain ⟨ds, j, hdrop, hleading, hn⟩ := Decimal.exists_dropZeros hpos k
  have hdigits : 0 < Nat.ofDigitChars 10 ds 0 := by
    rw [hn] at hpos
    exact Nat.pos_of_mul_pos_right hpos
  have hshort : Nat.ofDigitChars 10 ds 0 ≤ 10 ^ 17 := by
    refine Nat.le_trans ?_ hmost
    rw [hn]
    exact Nat.le_mul_of_pos_right _ (Nat.pow_pos (by decide))
  rw [numberText, if_neg h, hshortest, hdrop]
  dsimp only
  split
  next hpositional =>
    obtain ⟨i, hsignificand, hpower, hzeros⟩ :=
      NumberText.value_pointed x.isNegative ds (ds.length + (k + j))
    rw [hsignificand, hpower]
    refine ⟨Nat.mul_pos hdigits (Nat.pow_pos (by decide)), ?_, holds_of_powers hholds hn (by omega)⟩
    have hpoint : (ds.length : Int) + (k + j) ≤ 16 := by
      simp only [Binary64.json, Bool.and_eq_true, decide_eq_true_eq] at hpositional
      omega
    rcases Nat.eq_zero_or_pos i with rfl | hi
    · rwa [Nat.pow_zero, Nat.mul_one]
    · have hlength : ds.length + i ≤ 17 := by
        have := hzeros hi
        omega
      have hlt : Nat.ofDigitChars 10 ds 0 ≤ 10 ^ ds.length := by
        have := Text.ofDigitChars_lt hleading.digits 0
        omega
      calc Nat.ofDigitChars 10 ds 0 * 10 ^ i ≤ 10 ^ ds.length * 10 ^ i := Nat.mul_le_mul_right _ hlt
        _ = 10 ^ (ds.length + i) := (Nat.pow_add 10 _ _).symm
        _ ≤ 10 ^ 17 := Nat.pow_le_pow_right (by decide) hlength
  next =>
    obtain ⟨hsignificand, hpower⟩ := NumberText.value_scientific hleading.ne_nil
    rw [hsignificand, hpower]
    have hplace := holds_of_powers (b := 0) (p := ds.length + (k + j) - 1 + 1 - ds.length) hholds hn (by omega)
    rw [Nat.pow_zero, Nat.mul_one] at hplace
    exact ⟨hdigits, hshort, hplace⟩

end Json

end TableClient
