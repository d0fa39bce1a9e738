import TableClient.Proofs.Binary64.Order
import TableClient.Proofs.Value.Number

/-! The order of numbers of different widths. Integers are compared as they are, and an integer with a
double as the double nearest to it. Rounding keeps the order but not its strictness, so a double can be
equal to several integers: these are told apart by each other and not by the double. Nothing else keeps the
comparison from being a consistent order of all numbers. -/

namespace TableClient.Value

variable {a b c : Value} {i j : Int64}

/-- An integer, or a double that is a number. -/
def IsNumber (v : Value) : Prop :=
  v.integer?.isSome ∨ ∃ x, v = double x ∧ x.isNaN = false

/-- The order key of a double, and of the double nearest to an integer. -/
def roundedKey (v : Value) : Int :=
  match v with
  | double x => x.key
  | v => v.integer?.elim 0 fun n => (Binary64.ofInt n.toInt).key

/-- Two different integers are rounded to one double. -/
def Blurs (v a b : Value) : Prop :=
  ∃ x i j, v = double x ∧ a.integer? = some i ∧ b.integer? = some j ∧ i ≠ j ∧
    x.compare (.ofInt i.toInt) = some .eq ∧ x.compare (.ofInt j.toInt) = some .eq

theorem ne_double_of_integer? (h : a.integer? = some i) (x : Binary64) : a ≠ double x := by
  rintro rfl
  cases h

theorem roundedKey_of_integer? (h : a.integer? = some i) : a.roundedKey = (Binary64.ofInt i.toInt).key := by
  cases a with
  | double x => cases h
  | _ => rw [roundedKey, h, Option.elim_some]; simp

/-- Rounding keeps the order of integers. -/
theorem roundedKey_mono (ha : a.integer? = some i) (hb : b.integer? = some j) (h : i.toInt ≤ j.toInt) :
    a.roundedKey ≤ b.roundedKey := by
  rw [roundedKey_of_integer? ha, roundedKey_of_integer? hb]
  exact Binary64.key_ofInt_mono h

/-! ### Two numbers -/

/-- Integers are compared as they are, and other numbers by their keys. -/
theorem compare_number_cases (ha : a.IsNumber) (hb : b.IsNumber) :
    (∃ i j, a.integer? = some i ∧ b.integer? = some j ∧
        a.compare b = some (Ord.compare i.toInt j.toInt)) ∨
      (a.integer? = none ∨ b.integer? = none) ∧
        a.compare b = some (Ord.compare a.roundedKey b.roundedKey) := by
  have hkeys {x y : Binary64} (hx : x.isNaN = false) (hy : y.isNaN = false) :
      x.compare y = some (Ord.compare x.key y.key) := by
    rw [Binary64.compare, hx, hy]
    rfl
  rcases ha with ha | ⟨x, rfl, hx⟩
  · obtain ⟨i, hi⟩ := Option.isSome_iff_exists.1 ha
    rcases hb with hb | ⟨y, rfl, hy⟩
    · obtain ⟨j, hj⟩ := Option.isSome_iff_exists.1 hb
      exact .inl ⟨i, j, hi, hj, compare_of_integer? hi hj⟩
    · refine .inr ⟨.inr rfl, ?_⟩
      rw [compare_double_right y (ne_double_of_integer? hi), hi, Option.bind_some,
        hkeys (Binary64.isNaN_ofInt _) hy, roundedKey_of_integer? hi]
      rfl
  · rcases hb with hb | ⟨y, rfl, hy⟩
    · obtain ⟨j, hj⟩ := Option.isSome_iff_exists.1 hb
      refine .inr ⟨.inl rfl, ?_⟩
      rw [compare_double_left x (ne_double_of_integer? hj), hj, Option.bind_some,
        hkeys hx (Binary64.isNaN_ofInt _), roundedKey_of_integer? hj]
      rfl
    · exact .inr ⟨.inl rfl, hkeys hx hy⟩

/-- One number is below another if its key is, or if both are integers and it is the smaller one. -/
theorem compare_eq_lt_iff (ha : a.IsNumber) (hb : b.IsNumber) :
    a.compare b = some .lt ↔ a.roundedKey < b.roundedKey ∨
      ∃ i j, a.integer? = some i ∧ b.integer? = some j ∧ i.toInt < j.toInt := by
  rcases compare_number_cases ha hb with ⟨i, j, hi, hj, hcompare⟩ | ⟨hdouble, hcompare⟩
  · rw [hcompare, Option.some_inj, compare_lt_iff_lt]
    constructor
    · exact fun hlt => .inr ⟨i, j, hi, hj, hlt⟩
    · rintro (hlt | ⟨k, l, hk, hl, hlt⟩)
      · by_contra hnot
        exact absurd (roundedKey_mono hj hi (not_lt.1 hnot)) (not_le.2 hlt)
      · rw [hi] at hk
        rw [hj] at hl
        cases hk
        cases hl
        exact hlt
  · rw [hcompare, Option.some_inj, compare_lt_iff_lt]
    refine ⟨.inl, fun h => h.resolve_right ?_⟩
    rintro ⟨i, j, hi, hj, -⟩
    rcases hdouble with hnone | hnone
    · rw [hnone] at hi
      cases hi
    · rw [hnone] at hj
      cases hj

theorem compare_eq_gt_iff (a b : Value) : a.compare b = some .gt ↔ b.compare a = some .lt := by
  rw [compare_swap a b]
  cases a.compare b with
  | none => simp
  | some o => cases o <;> simp

/-- One number is not above another if its key is not, nor is it the larger one of two integers. -/
theorem compare_ne_gt_iff (ha : a.IsNumber) (hb : b.IsNumber) :
    a.compare b ≠ some .gt ↔ a.roundedKey ≤ b.roundedKey ∧
      ∀ i j, a.integer? = some i → b.integer? = some j → i.toInt ≤ j.toInt := by
  rw [Ne, compare_eq_gt_iff, compare_eq_lt_iff hb ha, not_or, not_lt]
  refine and_congr_right fun _ => ⟨fun h i j hi hj => ?_, ?_⟩
  · by_contra hlt
    exact h ⟨j, i, hj, hi, not_le.1 hlt⟩
  · rintro h ⟨j, i, hj, hi, hlt⟩
    exact absurd (h i j hi hj) (not_le.2 hlt)

theorem exists_compare (ha : a.IsNumber) (hb : b.IsNumber) : ∃ o, a.compare b = some o := by
  rcases compare_number_cases ha hb with ⟨i, j, -, -, hcompare⟩ | ⟨-, hcompare⟩
  · exact ⟨_, hcompare⟩
  · exact ⟨_, hcompare⟩

/-- Numbers are equal if neither is above the other. -/
theorem compare_eq_eq_iff (ha : a.IsNumber) (hb : b.IsNumber) :
    a.compare b = some .eq ↔ a.compare b ≠ some .gt ∧ b.compare a ≠ some .gt := by
  obtain ⟨o, ho⟩ := exists_compare ha hb
  rw [Ne, Ne, compare_eq_gt_iff b a, ho]
  cases o <;> simp

theorem looselyEquals_iff_compare (ha : a.IsNumber) (hb : b.IsNumber) :
    a.looselyEquals b ↔ a.compare b = some .eq := by
  obtain ⟨o, ho⟩ := exists_compare ha hb
  rw [looselyEquals_of_compare ho, ho, Option.some_inj, Ordering.isEq_iff_eq_eq]

/-! ### Integers that a double does not tell apart -/

namespace Blurs

variable {v : Value}

theorem symm (h : v.Blurs a b) : v.Blurs b a := by
  obtain ⟨x, i, j, hv, hi, hj, hne, hxi, hxj⟩ := h
  exact ⟨x, j, i, hv, hj, hi, hne.symm, hxj, hxi⟩

/-- Both integers are equal to the double, and not to each other. -/
theorem compare_eq (h : v.Blurs a b) :
    v.compare a = some .eq ∧ v.compare b = some .eq ∧ a.compare b ≠ some .eq := by
  obtain ⟨x, i, j, rfl, hi, hj, hne, hxi, hxj⟩ := h
  refine ⟨?_, ?_, fun heq => hne ?_⟩
  · rw [compare_double_left x (ne_double_of_integer? hi), hi]
    exact hxi
  · rw [compare_double_left x (ne_double_of_integer? hj), hj]
    exact hxj
  · rw [compare_of_integer? hi hj, Option.some_inj, compare_eq_iff_eq] at heq
    exact Int64.toInt_inj.1 heq

/-- One of the integers has more digits than a double. -/
theorem not_fits (h : v.Blurs a b) (hi : a.integer? = some i) (hj : b.integer? = some j) :
    ¬(Binary64.FitsSignificand i.toInt ∧ Binary64.FitsSignificand j.toInt) := by
  obtain ⟨x, k, l, rfl, hk, hl, hne, hxk, hxl⟩ := h
  obtain rfl : i = k := Option.some.inj (hi.symm.trans hk)
  obtain rfl : j = l := Option.some.inj (hj.symm.trans hl)
  rintro ⟨hfits, hfits'⟩
  have hkey {n : Int} (hn : x.compare (.ofInt n) = some .eq) : x.key = (Binary64.ofInt n).key := by
    rw [Binary64.compare] at hn
    split at hn
    · cases hn
    · exact compare_eq_iff_eq.1 (Option.some.inj hn)
  have hsize (n : Int64) : n.toInt.natAbs ≤ 2 ^ 64 := by
    have hlow := n.le_toInt
    have hhigh := n.toInt_lt
    omega
  exact hne (Int64.toInt_inj.1 (Binary64.eq_of_key_ofInt (hsize i) (hsize j) hfits hfits'
    ((hkey hxk).symm.trans (hkey hxl))))

end Blurs

/-- A double whose key is that of two integers does not tell them apart. -/
theorem blurs_of_roundedKey (hb : b.IsNumber) (hdouble : b.integer? = none) (ha : a.integer? = some i)
    (hc : c.integer? = some j) (hne : i ≠ j) (hab : b.roundedKey = a.roundedKey)
    (hbc : b.roundedKey = c.roundedKey) : b.Blurs a c := by
  rcases hb with hb | ⟨x, rfl, hx⟩
  · rw [hdouble] at hb
    cases hb
  · have hcompare {n : Int64} (hn : x.key = (Binary64.ofInt n.toInt).key) :
        x.compare (.ofInt n.toInt) = some .eq := by
      rw [Binary64.compare, hx, Binary64.isNaN_ofInt, hn, compare_eq_iff_eq.2 rfl]
      rfl
    exact ⟨x, i, j, rfl, ha, hc, hne, hcompare (hab.trans (roundedKey_of_integer? ha)),
      hcompare (hbc.trans (roundedKey_of_integer? hc))⟩

/-! ### Three numbers -/

theorem compare_lt_trans (ha : a.IsNumber) (hb : b.IsNumber) (hc : c.IsNumber)
    (hab : a.compare b = some .lt) (hbc : b.compare c = some .lt) : a.compare c = some .lt := by
  rw [compare_eq_lt_iff ha hb] at hab
  rw [compare_eq_lt_iff hb hc] at hbc
  rw [compare_eq_lt_iff ha hc]
  rcases hab with hab | ⟨i, j, hi, hj, hab⟩
  · rcases hbc with hbc | ⟨j, k, hj, hk, hbc⟩
    · exact .inl (hab.trans hbc)
    · exact .inl (hab.trans_le (roundedKey_mono hj hk hbc.le))
  · rcases hbc with hbc | ⟨j', k, hj', hk, hbc⟩
    · exact .inl ((roundedKey_mono hi hj hab.le).trans_lt hbc)
    · obtain rfl : j = j' := Option.some.inj (hj.symm.trans hj')
      exact .inr ⟨i, k, hi, hk, hab.trans hbc⟩

/-- Where the number in between tells the other two apart, the order goes through it. -/
theorem compare_le_trans (ha : a.IsNumber) (hb : b.IsNumber) (hc : c.IsNumber)
    (hab : a.compare b ≠ some .gt) (hbc : b.compare c ≠ some .gt) (hblurs : ¬b.Blurs a c) :
    a.compare c ≠ some .gt := by
  obtain ⟨hkey, hint⟩ := (compare_ne_gt_iff ha hb).1 hab
  obtain ⟨hkey', hint'⟩ := (compare_ne_gt_iff hb hc).1 hbc
  refine (compare_ne_gt_iff ha hc).2 ⟨hkey.trans hkey', fun i k hi hk => ?_⟩
  cases hj : b.integer? with
  | some j => exact (hint i j hi hj).trans (hint' j k hj hk)
  | none =>
    by_contra hlt
    have hback := roundedKey_mono hk hi (not_le.1 hlt).le
    refine hblurs (blurs_of_roundedKey hb hj hi hk ?_ (by omega) (by omega))
    rintro rfl
    exact hlt le_rfl

theorem compare_eq_trans_iff (ha : a.IsNumber) (hb : b.IsNumber) (hc : c.IsNumber)
    (hab : a.compare b = some .eq) (hbc : b.compare c = some .eq) :
    a.compare c = some .eq ↔ ¬b.Blurs a c := by
  refine ⟨fun hac hblurs => hblurs.compare_eq.2.2 hac, fun hblurs => ?_⟩
  obtain ⟨hle, hge⟩ := (compare_eq_eq_iff ha hb).1 hab
  obtain ⟨hle', hge'⟩ := (compare_eq_eq_iff hb hc).1 hbc
  exact (compare_eq_eq_iff ha hc).2 ⟨compare_le_trans ha hb hc hle hle' hblurs,
    compare_le_trans hc hb ha hge' hge fun h => hblurs h.symm⟩

theorem compare_eq_lt_trans_iff (ha : a.IsNumber) (hb : b.IsNumber) (hc : c.IsNumber)
    (hab : a.compare b = some .eq) (hbc : b.compare c = some .lt) :
    a.compare c = some .lt ↔ ¬a.Blurs b c := by
  refine ⟨fun hac hblurs => ?_, fun hblurs => ?_⟩
  · rw [hblurs.compare_eq.2.1] at hac
    cases hac
  · obtain ⟨hle, hge⟩ := (compare_eq_eq_iff ha hb).1 hab
    obtain ⟨hkey, hint⟩ := (compare_ne_gt_iff ha hb).1 hle
    obtain ⟨hkey', hint'⟩ := (compare_ne_gt_iff hb ha).1 hge
    rw [compare_eq_lt_iff ha hc]
    rcases (compare_eq_lt_iff hb hc).1 hbc with hlt | ⟨j, k, hj, hk, hlt⟩
    · exact .inl (hkey.trans_lt hlt)
    · cases hi : a.integer? with
      | some i => exact .inr ⟨i, k, rfl, hk, (hint i j hi hj).trans_lt hlt⟩
      | none =>
        have hmono := roundedKey_mono hj hk hlt.le
        by_contra hnot
        refine hblurs (blurs_of_roundedKey ha hi hj hk ?_ (le_antisymm hkey hkey') ?_)
        · rintro rfl
          exact absurd hlt (lt_irrefl _)
        · have hge : c.roundedKey ≤ a.roundedKey := not_lt.1 fun h => hnot (.inl h)
          omega

/-- Numbers of any widths can be compared, one way round as the other, and being smaller is transitive. So
are equality and the order, unless the number in between is a double to which the others, two different
integers, are both rounded; then they are not. And what is below another number has its equals below it,
unless one of these is a double to which both are rounded. Of two such integers one at least is no double. -/
theorem compare_consistent (ha : a.IsNumber) (hb : b.IsNumber) (hc : c.IsNumber) :
    (∃ o, a.compare b = some o ∧ b.compare a = some o.swap) ∧
      (a.looselyEquals a ∧ a.looselyEquals b = b.looselyEquals a) ∧
      (a.compare b = some .lt → b.compare c = some .lt → a.compare c = some .lt) ∧
      (a.compare b ≠ some .gt → b.compare c ≠ some .gt → ¬b.Blurs a c → a.compare c ≠ some .gt) ∧
      (a.looselyEquals b → b.looselyEquals c → (a.looselyEquals c ↔ ¬b.Blurs a c)) ∧
      (a.looselyEquals b → b.compare c = some .lt → (a.compare c = some .lt ↔ ¬a.Blurs b c)) ∧
      ∀ i k, b.Blurs a c → a.integer? = some i → c.integer? = some k →
        ¬(Binary64.FitsSignificand i.toInt ∧ Binary64.FitsSignificand k.toInt) := by
  simp only [looselyEquals_iff_compare ha hb, looselyEquals_iff_compare hb hc,
    looselyEquals_iff_compare ha hc, looselyEquals_iff_compare ha ha]
  refine ⟨?_, ⟨?_, looselyEquals_comm b a⟩, compare_lt_trans ha hb hc, compare_le_trans ha hb hc,
    compare_eq_trans_iff ha hb hc, compare_eq_lt_trans_iff ha hb hc,
    fun i k hblurs hi hk => hblurs.not_fits hi hk⟩
  · obtain ⟨o, ho⟩ := exists_compare ha hb
    exact ⟨o, ho, by rw [compare_swap a b, ho, Option.map_some]⟩
  · exact (compare_eq_eq_iff ha ha).2
      (and_self_iff.2 ((compare_ne_gt_iff ha ha).2 ⟨le_rfl, fun i j hi hj => by
        rw [Option.some.inj (hi.symm.trans hj)]⟩))

theorem compare_consistent_seven :
    (int32 7).IsNumber ∧ (double (.ofInt 7)).IsNumber ∧ (int64 8).IsNumber ∧
      (int32 7).looselyEquals (double (.ofInt 7)) ∧ (double (.ofInt 7)).compare (int64 8) = some .lt ∧
      (int32 7).compare (int64 8) = some .lt := by
  have ha : (int32 7).IsNumber := .inl rfl
  have hb : (double (.ofInt 7)).IsNumber := .inr ⟨_, rfl, Binary64.isNaN_ofInt 7⟩
  have hc : (int64 8).IsNumber := .inl rfl
  have heq : (int32 7).looselyEquals (double (.ofInt 7)) := by decide +kernel
  have hlt : (double (.ofInt 7)).compare (int64 8) = some .lt := by decide +kernel
  obtain ⟨-, -, -, -, -, hbelow, -⟩ := compare_consistent ha hb hc
  refine ⟨ha, hb, hc, heq, hlt, (hbelow heq hlt).2 ?_⟩
  rintro ⟨x, i, j, hdouble, -⟩
  cases hdouble

/-- The first integer that is no double and the one before it are equal to one double. So equality is not
transitive, and the double is not below the larger integer although its equal is. -/
theorem double_equals_two_integers :
    (int64 9007199254740993).IsNumber ∧ (double (.ofInt 9007199254740992)).IsNumber ∧
      (int64 9007199254740992).IsNumber ∧
      (int64 9007199254740993).looselyEquals (double (.ofInt 9007199254740992)) ∧
      (double (.ofInt 9007199254740992)).looselyEquals (int64 9007199254740992) ∧
      ¬(int64 9007199254740993).looselyEquals (int64 9007199254740992) ∧
      (int64 9007199254740993).compare (int64 9007199254740992) = some .gt ∧
      (int64 9007199254740992).compare (int64 9007199254740993) = some .lt ∧
      (double (.ofInt 9007199254740992)).compare (int64 9007199254740993) ≠ some .lt := by
  refine ⟨.inl rfl, .inr ⟨_, rfl, Binary64.isNaN_ofInt _⟩, .inl rfl, ?_⟩
  decide +kernel

end TableClient.Value
