import TableClient.Entity.Basic
import TableClient.Proofs.Filter.Literal
import TableClient.Proofs.Value.Order

/-! Values put into slots. A slot changes the width of a number at most, so the value in it is loosely
equal to the one that was put there. -/

namespace TableClient

/-- The double nearest to an integer is a number. -/
theorem Binary64.isNaN_ofInt (n : Int) : (ofInt n).isNaN = false := by
  have hsize : roundMagnitude n.natAbs 1 ≤ infinityMagnitude := Nat.min_le_right _ _
  have hmagnitude : (ofInt n).magnitude = roundMagnitude n.natAbs 1 := by
    simp only [ofInt, ofRatio, ofMagnitude, magnitude, UInt64.toNat_ofNat', infinityMagnitude,
      signBit] at hsize ⊢
    split <;> omega
  simpa [isNaN, hmagnitude] using hsize

theorem Binary64.compare_self {x : Binary64} (h : x.isNaN = false) : x.compare x = some .eq := by
  simp [compare, h]

/-- An integer that fits the narrow width is the same number there. -/
theorem toInt_of_narrow? {n : Int64} {m : Int32} (h : narrow? n = some m) : m.toInt = n.toInt := by
  unfold narrow? at h
  split at h
  next hrange =>
    cases h
    have hmin : Int32.minValue.toInt = -2147483648 := rfl
    have hmax : Int32.maxValue.toInt = 2147483647 := rfl
    rw [Int64.toInt_toInt32]
    rw [hmin, hmax] at hrange
    exact Int.bmod_eq_of_le (by omega) (by omega)
  next => cases h

namespace Value

theorem IsLiteral.compare_self {v : Value} (h : v.IsLiteral) : v.compare v = some .eq := by
  cases h <;> simp [compare, integer?, Guid.compare, Instant.compare]

theorem compare_of_integer? {a b : Value} {m n : Int64} (ha : a.integer? = some m)
    (hb : b.integer? = some n) : a.compare b = some (Ord.compare m.toInt n.toInt) := by
  cases a <;> cases ha <;> cases b <;> cases hb <;> rfl

end Value

/-- What a value other than a double becomes in a slot: itself, or the same number. -/
theorem Property.coerce_eq_ok {field : String} {slot : Scalar} {v : Value} {p : Property}
    (hv : ∀ x, v ≠ .double x) (h : coerce field slot v = .ok p) :
    p.value = v ∨ ∃ n, v.integer? = some n ∧ ((∃ m, p.value.integer? = some m ∧ m.toInt = n.toInt) ∨
      p.value = .double (.ofInt n.toInt)) := by
  have hsame (hcoerce : coerce field slot v = if h : v.isNull ∨ v.kind = slot.kind then
      .ok ⟨slot, v, h⟩ else mismatch field slot v.kind.name) : p.value = v := by
    rw [hcoerce] at h
    split at h <;> cases h
    rfl
  cases v with
  | double x => exact absurd rfl (hv x)
  | int32 n =>
    cases slot with
    | int64 =>
      cases h
      exact .inr ⟨_, rfl, .inl ⟨_, rfl, rfl⟩⟩
    | double =>
      cases h
      exact .inr ⟨_, rfl, .inr (by simp)⟩
    | _ => exact .inl (hsame rfl)
  | int64 n =>
    cases slot with
    | int32 =>
      simp only [coerce] at h
      split at h
      next m hm =>
        cases h
        exact .inr ⟨n, rfl, .inl ⟨_, rfl, by simp [toInt_of_narrow? hm]⟩⟩
      next => cases h
    | double =>
      cases h
      exact .inr ⟨n, rfl, .inr rfl⟩
    | _ => exact .inl (hsame rfl)
  | _ => exact .inl (hsame (by cases slot <;> rfl))

theorem Property.slot_of_coerce {field : String} {slot : Scalar} {v : Value} {p : Property}
    (h : coerce field slot v = .ok p) : p.slot = slot := by
  unfold coerce at h
  repeat' split at h
  all_goals cases h <;> rfl

/-- What a slot makes of a value that has a literal is loosely equal to the value. -/
theorem Property.looselyEquals_of_coerce {v : Value} (hv : v.IsLiteral) {field : String}
    {slot : Scalar} {p : Property} (h : coerce field slot v = .ok p) : p.value.looselyEquals v := by
  have hdouble : ∀ x, v ≠ .double x := by
    rintro x rfl
    cases hv
  have hcompare : p.value.compare v = some .eq := by
    rcases coerce_eq_ok hdouble h with hsame | ⟨n, hn, ⟨m, hm, hint⟩ | hnearest⟩
    · rw [hsame, hv.compare_self]
    · rw [Value.compare_of_integer? hm hn, hint, Std.ReflOrd.compare_self]
    · rw [hnearest, Value.compare_double_left _ hdouble, hn, Option.bind_some,
        Binary64.compare_self (Binary64.isNaN_ofInt _)]
  rw [Value.looselyEquals_of_compare hcompare]
  rfl

end TableClient
