import TableClient.Proofs.Binary64.Number
import TableClient.Proofs.Record.Column
import TableClient.Proofs.Value.Slot

/-! Numbers that are put into slots of another width. A slot takes the same number, if it has it among its
values, and rejects any other; except that it rounds a wide integer to a double. -/

namespace TableClient

namespace Value

/-- The number that a value is; nothing for doubles that are not finite and for values that are not
numbers. -/
def number? : Value → Option ℚ
  | int32 n => some n.toInt
  | int64 n => some n.toInt
  | double x => x.toRat?
  | _ => none

/-- The same value, or the same number in another width. -/
def SameNumber (a b : Value) : Prop :=
  a = b ∨ ∃ q, a.number? = some q ∧ b.number? = some q

/-- One of the values of the slot is the same number. -/
def FitsIn (v : Value) (slot : Scalar) : Prop :=
  ∃ w : Value, w.kind = slot.kind ∧ w.SameNumber v

/-- The value is a wide integer with more digits than a double has, and the slot is for doubles. -/
def LosesDigits (v : Value) (slot : Scalar) : Prop :=
  slot = .double ∧ ∃ n, v = .int64 n ∧ ¬Binary64.FitsSignificand n.toInt

end Value

/-- An integer has a narrow form if it is the same number as one. -/
theorem narrow?_eq_some_iff {n : Int64} {m : Int32} : narrow? n = some m ↔ m.toInt = n.toInt := by
  refine ⟨toInt_of_narrow?, fun h => ?_⟩
  have hmin : Int32.minValue.toInt ≤ n.toInt := by
    rw [← h]
    exact m.minValue_le_toInt
  have hmax : n.toInt ≤ Int32.maxValue.toInt := by
    rw [← h]
    exact m.toInt_le
  rw [narrow?, if_pos ⟨hmin, hmax⟩, Option.some_inj, ← Int32.toInt_inj, Int64.toInt_toInt32, h]
  have hlow := m.le_toInt
  have hhigh := m.toInt_lt
  exact Int.bmod_eq_of_le (by omega) (by omega)

namespace Value

variable {v : Value}

theorem number?_double_eq_int_iff {x : Binary64} {n : Int64} :
    (double x).number? = some (n.toInt : ℚ) ↔ x.toInt64? = some n :=
  Binary64.toInt64?_eq_some_iff.symm

/-! ### Values of a slot -/

/-- A value of another kind that fits into a slot for narrow integers is the number of one. -/
theorem FitsIn.int32 (h : v.FitsIn .int32) (hkind : v.kind ≠ .int32) :
    ∃ m : Int32, v.number? = some (m.toInt : ℚ) := by
  obtain ⟨w, hw, rfl | ⟨q, hwq, hq⟩⟩ := h
  · exact absurd hw hkind
  · cases w with
    | int32 m =>
      cases hwq
      exact ⟨m, hq⟩
    | _ => cases hw

/-- A value of another kind that fits into a slot for wide integers is the number of one. -/
theorem FitsIn.int64 (h : v.FitsIn .int64) (hkind : v.kind ≠ .int64) :
    ∃ n : Int64, v.number? = some (n.toInt : ℚ) := by
  obtain ⟨w, hw, rfl | ⟨q, hwq, hq⟩⟩ := h
  · exact absurd hw hkind
  · cases w with
    | int64 n =>
      cases hwq
      exact ⟨n, hq⟩
    | _ => cases hw

theorem sameNumber_of_narrow? {n : Int64} {m : Int32} (hn : narrow? n = some m)
    (hv : v.number? = some (n.toInt : ℚ)) : (Value.int32 m).SameNumber v := by
  refine .inr ⟨n.toInt, ?_, hv⟩
  rw [number?, narrow?_eq_some_iff.1 hn]

theorem not_fitsIn_of_narrow? {n : Int64} (hn : narrow? n = none) (hv : v.number? = some (n.toInt : ℚ))
    (hkind : v.kind ≠ .int32) : ¬v.FitsIn .int32 := by
  intro h
  obtain ⟨m, hm⟩ := h.int32 hkind
  rw [hv] at hm
  have hint : n.toInt = m.toInt := Int.cast_injective (Option.some.inj hm)
  rw [narrow?_eq_some_iff.2 hint.symm] at hn
  cases hn

theorem not_fitsIn_of_toInt64? {x : Binary64} (hx : x.toInt64? = none) :
    ¬(double x).FitsIn .int32 ∧ ¬(double x).FitsIn .int64 := by
  have hnone (n : Int64) : (double x).number? ≠ some (n.toInt : ℚ) := by
    rw [Ne, number?_double_eq_int_iff, hx]
    exact (Option.some_ne_none n).symm
  constructor
  · intro h
    obtain ⟨m, hm⟩ := h.int32 (by simp [kind])
    rw [← Int32.toInt_toInt64] at hm
    exact hnone _ hm
  · intro h
    obtain ⟨n, hn⟩ := h.int64 (by simp [kind])
    exact hnone n hn

/-- The double of an integer is the same number exactly if no digits are lost. -/
theorem sameNumber_ofInt_iff {n : Int} (hn : n.natAbs ≤ 2 ^ 64) (hv : v.number? = some (n : ℚ))
    (hkind : v.kind ≠ .double) :
    (Value.double (.ofInt n)).SameNumber v ↔ Binary64.FitsSignificand n := by
  rw [← Binary64.toRat?_ofInt_iff hn]
  constructor
  · rintro (rfl | ⟨q, hq, hvq⟩)
    · exact absurd rfl hkind
    · rw [hv] at hvq
      exact hq.trans hvq.symm
  · intro h
    exact .inr ⟨n, h, hv⟩

/-- No double is an integer that loses digits. -/
theorem LosesDigits.not_fitsIn {slot : Scalar} (h : v.LosesDigits slot) : ¬v.FitsIn slot := by
  obtain ⟨rfl, n, rfl, hwide⟩ := h
  rintro ⟨w, hw, rfl | ⟨q, hwq, hq⟩⟩
  · cases hw
  · cases w with
    | double x =>
      cases hq
      exact hwide (Binary64.fitsSignificand_of_toRat? hwq)
    | _ => cases hw

/-- The kinds of numbers. -/
theorem kind_cases (h : v.kind ∈ [ValueKind.int32, .int64, .double]) :
    (∃ n, v = int32 n) ∨ (∃ n, v = int64 n) ∨ ∃ x, v = double x := by
  cases v with
  | int32 n => exact .inl ⟨n, rfl⟩
  | int64 n => exact .inr (.inl ⟨n, rfl⟩)
  | double x => exact .inr (.inr ⟨x, rfl⟩)
  | _ => exact absurd h (by simp [kind])

end Value

/-! ### Numbers in slots -/

namespace Property

open Value

variable {v : Value}

/-- What a slot for narrow integers takes is the same number; what it rejects is none of its values. -/
theorem coerce_int32_number (field : String) (hv : v.kind ∈ [ValueKind.int32, .int64, .double]) :
    (∃ p, coerce field .int32 v = .ok p ∧ p.slot = .int32 ∧ p.value.kind = .int32 ∧ p.value.SameNumber v) ∨
      ¬v.FitsIn .int32 ∧ ∃ found, coerce field .int32 v = .error (.typeMismatch field "int32" found) := by
  rcases kind_cases hv with ⟨n, rfl⟩ | ⟨n, rfl⟩ | ⟨x, rfl⟩
  · exact .inl ⟨_, rfl, rfl, rfl, .inl rfl⟩
  · cases hn : narrow? n with
    | some m =>
      refine .inl ⟨⟨.int32, .int32 m, .inr rfl⟩, ?_, rfl, rfl, sameNumber_of_narrow? hn rfl⟩
      simp only [coerce, hn]
    | none =>
      refine .inr ⟨not_fitsIn_of_narrow? hn rfl (by simp [kind]), "out-of-range int64", ?_⟩
      simp only [coerce, hn]
      rfl
  · cases hx : x.toInt64? with
    | some n =>
      have hnumber := number?_double_eq_int_iff.2 hx
      cases hn : narrow? n with
      | some m =>
        refine .inl ⟨⟨.int32, .int32 m, .inr rfl⟩, ?_, rfl, rfl, sameNumber_of_narrow? hn hnumber⟩
        simp only [coerce, hx, hn]
      | none =>
        refine .inr ⟨not_fitsIn_of_narrow? hn hnumber (by simp [kind]), "out-of-range double", ?_⟩
        simp only [coerce, hx, hn]
        rfl
    | none =>
      refine .inr ⟨(not_fitsIn_of_toInt64? hx).1, "fractional double", ?_⟩
      simp only [coerce, hx]
      rfl

/-- What a slot for wide integers takes is the same number; what it rejects is none of its values. -/
theorem coerce_int64_number (field : String) (hv : v.kind ∈ [ValueKind.int32, .int64, .double]) :
    (∃ p, coerce field .int64 v = .ok p ∧ p.slot = .int64 ∧ p.value.kind = .int64 ∧ p.value.SameNumber v) ∨
      ¬v.FitsIn .int64 ∧ ∃ found, coerce field .int64 v = .error (.typeMismatch field "int64" found) := by
  rcases kind_cases hv with ⟨n, rfl⟩ | ⟨n, rfl⟩ | ⟨x, rfl⟩
  · refine .inl ⟨_, rfl, rfl, rfl, .inr ⟨n.toInt, ?_, rfl⟩⟩
    rw [number?, Int32.toInt_toInt64]
  · exact .inl ⟨_, rfl, rfl, rfl, .inl rfl⟩
  · cases hx : x.toInt64? with
    | some n =>
      refine .inl ⟨⟨.int64, .int64 n, .inr rfl⟩, ?_, rfl, rfl,
        .inr ⟨n.toInt, rfl, number?_double_eq_int_iff.2 hx⟩⟩
      simp only [coerce, hx]
    | none =>
      refine .inr ⟨(not_fitsIn_of_toInt64? hx).2, "fractional double", ?_⟩
      simp only [coerce, hx]
      rfl

/-- A slot for doubles takes every number. It is the same one, unless digits are lost. -/
theorem coerce_double_number (field : String) (hv : v.kind ∈ [ValueKind.int32, .int64, .double]) :
    ∃ p, coerce field .double v = .ok p ∧ p.slot = .double ∧ p.value.kind = .double ∧
      (p.value.SameNumber v ↔ ¬v.LosesDigits .double) := by
  rcases kind_cases hv with ⟨n, rfl⟩ | ⟨n, rfl⟩ | ⟨x, rfl⟩
  · have hlow := n.le_toInt
    have hhigh := n.toInt_lt
    refine ⟨_, rfl, rfl, rfl, iff_of_true ?_ ?_⟩
    · exact (sameNumber_ofInt_iff (v := .int32 n) (by omega) rfl (by simp [kind])).2
        (Binary64.fitsSignificand_of_lt (by omega))
    · rintro ⟨-, m, hm, -⟩
      cases hm
  · have hlow := n.le_toInt
    have hhigh := n.toInt_lt
    refine ⟨_, rfl, rfl, rfl, ?_⟩
    rw [sameNumber_ofInt_iff (v := .int64 n) (by omega) rfl (by simp [kind]), LosesDigits]
    simp
  · refine ⟨_, rfl, rfl, rfl, iff_of_true (.inl rfl) ?_⟩
    rintro ⟨-, m, hm, -⟩
    cases hm

theorem coerce_number_cases (field : String) {slot : Scalar} (hslot : slot ∈ [Scalar.int32, .int64, .double])
    (hv : v.kind ∈ [ValueKind.int32, .int64, .double]) :
    (∃ p, coerce field slot v = .ok p ∧ p.slot = slot ∧ p.value.kind = slot.kind ∧
        (p.value.SameNumber v ↔ ¬v.LosesDigits slot)) ∨
      ¬v.FitsIn slot ∧ ∃ found, coerce field slot v = .error (.typeMismatch field slot.slotName found) := by
  simp only [List.mem_cons, List.not_mem_nil, or_false] at hslot
  rcases hslot with rfl | rfl | rfl
  · refine (coerce_int32_number field hv).imp_left ?_
    rintro ⟨p, hp, hs, hkind, hsame⟩
    exact ⟨p, hp, hs, hkind, iff_of_true hsame fun hloses => Scalar.noConfusion hloses.1⟩
  · refine (coerce_int64_number field hv).imp_left ?_
    rintro ⟨p, hp, hs, hkind, hsame⟩
    exact ⟨p, hp, hs, hkind, iff_of_true hsame fun hloses => Scalar.noConfusion hloses.1⟩
  · exact .inl (coerce_double_number field hv)

end Property

/-- Writing a number puts it into the slot and sets what is there. -/
theorem Column.write_number {R : Type} {field name : String} {slot : Scalar} {nullable : Bool}
    {get : R → Value} {set : R → Value → Except MappingError R} {p : Property}
    (hslot : slot ∈ [Scalar.int32, .int64, .double])
    (hp : p.value.kind ∈ [ValueKind.int32, .int64, .double]) (r : R) :
    write ⟨field, name, .property slot nullable get set⟩ r (some p) =
      Property.coerce field slot p.value >>= fun q => set r q.value := by
  rcases Property.coerce_number_cases field hslot hp with ⟨q, hq, -, hkind, -⟩ | ⟨-, found, herror⟩
  · have hnull : q.value.isNull → nullable := by
      intro hnull
      rw [Value.isNull_iff.1 hnull] at hkind
      cases slot <;> cases hkind
    simp only [write, hq, ok_bind, writeValue_eq_set hnull]
  · simp only [write, herror, error_bind]

/-- A number that is put into a slot for numbers is a value of the slot afterwards, and the same number
unless it loses digits; or it is rejected, and none of the slot's values is this number. None is one that
loses digits either. Fields in such a slot are read and written so. -/
theorem Property.coerce_number (field : String) {slot : Scalar} {v : Value}
    (hslot : slot ∈ [Scalar.int32, .int64, .double]) (hv : v.kind ∈ [ValueKind.int32, .int64, .double]) :
    ((∃ p, coerce field slot v = .ok p ∧ p.slot = slot ∧ p.value.kind = slot.kind ∧
          (p.value.SameNumber v ↔ ¬v.LosesDigits slot)) ∨
        ¬v.FitsIn slot ∧ ∃ found, coerce field slot v = .error (.typeMismatch field slot.slotName found)) ∧
      (v.LosesDigits slot → ¬v.FitsIn slot) ∧
      ∀ (R : Type) (name : String) (nullable : Bool) (get : R → Value)
        (set : R → Value → Except MappingError R) (r : R),
        let c : Column R := ⟨field, name, .property slot nullable get set⟩
        (get r = v → c.read r = coerce field slot v) ∧
          ∀ p : Property, p.value = v → c.write r (some p) = coerce field slot v >>= fun q => set r q.value := by
  refine ⟨coerce_number_cases field hslot hv, Value.LosesDigits.not_fitsIn,
    fun R name nullable get set r => ⟨fun hget => ?_, fun p hp => ?_⟩⟩
  · simp only [Column.read, hget]
  · subst hp
    exact Column.write_number hslot hv r

theorem Property.coerce_number_three :
    ∃ p, coerce "A" .double (.int64 3) = .ok p ∧ p.value.kind = .double ∧ p.value.SameNumber (.int64 3) := by
  have hslot : Scalar.double ∈ [Scalar.int32, .int64, .double] := by decide
  have hv : (Value.int64 3).kind ∈ [ValueKind.int32, .int64, .double] := by decide
  rcases (coerce_number "A" hslot hv).1 with ⟨p, hp, -, hkind, hsame⟩ | ⟨-, found, herror⟩
  · refine ⟨p, hp, hkind, hsame.2 ?_⟩
    rintro ⟨-, n, hn, hwide⟩
    cases hn
    exact hwide (Binary64.fitsSignificand_of_lt (by decide))
  · cases herror

/-- The first integer that is no double becomes the one before it. -/
theorem Property.coerce_rounds_integer :
    (∃ h, coerce "A" .double (.int64 9007199254740993) =
      .ok ⟨.double, .double (.ofInt 9007199254740992), h⟩) ∧
    ¬(Value.double (.ofInt 9007199254740992)).SameNumber (.int64 9007199254740993) := by
  constructor
  · have hround : Binary64.ofInt 9007199254740993 = .ofInt 9007199254740992 := by decide +kernel
    refine ⟨.inr rfl, ?_⟩
    rw [← hround]
    rfl
  · rintro (hsame | ⟨q, hq, hwide⟩)
    · cases hsame
    · cases hwide
      obtain ⟨m, e, hdigits, hm⟩ := Binary64.fitsSignificand_of_toRat? hq
      replace hdigits : 9007199254740993 = m * 2 ^ e := hdigits
      cases e with
      | zero => omega
      | succ e =>
        rw [Nat.pow_succ, ← Nat.mul_assoc] at hdigits
        omega

end TableClient
