import Mathlib.Algebra.Group.Nat.Defs
import TableClient.Text.Digits

/-! Digits read back: integers of both widths, padded decimals, and bytes written as pairs of
hexadecimal digits. A reader of digits sees exactly the number that was written, whatever number
it was. -/

namespace TableClient.Text

/-! ### Decimal digits -/

theorem isDigit_of_mem_decimal {n : Nat} {c : Char} (h : c ∈ decimal n) : c.isDigit :=
  Nat.isDigit_of_mem_toDigits (by decide) (by decide) h

theorem decimal_ne_nil (n : Nat) : decimal n ≠ [] :=
  Nat.toDigits_ne_nil

theorem mem_integer {n : Int} {c : Char} (h : c ∈ integer n) : c = '-' ∨ c.isDigit := by
  unfold integer at h
  split at h
  · rcases List.mem_cons.1 h with rfl | h
    · exact .inl rfl
    · exact .inr (isDigit_of_mem_decimal h)
  · exact .inr (isDigit_of_mem_decimal h)

/-- A text that begins with a digit has no sign to take off. -/
theorem readInteger?_of_digit {c : Char} {cs : List Char} (h : c.isDigit) :
    readInteger? (c :: cs) = (readDecimal? (c :: cs)).map Int.ofNat := by
  unfold readInteger?
  split
  · next heq => cases heq; exact absurd h (by decide)
  · next heq => cases heq; exact absurd h (by decide)
  · rfl

theorem readInteger?_integer (n : Int) : readInteger? (integer n) = some n := by
  unfold integer
  split
  next neg =>
    have back : -(n.natAbs : Int) = n := by omega
    rw [readInteger?, readDecimal?_decimal]
    exact congrArg some back
  next nonneg =>
    obtain ⟨c, cs, hcs⟩ := List.exists_cons_of_ne_nil (decimal_ne_nil n.natAbs)
    have hc : c.isDigit := isDigit_of_mem_decimal (hcs ▸ List.mem_cons_self)
    have back : (n.natAbs : Int) = n := by omega
    rw [hcs, readInteger?_of_digit hc, ← hcs, readDecimal?_decimal]
    exact congrArg some back

theorem readInt32?_integer (n : Int32) : readInt32? (integer n.toInt) = some n := by
  rw [readInt32?, readInteger?_integer, Option.bind_some,
    if_pos ⟨n.minValue_le_toInt, n.toInt_le⟩, Int32.ofInt_toInt]

theorem readInt64?_integer (n : Int64) : readInt64? (integer n.toInt) = some n := by
  rw [readInt64?, readInteger?_integer, Option.bind_some,
    if_pos ⟨n.minValue_le_toInt, n.toInt_le⟩, Int64.ofInt_toInt]

/-- Digits count less than a one with as many zeros. -/
theorem ofDigitChars_lt {ds : List Char} (h : ∀ c ∈ ds, c.isDigit) (n : Nat) :
    Nat.ofDigitChars 10 ds n < (n + 1) * 10 ^ ds.length := by
  induction ds generalizing n with
  | nil => simp
  | cons c ds ih =>
    obtain ⟨hc, hds⟩ := List.forall_mem_cons.1 h
    have hrange : '0'.toNat ≤ c.toNat ∧ c.toNat ≤ '9'.toNat := Char.isDigit_iff_toNat.1 hc
    have hnine : '9'.toNat = '0'.toNat + 9 := rfl
    have hnext : 10 * n + (c.toNat - '0'.toNat) + 1 ≤ (n + 1) * 10 := by omega
    rw [Nat.ofDigitChars_cons, List.length_cons, Nat.pow_succ']
    calc Nat.ofDigitChars 10 ds (10 * n + (c.toNat - '0'.toNat))
        < (10 * n + (c.toNat - '0'.toNat) + 1) * 10 ^ ds.length := ih hds _
      _ ≤ (n + 1) * 10 * 10 ^ ds.length := Nat.mul_le_mul_right _ hnext
      _ = (n + 1) * (10 * 10 ^ ds.length) := Nat.mul_assoc _ _ _

/-! ### Padded decimals -/

theorem isDigit_of_mem_decimalPadded {width n : Nat} {c : Char} (h : c ∈ decimalPadded width n) :
    c.isDigit := by
  rcases List.mem_append.1 h with h | h
  · rw [List.eq_of_mem_replicate h]; decide
  · exact isDigit_of_mem_decimal h

theorem length_decimalPadded {width n : Nat} (hw : 0 < width) (h : n < 10 ^ width) :
    (decimalPadded width n).length = width := by
  have := (Nat.length_toDigits_le_iff (b := 10) (n := n) (by decide) hw).2 h
  simp only [decimalPadded, decimal, List.length_append, List.length_replicate]
  omega

theorem ofDigitChars_decimalPadded (width n : Nat) :
    Nat.ofDigitChars 10 (decimalPadded width n) 0 = n := by
  simp [decimalPadded, decimal, Nat.ofDigitChars_append, Nat.ofDigitChars_ten_toDigits]

/-! ### Hexadecimal digits -/

/-- A hexadecimal digit in lower case. -/
theorem mem_hexFixed {width n : Nat} {c : Char} (h : c ∈ hexFixed width n) :
    ∃ d < 16, c = Nat.digitChar d := by
  induction width generalizing n with
  | zero => simp [hexFixed] at h
  | succ w ih =>
    rcases List.mem_append.1 h with h | h
    · exact ih h
    · exact ⟨n % 16, Nat.mod_lt _ (by omega), by simpa using h⟩

theorem mem_hexBytes {bytes : List UInt8} {c : Char} (h : c ∈ hexBytes bytes) :
    ∃ d < 16, c = Nat.digitChar d := by
  obtain ⟨b, -, h⟩ := List.mem_flatMap.1 h
  exact mem_hexFixed h

/-- A digit is none of the characters that have no value as a digit. -/
theorem ne_of_mem_hex {c other : Char} (h : ∃ d < 16, c = Nat.digitChar d)
    (hother : hexValue? other = none) : c ≠ other := by
  obtain ⟨d, hd, rfl⟩ := h
  rintro rfl
  rw [hexValue?_digitChar hd] at hother
  cases hother

/-- Two digits of a byte are its high and its low half. -/
theorem hexFixed_two (n : Nat) :
    hexFixed 2 n = [Nat.digitChar (n / 16 % 16), Nat.digitChar (n % 16)] := rfl

theorem readHexPair?_hexFixed (b : UInt8) :
    readHexPair? (Nat.digitChar (b.toNat / 16 % 16)) (Nat.digitChar (b.toNat % 16)) = some b := by
  have hb : b.toNat < 256 := b.toNat_lt
  have high : hexValue? (Nat.digitChar (b.toNat / 16 % 16)) = some (b.toNat / 16 % 16) :=
    hexValue?_digitChar (Nat.mod_lt _ (by omega))
  have low : hexValue? (Nat.digitChar (b.toNat % 16)) = some (b.toNat % 16) :=
    hexValue?_digitChar (Nat.mod_lt _ (by omega))
  -- a plus sign is no hexadecimal digit, so the special reading of a pair does not apply
  have noPlus : Nat.digitChar (b.toNat / 16 % 16) ≠ '+' :=
    ne_of_mem_hex ⟨_, Nat.mod_lt _ (by omega), rfl⟩ rfl
  have value : 16 * (b.toNat / 16 % 16) + b.toNat % 16 = b.toNat := by omega
  rw [readHexPair?, if_neg noPlus, high, low]
  simp only [Option.bind_eq_bind, Option.bind_some, value, UInt8.ofNat_toNat]

theorem readHexBytes?_hexBytes (bytes : List UInt8) :
    readHexBytes? (hexBytes bytes) = some bytes := by
  induction bytes with
  | nil => rfl
  | cons b bytes ih =>
    have split : hexBytes (b :: bytes) = hexFixed 2 b.toNat ++ hexBytes bytes := rfl
    rw [split, hexFixed_two]
    simp only [List.cons_append, List.nil_append, readHexBytes?, readHexPair?_hexFixed, ih]
    rfl

end TableClient.Text
