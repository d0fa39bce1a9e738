/-! Decimal and hexadecimal digits. Natural numbers are written with the digits of core's
`Nat.toDigits`; what is written is read back as the same number. -/

namespace TableClient.Text

/-- One followed by `k` zeros. -/
def tenTo (k : Nat) : Nat :=
  Nat.pow 10 k

/-- The decimal digits of a natural number. -/
def decimal (n : Nat) : List Char :=
  Nat.toDigits 10 n

/-- At least `width` decimal digits, filled up with zeros on the left. -/
def decimalPadded (width n : Nat) : List Char :=
  let ds := decimal n
  List.replicate (width - ds.length) '0' ++ ds

/-- One or more ASCII digits and nothing else. -/
def readDecimal? (cs : List Char) : Option Nat :=
  if cs ≠ [] ∧ cs.all Char.isDigit then some (Nat.ofDigitChars 10 cs 0) else none

theorem readDecimal?_decimal (n : Nat) : readDecimal? (decimal n) = some n := by
  have digits : (decimal n).all Char.isDigit := by
    simpa [decimal] using fun c hc => Nat.isDigit_of_mem_toDigits (by decide) (by decide) hc
  have nonempty : decimal n ≠ [] := by simp [decimal]
  simp only [readDecimal?, nonempty, digits, ne_eq, not_false_eq_true, and_self, ↓reduceIte]
  exact congrArg some (Nat.ofDigitChars_toDigits (by decide) (by decide))

/-- A minus sign before the digits of a negative number, nothing before the others. -/
def integer (n : Int) : List Char :=
  if n < 0 then '-' :: decimal n.natAbs else decimal n.natAbs

/-- An optional sign and one or more ASCII digits. -/
def readInteger? : List Char → Option Int
  | '-' :: cs => (readDecimal? cs).map fun n => -(n : Int)
  | '+' :: cs => (readDecimal? cs).map Int.ofNat
  | cs => (readDecimal? cs).map Int.ofNat

/-- An integer that fits 32 bits. -/
def readInt32? (cs : List Char) : Option Int32 :=
  (readInteger? cs).bind fun n =>
    if Int32.minValue.toInt ≤ n ∧ n ≤ Int32.maxValue.toInt then some (Int32.ofInt n) else none

/-- An integer that fits 64 bits. -/
def readInt64? (cs : List Char) : Option Int64 :=
  (readInteger? cs).bind fun n =>
    if Int64.minValue.toInt ≤ n ∧ n ≤ Int64.maxValue.toInt then some (Int64.ofInt n) else none

/-- The value of a hexadecimal digit of either case. -/
def hexValue? (c : Char) : Option Nat :=
  if '0' ≤ c ∧ c ≤ '9' then some (c.toNat - '0'.toNat)
  else if 'a' ≤ c ∧ c ≤ 'f' then some (c.toNat - 'a'.toNat + 10)
  else if 'A' ≤ c ∧ c ≤ 'F' then some (c.toNat - 'A'.toNat + 10)
  else none

/-- The last `width` hexadecimal digits of a number, in lower case. -/
def hexFixed : Nat → Nat → List Char
  | 0, _ => []
  | width + 1, n => hexFixed width (n / 16) ++ [Nat.digitChar (n % 16)]

/-- The number that hexadecimal digits spell, on top of a number already read. -/
def readHexFrom : Nat → List Char → Option Nat
  | acc, [] => some acc
  | acc, c :: cs => (hexValue? c).bind fun d => readHexFrom (16 * acc + d) cs

/-- The number that hexadecimal digits spell; the empty text spells zero. -/
def readHex? (cs : List Char) : Option Nat :=
  readHexFrom 0 cs

/-- Two lower-case hexadecimal digits for each byte. -/
def hexBytes (bytes : List UInt8) : List Char :=
  bytes.flatMap fun b => hexFixed 2 b.toNat

/-- A pair of digits spells a byte; a plus sign may stand in for the first digit. -/
def readHexPair? (a b : Char) : Option UInt8 :=
  if a = '+' then (hexValue? b).map UInt8.ofNat
  else do UInt8.ofNat (16 * (← hexValue? a) + (← hexValue? b))

/-- The bytes that pairs of digits spell. -/
def readHexBytes? : List Char → Option (List UInt8)
  | [] => some []
  | [_] => none
  | a :: b :: cs => do
    let byte ← readHexPair? a b
    let bytes ← readHexBytes? cs
    some (byte :: bytes)

theorem hexFixed_length (width n : Nat) : (hexFixed width n).length = width := by
  induction width generalizing n with
  | zero => rfl
  | succ w ih => simp [hexFixed, ih]

/-- Of a digit, both cases read as the same value. -/
theorem hexValue?_digitChar {d : Nat} (h : d < 16) : hexValue? (Nat.digitChar d) = some d := by
  rcases d with _ | _ | _ | _ | _ | _ | _ | _ | _ | _ | _ | _ | _ | _ | _ | _ | d
  all_goals first | rfl | omega

theorem readHexFrom_append (acc : Nat) (cs ds : List Char) :
    readHexFrom acc (cs ++ ds) = (readHexFrom acc cs).bind (readHexFrom · ds) := by
  induction cs generalizing acc with
  | nil => rfl
  | cons c cs ih => cases h : hexValue? c <;> simp [readHexFrom, h, ih]

/-- Fixed-width digits read back as the number, up to the width. -/
theorem readHexFrom_hexFixed (acc width n : Nat) :
    readHexFrom acc (hexFixed width n) =
      some (acc * Nat.pow 16 width + n % Nat.pow 16 width) := by
  induction width generalizing n with
  | zero => simp [hexFixed, readHexFrom, Nat.mod_one]
  | succ w ih =>
    have digit := hexValue?_digitChar (Nat.mod_lt n (by decide : 0 < 16))
    have power : Nat.pow 16 (w + 1) = 16 * Nat.pow 16 w := Nat.mul_comm ..
    have split : n % Nat.pow 16 (w + 1) = 16 * (n / 16 % Nat.pow 16 w) + n % 16 := by
      rw [power, Nat.mod_mul]; omega
    simp only [hexFixed, readHexFrom_append, ih, Option.bind_some, readHexFrom, digit, split]
    congr 1
    rw [power, Nat.mul_left_comm, Nat.mul_add]
    omega

end TableClient.Text
