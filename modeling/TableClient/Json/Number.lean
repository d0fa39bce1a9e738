import TableClient.Binary64.Basic
import TableClient.Json.Token

/-! The numbers that JSON number texts stand for. A whole number that fits 64 bits is an integer.
Any other becomes a double through a significand of at most 64 bits and one product or quotient with
a power of ten, so that a double may miss the nearest one by its last bits. -/

namespace TableClient.Json

inductive Number where
  /-- Between `-2^63` and `2^64 - 1`. -/
  | int (n : Int)
  | double (x : Binary64)
  deriving DecidableEq

/-- Digits taken into a 64-bit significand, and how many were left over when it was full. -/
structure Significand where
  value : Nat
  left : Nat

/-- Takes digits as long as the significand fits 64 bits. -/
def Significand.take (value : Nat) : List Char → Significand
  | [] => ⟨value, 0⟩
  | d :: ds =>
    let next := value * 10 + (d.toNat - '0'.toNat)
    if next < UInt64.size then take next ds else ⟨value, ds.length + 1⟩

/-- The double nearest to a power of ten. -/
def powerOfTen (k : Nat) : Binary64 :=
  .ofRatio false (Text.tenTo k) 1

/-- A double scaled by a power of ten. Powers that no double can express are divided off in parts;
too large a number is an error. -/
def scale (x : Binary64) (exponent : Int) : Option Binary64 :=
  if exponent < -308 then
    if x.magnitude = 0 then some x else scale (x.divMagnitude (powerOfTen 308)) (exponent + 308)
  else if exponent < 0 then some (x.divMagnitude (powerOfTen exponent.natAbs))
  else if exponent ≤ 308 then
    let product := x.mulMagnitude (powerOfTen exponent.natAbs)
    if product.isFinite then some product else none
  else if x.magnitude = 0 then some x
  else none
termination_by exponent.natAbs
decreasing_by omega

/-- The double of a significand and a power of ten. -/
def signed (negative : Bool) (significand : Nat) (exponent : Int) : Option Number :=
  (scale (.ofInt significand) exponent).map fun x => .double (.ofMagnitude negative x.magnitude)

/-- The number that a number text stands for. -/
def NumberText.value? (t : NumberText) : Option Number :=
  let whole := Significand.take 0 t.whole
  match t.fraction, t.exponent with
  | none, none =>
    if whole.left = 0 ∧ !t.negative then some (.int whole.value)
    else if whole.left = 0 ∧ 0 < whole.value ∧ Int64.minValue.toInt ≤ -whole.value then
      some (.int (-whole.value))
    else signed t.negative whole.value whole.left
  | fraction, exponent =>
    let digits := fraction.getD []
    let all := Significand.take whole.value digits
    let taken := digits.length - all.left
    signed t.negative all.value (whole.left - taken + exponent.getD 0)

/-- The double of a number: integers become the nearest one. -/
def Number.toDouble : Number → Binary64
  | int n => .ofInt n
  | double x => x

end TableClient.Json
