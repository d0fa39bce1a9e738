/-! IEEE 754 double-precision numbers, held by their 64 bits and computed on exactly. A finite
double is `scaled / 2^1074` up to its sign, so comparison, rounding and the arithmetic below need
only natural numbers. -/

namespace TableClient

/-- A double, by its encoding. Different encodings are different values of this type; the order
and equality of the numbers they stand for are `Binary64.compare` and `Binary64.sameNumber`. -/
structure Binary64 where
  bits : UInt64
  deriving DecidableEq, Inhabited

namespace Binary64

/-- The encoding of infinity; what lies above is not a number, what lies below is finite. -/
def infinityMagnitude : Nat := 0x7ff0000000000000

/-- The bit that is set in negative doubles. -/
def signBit : Nat := 0x8000000000000000

/-- The bit that leads the significand of normal numbers and is left out of their encoding. -/
def leadingBit : Nat := 0x10000000000000

def isNegative (x : Binary64) : Bool :=
  signBit ≤ x.bits.toNat

/-- The encoding without its sign bit. Among doubles of one sign that are numbers it orders them
by size. -/
def magnitude (x : Binary64) : Nat :=
  x.bits.toNat % signBit

def isNaN (x : Binary64) : Bool :=
  infinityMagnitude < x.magnitude

def isFinite (x : Binary64) : Bool :=
  x.magnitude < infinityMagnitude

def ofMagnitude (negative : Bool) (magnitude : Nat) : Binary64 :=
  ⟨UInt64.ofNat ((if negative then signBit else 0) + magnitude)⟩

/-- The quiet not-a-number with an empty payload. -/
def nan : Binary64 := ⟨0x7ff8000000000000⟩

/-- Order key of a double that is a number: both zeros have key zero. -/
def key (x : Binary64) : Int :=
  if x.isNegative then -(x.magnitude : Int) else x.magnitude

/-- The order of the numbers; not-a-number compares with nothing. -/
def compare (x y : Binary64) : Option Ordering :=
  if x.isNaN || y.isNaN then none else some (Ord.compare x.key y.key)

/-- Equality of the numbers: the zeros are equal, not-a-number equals nothing. -/
def sameNumber (x y : Binary64) : Bool :=
  !x.isNaN && !y.isNaN && x.key == y.key

/-- The significand, with the leading bit that normal numbers leave out. -/
def significand (x : Binary64) : Nat :=
  if x.magnitude < leadingBit then x.magnitude else leadingBit + x.magnitude % leadingBit

/-- The power of two of the last bit of the significand, over `2^-1074`. -/
def unit (x : Binary64) : Nat :=
  x.magnitude / leadingBit - 1

/-- The absolute value of a finite double, times `2^1074`. -/
def scaled (x : Binary64) : Nat :=
  x.significand <<< x.unit

/-- The quotient rounded to the nearest natural number, a half to the even one. -/
def divideNearest (num den : Nat) : Nat :=
  let q := num / den
  let r := 2 * (num % den)
  if r < den ∨ (r = den ∧ q % 2 = 0) then q else q + 1

/-- The encoding of the double nearest to `num / den`; from the middle above the largest finite
double on, infinity. -/
def roundMagnitude (num den : Nat) : Nat :=
  let num := num <<< 1074
  let unit := (num / den).log2 - 52
  min (unit * leadingBit + divideNearest num (den <<< unit)) infinityMagnitude

/-- The double nearest to a quotient, ties to even. -/
def ofRatio (negative : Bool) (num den : Nat) : Binary64 :=
  ofMagnitude negative (roundMagnitude num den)

/-- The double nearest to an integer, ties to even. -/
def ofInt (n : Int) : Binary64 :=
  ofRatio (n < 0) n.natAbs 1

/-- The rounded product of the absolute values of two finite doubles. -/
def mulMagnitude (x y : Binary64) : Binary64 :=
  ofRatio false (x.scaled * y.scaled) (1 <<< 2148)

/-- The rounded quotient of the absolute values of two finite doubles. -/
def divMagnitude (x y : Binary64) : Binary64 :=
  ofRatio false x.scaled y.scaled

/-- The integer that a double equals, if it is whole and fits a signed 64-bit word. -/
def toInt64? (x : Binary64) : Option Int64 :=
  if x.isFinite ∧ x.scaled % (1 <<< 1074) = 0 then
    let n : Int := (if x.isNegative then -1 else 1) * (x.scaled >>> 1074 : Nat)
    if Int64.minValue.toInt ≤ n ∧ n ≤ Int64.maxValue.toInt then some (Int64.ofInt n) else none
  else none

end Binary64

end TableClient
