import TableClient.Binary64.Basic
import TableClient.Text.Digits

/-! The shortest decimal that reads back as a given double. All reals between the midpoints to
the neighbouring doubles round to a double; the search takes the coarsest decimal grid of at most
seventeen digits that has a point in this interval, and the point nearest to the double on it. -/

namespace TableClient

/-- The number `digits · 10^exponent`. -/
structure Decimal where
  digits : Nat
  exponent : Int
  deriving DecidableEq

namespace Decimal

/-- The digit text and the exponent, with zeros cut from the end of the digits. -/
def dropZeros (d : Decimal) : List Char × Int :=
  let ds := Text.decimal d.digits
  let kept := (ds.reverse.dropWhile (· == '0')).reverse
  (kept, d.exponent + (ds.length - kept.length))

end Decimal

namespace Binary64

/-- Which of two equally near decimals is taken. -/
inductive Tie where
  | up
  | toEven
  deriving DecidableEq

/-- The `p` with `10^(p-1) ≤ num / den < 10^p`, for a positive quotient. -/
def decimalPosition (num den : Nat) : Int :=
  if den ≤ num then (Text.decimal (num / den)).length
  else 1 - ((Text.decimal ((den - 1) / num)).length : Int)

/-- The value of a double and the ends of its rounding interval, all over one denominator. -/
structure Interval where
  low : Nat
  value : Nat
  high : Nat
  den : Nat
  closed : Bool

/-- The rounding interval of a finite positive double. Below the least significand of a binade the
neighbour is only half as far away. -/
def interval (x : Binary64) : Interval where
  low := 4 * x.scaled - (if x.significand = leadingBit ∧ 0 < x.unit then 1 else 2) <<< x.unit
  value := 4 * x.scaled
  high := 4 * x.scaled + 2 <<< x.unit
  den := 1 <<< 1076
  closed := x.significand % 2 = 0

namespace Interval

/-- Scales the interval so that the points of the grid `10^k` become the multiples of `den`. -/
def onGrid (i : Interval) (k : Int) : Interval :=
  let up := Text.tenTo (-k).toNat
  { i with
      low := i.low * up, value := i.value * up, high := i.high * up, den := i.den * Text.tenTo k.toNat }

def contains (i : Interval) (n : Nat) : Bool :=
  (i.low < n * i.den && n * i.den < i.high) ||
    (i.closed && (n * i.den == i.low || n * i.den == i.high))

/-- The multiple of `den` in the interval that is nearest to the value, among the two that enclose
the value. -/
def nearest? (i : Interval) (tie : Tie) : Option Nat :=
  let below := i.value / i.den
  let above := below + 1
  let toBelow := i.value - below * i.den
  let toAbove := above * i.den - i.value
  if i.contains below && i.contains above then
    if toBelow < toAbove then some below
    else if toAbove < toBelow then some above
    else if tie = .toEven ∧ below % 2 = 0 then some below
    else some above
  else if i.contains below then some below
  else if i.contains above then some above
  else none

end Interval

/-- The grids that are tried, coarsest first: `position - 1` down to `position - 17`. -/
def grids (position : Int) : List Int :=
  (List.range 17).map fun (n : Nat) => position - (n + 1 : Nat)

/-- The shortest decimal of a finite positive double. -/
def shortest (tie : Tie) (x : Binary64) : Decimal :=
  let i := x.interval
  let found := (grids (decimalPosition i.value i.den)).findSome? fun k =>
    ((i.onGrid k).nearest? tie).map fun digits => Decimal.mk digits k
  found.getD ⟨0, 0⟩

end Binary64

end TableClient
