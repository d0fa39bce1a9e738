import TableClient.Binary64.Shortest
import TableClient.Text.Digits

/-! Texts of doubles. A layout says when the shortest digits of a double are written positionally
and when with an exponent; `plain` and `json` are the two layouts this library writes. Decimal texts
are read with correct rounding: an optional sign, digits with at most one point and at least one digit
on a side of it, and an optional exponent. -/

namespace TableClient.Binary64

/-! ### Printing -/

/-- How the digits of a finite double are set out. -/
structure DigitLayout where
  /-- Whether a number whose leading digit counts `10^e` is written without exponent. -/
  positional : Int → Bool
  /-- Whether a whole number ends in `.0`. -/
  wholePoint : Bool
  tie : Tie

/-- Never an exponent, and no point in whole numbers. -/
def plain : DigitLayout where
  positional _ := true
  wholePoint := false
  tie := .up

/-- Positional from `1e-5` up to below `1e16`; whole numbers end in `.0`. -/
def json : DigitLayout where
  positional e := -5 ≤ e && e ≤ 15
  wholePoint := true
  tie := .toEven

/-- Digits with the decimal point after the first `point` of them, zeros filled in. -/
def DigitLayout.pointed (layout : DigitLayout) (ds : List Char) (point : Int) : List Char :=
  if point ≤ 0 then '0' :: '.' :: (List.replicate (-point).toNat '0' ++ ds)
  else if ds.length ≤ point then
    ds ++ List.replicate (point - ds.length).toNat '0' ++
      (if layout.wholePoint then ['.', '0'] else [])
  else ds.take point.toNat ++ '.' :: ds.drop point.toNat

/-- One digit before the point, the others after it, and the signed exponent of the first. -/
def scientific (ds : List Char) (e : Int) : List Char :=
  ds.take 1 ++ (if 1 < ds.length then '.' :: ds.drop 1 else []) ++
    'e' :: (if e < 0 then '-' else '+') :: Text.decimal e.natAbs

/-- The text of the absolute value of a finite double. -/
def DigitLayout.digits (layout : DigitLayout) (x : Binary64) : List Char :=
  if x.magnitude = 0 then layout.pointed ['0'] 1
  else
    let (ds, exponent) := (x.shortest layout.tie).dropZeros
    let point := ds.length + exponent
    if layout.positional (point - 1) then layout.pointed ds point
    else scientific ds (point - 1)

/-- The text of a finite double. -/
def DigitLayout.finite (layout : DigitLayout) (x : Binary64) : List Char :=
  if x.isNegative then '-' :: layout.digits x else layout.digits x

/-- The plain text of any double. -/
def toText (x : Binary64) : String :=
  if x.isNaN then "NaN"
  else if x.isFinite then String.ofList (plain.finite x)
  else if x.isNegative then "-inf" else "inf"

/-! ### Reading -/

/-- A decimal text taken apart. -/
structure DecimalText where
  negative : Bool
  whole : List Char
  fraction : List Char
  exponent : Int

/-- The digits at the front of a text, and the rest. -/
def spanDigits (cs : List Char) : List Char × List Char :=
  (cs.takeWhile Char.isDigit, cs.dropWhile Char.isDigit)

def splitSign : List Char → Bool × List Char
  | '-' :: cs => (true, cs)
  | '+' :: cs => (false, cs)
  | cs => (false, cs)

/-- Nothing, or an exponent mark with a signed number after it. -/
def readExponent? : List Char → Option Int
  | [] => some 0
  | c :: cs => if c = 'e' ∨ c = 'E' then Text.readInteger? cs else none

def DecimalText.read? (cs : List Char) : Option DecimalText := do
  let (negative, cs) := splitSign cs
  let (whole, cs) := spanDigits cs
  let (fraction, cs) := match cs with
    | '.' :: cs => spanDigits cs
    | cs => ([], cs)
  if whole = [] ∧ fraction = [] then none
  let exponent ← readExponent? cs
  some ⟨negative, whole, fraction, exponent⟩

/-- The double nearest to `digits · 10^exponent`. A number outside `10^-400 .. 10^400` is rounded
without being computed, since no double but zero or infinity is near it. -/
def ofDecimal (negative : Bool) (digits : List Char) (exponent : Int) : Binary64 :=
  let digits := digits.dropWhile (· == '0')
  let position : Int := digits.length + exponent
  if digits = [] ∨ position < -400 then ofMagnitude negative 0
  else if 400 < position then ofMagnitude negative infinityMagnitude
  else
    ofRatio negative (Nat.ofDigitChars 10 digits 0 * Text.tenTo exponent.toNat)
      (Text.tenTo (-exponent).toNat)

def DecimalText.value (d : DecimalText) : Binary64 :=
  ofDecimal d.negative (d.whole ++ d.fraction) (d.exponent - d.fraction.length)

/-- The double nearest to a decimal text; infinity when the number is too large. -/
def read? (cs : List Char) : Option Binary64 :=
  (DecimalText.read? cs).map DecimalText.value

end TableClient.Binary64
