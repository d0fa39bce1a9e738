import TableClient.Instant.Basic
import TableClient.Text.Cut
import TableClient.Text.Digits

/-! RFC 3339 texts of moments, in universal time, and their readers. `read?` takes the format as it is
defined; `readLenient?` also takes blanks between the parts, numbers of fewer digits, signed years and a
few other spellings of the offset. -/

namespace TableClient.Instant

/-! ### Printing -/

/-- Four digits; outside 0 to 9999 a sign and at least four digits. -/
def yearText (year : Int) : List Char :=
  if 0 ≤ year ∧ year ≤ 9999 then Text.decimalPadded 4 year.toNat
  else (if year < 0 then '-' else '+') :: Text.decimalPadded 4 year.natAbs

/-- Nothing, or a point and the shortest of three, six and nine digits that is exact. -/
def fractionText (nanos : Nat) : List Char :=
  if nanos = 0 then []
  else if nanos % 1000000 = 0 then '.' :: Text.decimalPadded 3 (nanos / 1000000)
  else if nanos % 1000 = 0 then '.' :: Text.decimalPadded 6 (nanos / 1000)
  else '.' :: Text.decimalPadded 9 nanos

def dateText (d : Calendar.Date) : List Char :=
  yearText d.year ++ '-' :: Text.decimalPadded 2 d.month ++ '-' :: Text.decimalPadded 2 d.day

def clockText (t : Instant) : List Char :=
  let s := t.secondOfDay
  Text.decimalPadded 2 (s / 3600) ++ ':' :: Text.decimalPadded 2 (s / 60 % 60) ++
    ':' :: Text.decimalPadded 2 (s % 60 + if t.isLeapSecond then 1 else 0) ++
    fractionText (t.nanos % 1000000000)

/-- The text of a moment, up to the mark of its offset. -/
def localText (t : Instant) : List Char :=
  dateText t.date ++ 'T' :: t.clockText

/-- The text with `Z` for universal time. -/
def zuluText (t : Instant) : List Char :=
  t.localText ++ ['Z']

/-- The text with a numeric offset of zero. -/
def offsetText (t : Instant) : List Char :=
  t.localText ++ ['+', '0', '0', ':', '0', '0']

/-! ### Reading -/

/-- Reads between `least` and `most` ASCII digits, as many as there are. -/
def readNumber (least most : Nat) (cs : List Char) : Option (Nat × List Char) :=
  let ds := (cs.take most).takeWhile Char.isDigit
  if ds.length < least then none
  else some (Nat.ofDigitChars 10 ds 0, cs.drop ds.length)

def readMark (mark : Char) : List Char → Option (List Char)
  | [] => none
  | c :: cs => if c = mark then some cs else none

/-- Reads the digits after a decimal point as nanoseconds; digits after the ninth are dropped. -/
def readFraction : List Char → Option (Nat × List Char)
  | '.' :: cs =>
    let ds := cs.takeWhile Char.isDigit
    if ds = [] then none
    else
      let kept := ds.take 9
      some (Nat.ofDigitChars 10 kept 0 * Text.tenTo (9 - kept.length), cs.drop ds.length)
  | cs => some (0, cs)

/-- Reads `Z`, or a signed offset in hours and minutes; `gap` takes what stands between the two. -/
def readOffset (gap : List Char → Option (List Char)) : List Char → Option (Int × List Char)
  | [] => none
  | c :: cs =>
    if c = 'Z' ∨ c = 'z' then some (0, cs)
    else if c = '+' ∨ c = '-' ∨ c = '\u2212' then do
      let (hours, cs) ← readNumber 2 2 cs
      let (minutes, cs) ← readNumber 2 2 (← gap cs)
      if 59 < minutes then none
      let seconds : Int := hours * 3600 + minutes * 60
      some (if c = '+' then seconds else -seconds, cs)
    else none

/-- The fields of a text in the defined format. -/
def Fields.read? (cs : List Char) : Option Fields := do
  let (year, cs) ← readNumber 4 4 cs
  let (month, cs) ← readNumber 2 2 (← readMark '-' cs)
  let (day, cs) ← readNumber 2 2 (← readMark '-' cs)
  let cs ← readMark 'T' cs <|> readMark 't' cs <|> readMark ' ' cs
  let (hour, cs) ← readNumber 2 2 cs
  let (minute, cs) ← readNumber 2 2 (← readMark ':' cs)
  let (second, cs) ← readNumber 2 2 (← readMark ':' cs)
  let (nanos, cs) ← readFraction cs
  let (offset, cs) ← readOffset (readMark ':') cs
  if cs ≠ [] then none
  some ⟨⟨year, month, day⟩, hour, minute, second, nanos, offset⟩

/-- The moment that an RFC 3339 text names. -/
def read? (cs : List Char) : Option Instant :=
  (Fields.read? cs).bind ofFields?

/-- A year of up to four digits, or a sign and any number of digits. -/
def readYear (cs : List Char) : Option (Int × List Char) :=
  match Text.trimLeft cs with
  | '-' :: cs => (readNumber 1 cs.length cs).map fun (n, rest) => (-(n : Int), rest)
  | '+' :: cs => (readNumber 1 cs.length cs).map fun (n, rest) => ((n : Int), rest)
  | cs => (readNumber 1 4 cs).map fun (n, rest) => ((n : Int), rest)

/-- A number of one or two digits after blanks. -/
def readPair (cs : List Char) : Option (Nat × List Char) :=
  readNumber 1 2 (Text.trimLeft cs)

/-- A mark after blanks. -/
def readSpacedMark (mark : Char) (cs : List Char) : Option (List Char) :=
  readMark mark (Text.trimLeft cs)

/-- The letters `UTC` in any case stand for an offset of zero, beside the usual spellings; colons
and blanks may separate hours and minutes. -/
def readLenientOffset (cs : List Char) : Option (Int × List Char) :=
  if (cs.take 3).map Char.toUpper = ['U', 'T', 'C'] then some (0, cs.drop 3)
  else readOffset (fun cs => some (cs.dropWhile fun c => c = ':' || Text.isBlank c)) cs

/-- The fields of a leniently written text. -/
def Fields.readLenient? (cs : List Char) : Option Fields := do
  let (year, cs) ← readYear cs
  let (month, cs) ← readPair (← readSpacedMark '-' cs)
  let (day, cs) ← readPair (← readSpacedMark '-' cs)
  let cs ← readMark 'T' cs <|> readMark 't' cs <|> readMark ' ' cs
  let (hour, cs) ← readPair cs
  let (minute, cs) ← readPair (← readSpacedMark ':' cs)
  let (second, cs) ← readPair (← readSpacedMark ':' cs)
  let (nanos, cs) ← readFraction cs
  let (offset, cs) ← readLenientOffset (Text.trimLeft cs)
  if Text.trimLeft cs ≠ [] then none
  some ⟨⟨year, month, day⟩, hour, minute, second, nanos, offset⟩

/-- The years that a leniently written text may name, in its own offset and in universal time. -/
def isLenientYear (year : Int) : Bool :=
  -262143 ≤ year && year ≤ 262142

/-- The moment that a leniently written text names. -/
def readLenient? (cs : List Char) : Option Instant := do
  let fields ← Fields.readLenient? cs
  let t ← ofFields? fields
  if isLenientYear fields.date.year && isLenientYear t.date.year then some t else none

end TableClient.Instant
