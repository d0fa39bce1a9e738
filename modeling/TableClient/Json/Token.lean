import TableClient.Text.Cut
import TableClient.Text.Digits

/-! Tokens of JSON texts. A number is kept in its parts, and a string whose escapes do not spell
text is kept as such, since both are faults only where somebody reads them. -/

namespace TableClient.Json

/-- The parts of a number. -/
structure NumberText where
  negative : Bool
  whole : List Char
  fraction : Option (List Char)
  exponent : Option Int
  deriving DecidableEq

inductive Token where
  | openArray | closeArray | openObject | closeObject | comma | colon
  | null | true | false
  | number (text : NumberText)
  /-- `none` stands for a string with an escape of half a surrogate pair. -/
  | string (text : Option String)
  deriving DecidableEq

def isSpace (c : Char) : Bool :=
  c = ' ' || c = '\t' || c = '\n' || c = '\r'

/-- Reads the four digits of an escape. -/
def readUnit : List Char → Option (Nat × List Char)
  | a :: b :: c :: d :: cs => (Text.readHex? [a, b, c, d]).map fun n => (n, cs)
  | _ => none

def isHighSurrogate (n : Nat) : Bool := 0xd800 ≤ n && n < 0xdc00

def isLowSurrogate (n : Nat) : Bool := 0xdc00 ≤ n && n < 0xe000

/-- The character of a surrogate pair. -/
def pairChar (high low : Nat) : Char :=
  Char.ofNat (0x10000 + (high - 0xd800) * 0x400 + (low - 0xdc00))

/-- Reads the escape after `\u`: a unit that is a character, or two that are one together. Half a
pair reads as no character. -/
def readUnicode (cs : List Char) : Option (Option Char × List Char) := do
  let (n, cs) ← readUnit cs
  if isHighSurrogate n then
    match cs with
    | '\\' :: 'u' :: rest =>
      let (m, rest) ← readUnit rest
      if isLowSurrogate m then some (some (pairChar n m), rest) else some (none, cs)
    | _ => some (none, cs)
  else if isLowSurrogate n then some (none, cs)
  else some (some (Char.ofNat n), cs)

/-- The character that a one-letter escape stands for. -/
def shortEscape? : Char → Option Char
  | '"' => some '"'
  | '\\' => some '\\'
  | '/' => some '/'
  | 'b' => some '\x08'
  | 'f' => some '\x0c'
  | 'n' => some '\n'
  | 'r' => some '\r'
  | 't' => some '\t'
  | _ => none

/-- Reads the rest of a string up to its closing quote, in at most `fuel` characters. -/
def readString (fuel : Nat) (cs : List Char) : Option (Option (List Char) × List Char) :=
  match fuel, cs with
  | 0, _ => none
  | _, [] => none
  | _, '"' :: cs => some (some [], cs)
  | fuel + 1, '\\' :: 'u' :: cs => do
    let (c, cs) ← readUnicode cs
    let (text, cs) ← readString fuel cs
    some ((do some ((← c) :: (← text))), cs)
  | fuel + 1, '\\' :: e :: cs => do
    let c ← shortEscape? e
    let (text, cs) ← readString fuel cs
    some (text.map (c :: ·), cs)
  | fuel + 1, c :: cs =>
    if c = '\\' ∨ c.toNat < 0x20 then none
    else do
      let (text, cs) ← readString fuel cs
      some (text.map (c :: ·), cs)

def spanDigits (cs : List Char) : List Char × List Char :=
  (cs.takeWhile Char.isDigit, cs.dropWhile Char.isDigit)

/-- One or more digits. -/
def readDigits (cs : List Char) : Option (List Char × List Char) :=
  let (ds, rest) := spanDigits cs
  if ds = [] then none else some (ds, rest)

/-- A zero alone, or digits that do not begin with zero. -/
def readWhole : List Char → Option (List Char × List Char)
  | '0' :: cs => some (['0'], cs)
  | cs => readDigits cs

def readFractionPart : List Char → Option (Option (List Char) × List Char)
  | '.' :: cs => (readDigits cs).map fun (ds, cs) => (some ds, cs)
  | cs => some (none, cs)

def readExponentPart : List Char → Option (Option Int × List Char)
  | c :: cs =>
    if c = 'e' ∨ c = 'E' then
      let (sign, cs) := match cs with
        | '-' :: cs => ((-1 : Int), cs)
        | '+' :: cs => (1, cs)
        | cs => (1, cs)
      (readDigits cs).map fun (ds, cs) => (some (sign * Nat.ofDigitChars 10 ds 0), cs)
    else some (none, c :: cs)
  | [] => some (none, [])

def readNumber (cs : List Char) : Option (NumberText × List Char) := do
  let (negative, cs) := match cs with
    | '-' :: cs => (Bool.true, cs)
    | cs => (Bool.false, cs)
  let (whole, cs) ← readWhole cs
  let (fraction, cs) ← readFractionPart cs
  let (exponent, cs) ← readExponentPart cs
  some (⟨negative, whole, fraction, exponent⟩, cs)

/-- Reads the token that begins with a character. -/
def readToken (c : Char) (cs : List Char) : Option (Token × List Char) :=
  match c with
  | '[' => some (.openArray, cs)
  | ']' => some (.closeArray, cs)
  | '\x7b' => some (.openObject, cs)
  | '\x7d' => some (.closeObject, cs)
  | ',' => some (.comma, cs)
  | ':' => some (.colon, cs)
  | 'n' => (Text.dropLead "ull".toList cs).map (.null, ·)
  | 't' => (Text.dropLead "rue".toList cs).map (.true, ·)
  | 'f' => (Text.dropLead "alse".toList cs).map (.false, ·)
  | '"' =>
    (readString (cs.length + 1) cs).map fun (text, cs) => (.string (text.map String.ofList), cs)
  | c => (readNumber (c :: cs)).map fun (text, cs) => (.number text, cs)

/-- The tokens of a text, in at most `fuel` steps. -/
def tokensWithin : Nat → List Char → Option (List Token)
  | _, [] => some []
  | 0, _ => none
  | fuel + 1, c :: cs =>
    if isSpace c then tokensWithin fuel cs
    else do
      let (t, cs) ← readToken c cs
      some (t :: (← tokensWithin fuel cs))

/-- The tokens of a text. Each step takes at least one character. -/
def tokens? (cs : List Char) : Option (List Token) :=
  tokensWithin cs.length cs

end TableClient.Json
