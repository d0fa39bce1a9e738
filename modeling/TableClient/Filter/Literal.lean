import TableClient.Binary64.Text
import TableClient.Instant.Text
import TableClient.Query.Error
import TableClient.Text.Cut
import TableClient.Value.Basic

/-! Literals of the filter grammar. Texts stand between single quotes, with inner quotes doubled;
bytes, identifiers and moments stand between quotes after a mark; a wide integer ends in `L`; a
double has a point in it. `read` takes what `render` writes, and some other spellings. -/

namespace TableClient.Literal

/-- Writes each quote twice. -/
def doubleQuotes : List Char → List Char
  | [] => []
  | c :: cs => if c = '\x27' then c :: c :: doubleQuotes cs else c :: doubleQuotes cs

/-- Takes doubled quotes back; refuses a quote that stands alone. -/
def undoubleQuotes : List Char → Option (List Char)
  | [] => some []
  | '\x27' :: '\x27' :: cs => (undoubleQuotes cs).map ('\x27' :: ·)
  | c :: cs => if c = '\x27' then none else (undoubleQuotes cs).map (c :: ·)

/-- A body between quotes, after a mark. -/
def marked (mark : String) (body : List Char) : String :=
  String.ofList (mark.toList ++ '\x27' :: body ++ ['\x27'])

/-- The body between quotes after a mark. -/
def body? (mark : String) (text : List Char) : Option (List Char) :=
  (Text.dropLead (mark.toList ++ ['\x27']) text).bind (Text.dropFinal '\x27')

/-- The plain digits of a finite double, with `.0` if they have no point. -/
def doubleText (x : Binary64) : List Char :=
  let ds := Binary64.plain.finite x
  if '.' ∈ ds then ds else ds ++ ['.', '0']

/-- The literal of a value. Null, lists, records and doubles that are not finite have none. -/
def render : Value → Except QueryError String
  | .string s => .ok (marked "" (doubleQuotes s.toList))
  | .binary bytes => .ok (marked "X" (Text.hexBytes bytes))
  | .bool b => .ok (if b then "true" else "false")
  | .int32 n => .ok (String.ofList (Text.integer n.toInt))
  | .int64 n => .ok (String.ofList (Text.integer n.toInt ++ ['L']))
  | .double x =>
    if x.isFinite then .ok (String.ofList (doubleText x))
    else .error (.unsupportedLiteral ("non-finite double " ++ x.toText))
  | .guid g => .ok (marked "guid" g.hyphenated)
  | .dateTime t => .ok (marked "datetime" t.zuluText)
  | v => .error (.unsupportedLiteral v.kind.name)

/-- A double that is finite. -/
def readDouble? (cs : List Char) : Option Binary64 :=
  (Binary64.read? cs).filter Binary64.isFinite

/-- The literals that are not between quotes. -/
def readBare? (cs : List Char) : Option Value :=
  if cs = "true".toList then some (.bool true)
  else if cs = "false".toList then some (.bool false)
  else
    match Text.dropFinal 'L' cs with
    | some digits => (Text.readInt64? digits).map .int64
    | none => if '.' ∈ cs then (readDouble? cs).map .double else (Text.readInt32? cs).map .int32

/-- The value that a literal stands for, if the text is one. -/
def read? (cs : List Char) : Option Value :=
  match body? "" cs, (body? "X" cs <|> body? "binary" cs), body? "guid" cs, body? "datetime" cs with
  | some body, _, _, _ => (undoubleQuotes body).map fun s => .string (String.ofList s)
  | _, some body, _, _ => (Text.readHexBytes? body).map .binary
  | _, _, some body, _ => (Guid.read? body).map .guid
  | _, _, _, some body => (Instant.read? body).map .dateTime
  | _, _, _, _ => readBare? cs

/-- The value of a literal text. -/
def read (text : String) : Except QueryError Value :=
  match read? text.toList with
  | some v => .ok v
  | none => .error (.malformedLiteral text)

theorem undoubleQuotes_doubleQuotes (cs : List Char) :
    undoubleQuotes (doubleQuotes cs) = some cs := by
  induction cs with
  | nil => rfl
  | cons c cs ih => by_cases h : c = '\x27' <;> simp [doubleQuotes, undoubleQuotes, h, ih]

end TableClient.Literal
