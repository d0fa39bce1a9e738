import TableClient.Binary64.Text
import TableClient.Json.Number
import TableClient.Json.Tree
import TableClient.Keyed

/-! JSON documents: trees whose strings are text, whose numbers are in range, and whose objects are
tables in the sense of `Keyed`. They are written without spaces. -/

namespace TableClient.Json

inductive Document where
  | null
  | bool (b : Bool)
  | number (n : Number)
  | string (s : String)
  | array (items : List Document)
  | object (members : List (String × Document))
  deriving Inhabited

/-- Arrays and objects may stand in one another to this depth. -/
def maxDepth : Nat := 127

namespace Document

mutual

/-- The document of a tree that is at most `depth` deep. Of members with one name the last stays. -/
def ofTree (depth : Nat) : Tree → Option Document
  | .null => some null
  | .bool b => some (bool b)
  | .number text => text.value?.map number
  | .string text => text.map string
  | .array items =>
    match depth with
    | 0 => none
    | depth + 1 => (ofItems depth items).map array
  | .object members =>
    match depth with
    | 0 => none
    | depth + 1 => (ofMembers depth members).map fun ms => object (Keyed.ofList ms)

def ofItems (depth : Nat) : List Tree → Option (List Document)
  | [] => some []
  | t :: ts => do
    let d ← ofTree depth t
    let ds ← ofItems depth ts
    some (d :: ds)

def ofMembers (depth : Nat) : List (Option String × Tree) → Option (List (String × Document))
  | [] => some []
  | (name, t) :: rest => do
    let name ← name
    let d ← ofTree depth t
    let ds ← ofMembers depth rest
    some ((name, d) :: ds)

end

/-- The document of a text. -/
def read? (text : String) : Option Document :=
  (Tree.read? text).bind (ofTree maxDepth)

end Document

/-! ### Writing -/

/-- A character within a string. -/
def escapeChar (c : Char) : List Char :=
  if c = '"' then ['\\', '"']
  else if c = '\\' then ['\\', '\\']
  else if c = '\x08' then ['\\', 'b']
  else if c = '\x0c' then ['\\', 'f']
  else if c = '\n' then ['\\', 'n']
  else if c = '\r' then ['\\', 'r']
  else if c = '\t' then ['\\', 't']
  else if c.toNat < 0x20 then '\\' :: 'u' :: Text.hexFixed 4 c.toNat
  else [c]

def quoted (s : String) : List Char :=
  '"' :: s.toList.flatMap escapeChar ++ ['"']

/-- A double; what is not finite has no number and is written as null. -/
def doubleText (x : Binary64) : List Char :=
  if x.isFinite then Binary64.json.finite x else "null".toList

def Number.text : Number → List Char
  | int n => Text.integer n
  | double x => doubleText x

/-- Items between brackets. -/
def arrayText (items : List (List Char)) : List Char :=
  '[' :: [','].intercalate items ++ [']']

/-- A member of an object. -/
def memberText (name : String) (value : List Char) : List Char :=
  quoted name ++ ':' :: value

/-- Members between braces. -/
def objectText (members : List (List Char)) : List Char :=
  '\x7b' :: [','].intercalate members ++ ['\x7d']

namespace Document

mutual

def chars : Document → List Char
  | null => "null".toList
  | bool b => if b then "true".toList else "false".toList
  | number n => n.text
  | string s => quoted s
  | array items => arrayText (itemChars items)
  | object members => objectText (memberChars members)

def itemChars : List Document → List (List Char)
  | [] => []
  | d :: ds => chars d :: itemChars ds

def memberChars : List (String × Document) → List (List Char)
  | [] => []
  | (name, d) :: rest => memberText name (chars d) :: memberChars rest

end

/-- The text of a document. -/
def render (d : Document) : String :=
  String.ofList d.chars

end Document

end TableClient.Json
