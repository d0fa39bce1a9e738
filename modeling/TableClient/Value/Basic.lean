import TableClient.Binary64.Text
import TableClient.Guid
import TableClient.Instant.Text
import TableClient.Keyed

/-! Dynamic values: what a closed expression folds to, what a field of a record reads as, and what
rows are made of. -/

namespace TableClient

inductive ValueKind where
  | null | bool | int32 | int64 | double | string | binary | guid | dateTime | list | record
  deriving DecidableEq

def ValueKind.name : ValueKind → String
  | null => "null"
  | bool => "bool"
  | int32 => "int32"
  | int64 => "int64"
  | double => "double"
  | string => "string"
  | binary => "binary"
  | guid => "guid"
  | dateTime => "datetime"
  | list => "list"
  | record => "record"

inductive Value where
  | null
  | bool (b : Bool)
  | int32 (n : Int32)
  | int64 (n : Int64)
  | double (x : Binary64)
  | string (s : String)
  | binary (bytes : List UInt8)
  | guid (g : Guid)
  | dateTime (t : Instant)
  /-- Values in order, such as a captured list that is searched. -/
  | list (items : List Value)
  /-- Named members, a table in the sense of `Keyed`. -/
  | record (members : List (String × Value))
  deriving Inhabited

namespace Value

/-- The record with the given members; of two members with one name the later one stays. -/
def ofMembers (members : List (String × Value)) : Value :=
  record (Keyed.ofList members)

def kind : Value → ValueKind
  | null => .null
  | bool _ => .bool
  | int32 _ => .int32
  | int64 _ => .int64
  | double _ => .double
  | string _ => .string
  | binary _ => .binary
  | guid _ => .guid
  | dateTime _ => .dateTime
  | list _ => .list
  | record _ => .record

def isNull : Value → Bool
  | null => true
  | _ => false

def string? : Value → Option String
  | string s => some s
  | _ => none

def bool? : Value → Option Bool
  | bool b => some b
  | _ => none

/-- The integer of either width. -/
def integer? : Value → Option Int64
  | int32 n => some n.toInt64
  | int64 n => some n
  | _ => none

/-- The member of a record. -/
def member? (v : Value) (name : String) : Option Value :=
  match v with
  | record members => Keyed.find? name members
  | _ => none

mutual

/-- Same kind and same content; doubles are equal as numbers. -/
def equal : Value → Value → Bool
  | null, null => true
  | bool a, bool b => a == b
  | int32 a, int32 b => a == b
  | int64 a, int64 b => a == b
  | double a, double b => a.sameNumber b
  | string a, string b => a == b
  | binary a, binary b => a == b
  | guid a, guid b => a == b
  | dateTime a, dateTime b => a == b
  | list as, list bs => equalItems as bs
  | record as, record bs => equalMembers as bs
  | _, _ => false

def equalItems : List Value → List Value → Bool
  | [], [] => true
  | a :: as, b :: bs => equal a b && equalItems as bs
  | _, _ => false

def equalMembers : List (String × Value) → List (String × Value) → Bool
  | [], [] => true
  | (k, a) :: as, (l, b) :: bs => k == l && equal a b && equalMembers as bs
  | _, _ => false

end

instance : BEq Value := ⟨equal⟩

/-- The order of two values, if their kinds have one. Integers of both widths compare as numbers,
an integer and a double as doubles, texts by code points. -/
def compare : Value → Value → Option Ordering
  | bool a, bool b => some (Ord.compare a b)
  | string a, string b => some (Ord.compare a b)
  | binary a, binary b => some (Ord.compare a b)
  | guid a, guid b => some (a.compare b)
  | dateTime a, dateTime b => some (a.compare b)
  | double a, double b => a.compare b
  | double a, b => b.integer?.bind fun n => a.compare (.ofInt n.toInt)
  | a, double b => a.integer?.bind fun n => (Binary64.ofInt n.toInt).compare b
  | a, b => do some (Ord.compare (← a.integer?).toInt (← b.integer?).toInt)

/-- Equality that sees through the width of numbers; null equals null only. Values without an order
are compared as they are. -/
def looselyEquals (a b : Value) : Bool :=
  if a.isNull || b.isNull then a.isNull && b.isNull
  else match a.compare b with
    | some o => o.isEq
    | none => a == b

/-! ### Display

Null shows nothing, bytes show as hexadecimal digits, moments with a numeric offset. -/

mutual

def display : Value → String
  | null => ""
  | bool b => if b then "true" else "false"
  | int32 n => String.ofList (Text.integer n.toInt)
  | int64 n => String.ofList (Text.integer n.toInt)
  | double x => x.toText
  | string s => s
  | binary bytes => String.ofList (Text.hexBytes bytes)
  | guid g => g.toText
  | dateTime t => String.ofList t.offsetText
  | list items => "[" ++ ", ".intercalate (displayItems items) ++ "]"
  | record members => "\x7b" ++ ", ".intercalate (displayMembers members) ++ "\x7d"

def displayItems : List Value → List String
  | [] => []
  | v :: vs => display v :: displayItems vs

def displayMembers : List (String × Value) → List String
  | [] => []
  | (name, v) :: rest => (name ++ ": " ++ display v) :: displayMembers rest

end

end Value

end TableClient
