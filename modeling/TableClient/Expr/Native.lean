import TableClient.Entity.Basic
import TableClient.Query.Translator
import TableClient.Record.Field

/-! What a host program brings of its own: functions that its expressions capture, a translator beside
those of the library, steps on rows, a format of payloads, and ways to make operations of entities. No
other definition of the library depends on these. -/

namespace TableClient

/-! ### Functions -/

namespace NativeMethod

/-- The receiver, a text, with its ASCII letters in upper case. -/
def upper : NativeMethod where
  name := "Upper"
  invoke
    | some (.string s), _ => .ok (.string (s.map Char.toUpper))
    | _, _ => .error "not a string"

/-- The number of arguments. -/
def count : NativeMethod where
  name := "Count"
  invoke _ args := .ok (.int32 (Int32.ofNat args.length))

/-- The receiver, if any, and the arguments as one list. -/
def pack : NativeMethod where
  name := "Pack"
  invoke receiver args := .ok (.list (receiver.toList ++ args))

/-- Fails with the display text of the first argument. -/
def fail : NativeMethod where
  name := "Fail"
  invoke _ args := .error ((args.head?.map Value.display).getD "boom")

def all : List NativeMethod :=
  [upper, count, pack, fail]

def ofName? (name : String) : Option NativeMethod :=
  all.find? (·.name == name)

end NativeMethod

/-! ### Translators and steps -/

namespace Translator

/-- Accepts `OrderBy` and `Where` and requires the filter that says how many arguments the call
has. -/
def custom : Translator where
  operators := ["OrderBy", "Where"]
  translate call _ :=
    Plan.empty.addFilter ("Custom eq " ++ String.ofList (Text.decimal call.args.length))

/-- The translators by name. -/
def ofName? : String → Option Translator
  | "Filter" => some filter
  | "Projection" => some projection
  | "Limit" => some cap
  | "Element" => some element
  | "Custom" => some custom
  | _ => none

end Translator

namespace RowStep

/-- Appends a row. -/
def append (row : Value) : RowStep :=
  fun rows => .ok (rows ++ [row])

/-- Appends a row, but fails on no rows. -/
def appendToSome (row : Value) : RowStep :=
  fun rows => if rows.isEmpty then .error .noElements else .ok (rows ++ [row])

end RowStep

/-! ### Payloads and operations -/

/-- The JSON text after the mark of the first version. -/
def PayloadFormat.versioned : PayloadFormat where
  encode d := some ("v1:" ++ d.render)
  decode text := (Text.dropLead "v1:".toList text.toList).bind fun rest =>
    Json.Document.read? (String.ofList rest)

def Write.all : List Write :=
  [insert, insertOrReplace, insertOrMerge, replace, merge, delete]

/-- Ways to make an operation of an entity: the writes, a retrieval by its keys, and a retrieval
with the two keys swapped. -/
def Operation.maker? (name : String) : Option (Entity → Operation) :=
  if name = "Retrieve" then some fun e => retrieve e.partitionKey e.rowKey
  else if name = "RetrieveSwapped" then some fun e => retrieve e.rowKey e.partitionKey
  else (Write.all.find? (·.name == name)).map write

end TableClient
