import TableClient.Json.Document
import TableClient.Value.Scalar

/-! Declarations of record types. A field has a name, a declared type, markers for its role, and a
lens through which it is read and written on a record. The declared type tells the slot in which the
store keeps the values; structured fields are kept as texts of their documents. -/

namespace TableClient

/-! ### Declared types -/

inductive FieldType where
  | scalar (s : Scalar)
  | nullable (inner : FieldType)
  /-- Named constants, kept as the integers of another type. -/
  | enumeration (underlying : FieldType)
  /-- A structure, kept as the text of a document. -/
  | nested
  /-- A type that the store has no place for. -/
  | other (name : String)
  deriving DecidableEq

namespace FieldType

def text : FieldType → String
  | scalar s => s.kind.name
  | nullable t => t.text ++ "?"
  | enumeration t => "enum(" ++ t.text ++ ")"
  | nested => "nested"
  | other name => name

def isNullable : FieldType → Bool
  | nullable _ => true
  | _ => false

/-- The type as the store sees it, without null and with integers for constants. -/
def storage : FieldType → FieldType
  | nullable t => t.storage
  | enumeration t => t.storage
  | t => t

/-- The slot for values of a type. -/
def slot? (t : FieldType) : Option Scalar :=
  match t.storage with
  | scalar s => some s
  | _ => none

end FieldType

/-! ### Texts of documents -/

/-- How documents are written as texts and read back. Both ways may fail. -/
structure PayloadFormat where
  encode : Json.Document → Option String
  decode : String → Option Json.Document

namespace PayloadFormat

/-- The JSON text without spaces. -/
def json : PayloadFormat where
  encode d := some d.render
  decode text := Json.Document.read? text

end PayloadFormat

/-! ### Fields -/

/-- A mark for the role of a field. -/
inductive Marker where
  | partitionKey
  | rowKey
  | etag
  | timestamp
  /-- Kept in a column of another name. -/
  | named (column : String)
  /-- Not kept at all. -/
  | ignore
  /-- Kept as the text of its document, in a column of this name. -/
  | serialized (column : String)
  deriving DecidableEq

/-- Access to one field of a record: as a value, or as a document where the field is structured.
Writing returns the changed record. -/
inductive Lens (R : Type) where
  | value (get : R → Value) (set : R → Value → Except MappingError R)
  | document (get : R → Option Json.Document) (set : R → Json.Document → Option R)

structure Field (R : Type) where
  name : String
  type : FieldType
  markers : List Marker
  lens : Lens R

/-- A type of records: its name for messages, its fields, and the record that all reading starts
from. -/
structure RecordType (R : Type) where
  name : String
  fields : List (Field R)
  blank : R

end TableClient
