import TableClient.Record.Field
import TableClient.Value.Scalar

/-! Record types that are put together at run time. A record of such a type is a list of cells, one
for each field of its schema; fields of structured types hold payloads. -/

namespace TableClient

/-! ### Payloads -/

/-- The structured types that a field can have. -/
inductive PayloadKind where
  /-- Any document. -/
  | document
  /-- A point on the globe. -/
  | place
  /-- A list of texts. -/
  | tags
  /-- What can be neither written nor read. -/
  | sealed
  deriving DecidableEq

inductive Payload where
  | document (d : Json.Document)
  | place (latitude longitude : Binary64)
  | tags (tags : List String)
  | sealed

namespace Payload

open Json (Document)

def blank : PayloadKind → Payload
  | .document => document .null
  | .place => place ⟨0⟩ ⟨0⟩
  | .tags => tags []
  | .sealed => sealed

def ofDouble (x : Binary64) : Document :=
  if x.isFinite then .number (.double x) else .null

/-- The document of a payload. -/
def toDocument? : Payload → Option Document
  | document d => some d
  | place lat lon => some (.object [("lat", ofDouble lat), ("lon", ofDouble lon)])
  | tags ts => some (.array (ts.map .string))
  | sealed => none

def double? : Document → Option Binary64
  | .number n => some n.toDouble
  | _ => none

def string? : Document → Option String
  | .string s => some s
  | _ => none

/-- The payload of a document. A place is an object with both coordinates or the pair of them. -/
def ofDocument? : PayloadKind → Document → Option Payload
  | .document, d => some (document d)
  | .place, .object members => do
    some (place (← (Keyed.find? "lat" members).bind double?)
      (← (Keyed.find? "lon" members).bind double?))
  | .place, .array [lat, lon] => do some (place (← double? lat) (← double? lon))
  | .tags, .array items => (items.mapM string?).map tags
  | _, _ => none

end Payload

/-! ### Cells -/

inductive Cell where
  | value (v : Value)
  | payload (p : Payload)

/-- What a field of a schema holds. -/
inductive CellType where
  | value (type : FieldType)
  | payload (kind : PayloadKind)

/-- The value that a field of a type has in a new record. -/
def FieldType.blank : FieldType → Value
  | scalar .bool => .bool false
  | scalar .int32 => .int32 0
  | scalar .int64 => .int64 0
  | scalar .double => .double ⟨0⟩
  | scalar .string => .string ""
  | scalar .binary => .binary []
  | scalar .guid => .guid .zero
  | scalar .dateTime => .dateTime .epoch
  | enumeration t => t.blank
  | nullable _ | nested | other _ => .null

def CellType.blank : CellType → Cell
  | value type => .value type.blank
  | payload kind => .payload (.blank kind)

/-- The declared type of a field. -/
def CellType.type : CellType → FieldType
  | value type => type
  | payload _ => .nested

/-! ### Writing values -/

/-- The value as the storage type of a field has it; a type without a slot takes any value. -/
def FieldType.store (type : FieldType) (v : Value) : Except MappingError Value :=
  match type, type.slot? with
  | _, none => .ok v
  | nullable _, some s => v.convertToOptional s
  | _, some s => v.convertTo s

/-- The constants of an enumeration are the tiers 0, 1 and 2. -/
def FieldType.admit (type : FieldType) (v : Value) : Except MappingError Value :=
  match type, v.integer? with
  | enumeration _, some n | nullable (enumeration _), some n =>
    if 0 ≤ n.toInt ∧ n.toInt ≤ 2 then .ok v
    else .error (.invalidArgument (String.ofList (Text.integer n.toInt) ++ " is not a tier"))
  | _, _ => .ok v

/-! ### Schemas -/

structure SchemaField where
  name : String
  content : CellType
  markers : List Marker
  /-- The cell of a new record. -/
  blank : Cell

/-- The description of a record type. -/
structure Schema where
  name : String
  fields : List SchemaField

namespace Schema

abbrev Record := List Cell

def valueAt (i : Nat) (r : Record) : Value :=
  match r[i]? with
  | some (.value v) => v
  | _ => .null

def setValueAt (type : FieldType) (i : Nat) (r : Record) (v : Value) :
    Except MappingError Record := do
  .ok (r.set i (.value (← type.admit (← type.store v))))

def documentAt (i : Nat) (r : Record) : Option Json.Document :=
  match r[i]? with
  | some (.payload p) => p.toDocument?
  | _ => none

def setDocumentAt (kind : PayloadKind) (i : Nat) (r : Record) (d : Json.Document) :
    Option Record :=
  (Payload.ofDocument? kind d).map fun p => r.set i (.payload p)

/-- Access to the cell of a field at a place. -/
def lensAt (i : Nat) : CellType → Lens Record
  | .value type => .value (valueAt i) (setValueAt type i)
  | .payload kind => .document (documentAt i) (setDocumentAt kind i)

def fieldAt (i : Nat) (f : SchemaField) : Field Record :=
  ⟨f.name, f.content.type, f.markers, lensAt i f.content⟩

/-- The record type that a schema describes. -/
def recordType (s : Schema) : RecordType Record :=
  ⟨s.name, s.fields.mapIdx fieldAt, s.fields.map SchemaField.blank⟩

end Schema

end TableClient
