import TableClient.Entity.Basic
import TableClient.Filter.Literal
import TableClient.Json.Decode

/-! The JSON form of entities. A property is written with the tag of its slot and its value, an
empty slot with null, bytes as numbers, identifiers and moments as texts. -/

namespace TableClient

open Json (Tree)

namespace Property

/-- Decodes the value of a slot. -/
def decodeValue? (slot : Scalar) (t : Tree) : Option Value :=
  match slot with
  | .string => t.text?.map .string
  | .binary => do
    let bytes ← (← t.items?).mapM (Tree.integerIn? 0 255)
    some (.binary (bytes.map fun n => UInt8.ofNat n.toNat))
  | .bool => t.bool?.map .bool
  | .int32 =>
    (t.integerIn? Int32.minValue.toInt Int32.maxValue.toInt).map fun n => .int32 (Int32.ofInt n)
  | .int64 =>
    (t.integerIn? Int64.minValue.toInt Int64.maxValue.toInt).map fun n => .int64 (Int64.ofInt n)
  | .double => t.double?.map .double
  | .guid => t.text?.bind fun s => (Guid.read? s.toList).map .guid
  | .dateTime => t.text?.bind fun s => (Instant.readLenient? s.toList).map .dateTime

/-- Decodes a property. In an object the value may be missing, which leaves the slot empty; an array
has to have both parts. -/
def decode? (t : Tree) : Option Property := do
  let (tag, value) ← match t with
    | .object _ => do
      match ← t.fields? ["type", "value"] with
      | [some tag, value] => some (tag, value.getD .null)
      | _ => none
    | .array [tag, value] => some (tag, value)
    | _ => none
  let slot ← (← tag.constant?) |> Scalar.ofTag?
  match value with
  | .null => some (.null slot)
  | value => (decodeValue? slot value).bind (ofValue? slot)

/-- The JSON text of a value in a slot. -/
def valueText : Value → List Char
  | .bool b => if b then "true".toList else "false".toList
  | .int32 n => Text.integer n.toInt
  | .int64 n => Text.integer n.toInt
  | .double x => Json.doubleText x
  | .string s => Json.quoted s
  | .binary bytes => Json.arrayText (bytes.map fun b => Text.decimal b.toNat)
  | .guid g => Json.quoted g.toText
  | .dateTime t => Json.quoted (String.ofList t.zuluText)
  | _ => "null".toList

/-- The JSON text of a property. -/
def chars (p : Property) : List Char :=
  Json.objectText
    [Json.memberText "type" (Json.quoted p.slot.tag), Json.memberText "value" (valueText p.value)]

end Property

namespace Entity

/-- The JSON text of an entity. What the store has not said is left out. -/
def render (e : Entity) : String :=
  let etag := e.etag.map fun t => Json.memberText "etag" (Json.quoted t)
  let timestamp := e.timestamp.map fun t =>
    Json.memberText "timestamp" (Json.quoted (String.ofList t.zuluText))
  let properties := e.properties.map fun (name, p) => Json.memberText name p.chars
  String.ofList (Json.objectText
    ([Json.memberText "partition_key" (Json.quoted e.partitionKey),
      Json.memberText "row_key" (Json.quoted e.rowKey)] ++ etag.toList ++ timestamp.toList ++
      [Json.memberText "properties" (Json.objectText properties)]))

/-- Decodes the properties; of two with one name the later one stays. -/
def decodeProperties? : Tree → Option (List (String × Property))
  | .object members => do
    let members ← Tree.namedMembers? members
    let properties ← members.mapM fun (name, t) => (Property.decode? t).map (name, ·)
    some (Keyed.ofList properties)
  | _ => none

def decodeMoment? (t : Tree) : Option Instant :=
  t.text?.bind fun s => Instant.readLenient? s.toList

/-- Decodes an entity. The keys have to be there; all else may be missing. -/
def decode? (t : Tree) : Option Entity := do
  match ← t.fields? ["partition_key", "row_key", "etag", "timestamp", "properties"] with
  | [some partitionKey, some rowKey, etag, timestamp, properties] =>
    some {
      partitionKey := ← partitionKey.text?
      rowKey := ← rowKey.text?
      etag := ← Tree.orNull Tree.text? (etag.getD .null)
      timestamp := ← Tree.orNull decodeMoment? (timestamp.getD .null)
      properties := ← decodeProperties? (properties.getD (.object [])) }
  | _ => none

/-- The entity of a JSON text. -/
def read? (text : String) : Option Entity :=
  (Tree.read? text).bind decode?

end Entity

end TableClient
