import TableClient.Value.Scalar

/-! Stored entities, and the operations on them that the store performs. A property of an entity is a value
in a slot of some scalar type; a slot can be empty and still have its type. -/

namespace TableClient

/-! ### Properties -/

structure Property where
  slot : Scalar
  value : Value
  fits : value.isNull ∨ value.kind = slot.kind

namespace Property

/-- The empty slot of a type. -/
def null (slot : Scalar) : Property := ⟨slot, .null, .inl rfl⟩

/-- A value in a slot, if it is null or of the slot's kind. -/
def ofValue? (slot : Scalar) (v : Value) : Option Property :=
  if h : v.isNull ∨ v.kind = slot.kind then some ⟨slot, v, h⟩ else none

def ofString (s : String) : Property := ⟨.string, .string s, .inr rfl⟩

def ofInstant (t : Instant) : Property := ⟨.dateTime, .dateTime t, .inr rfl⟩

def isNull (p : Property) : Bool := p.value.isNull

def string? (p : Property) : Option String := p.value.string?

/-- Same slot and same content. -/
instance : BEq Property := ⟨fun p q => p.slot == q.slot && p.value == q.value⟩

def mismatch {α : Type} (field : String) (slot : Scalar) (found : String) : Except MappingError α :=
  .error (.typeMismatch field slot.slotName found)

/-- A value put into a slot. Integer slots take whole numbers that fit, the double slot takes
integers; otherwise the kind has to be the slot's. -/
def coerce (field : String) (slot : Scalar) (v : Value) : Except MappingError Property :=
  match slot, v with
  | .int32, .int64 n =>
    match narrow? n with
    | some m => .ok ⟨.int32, .int32 m, .inr rfl⟩
    | none => mismatch field .int32 "out-of-range int64"
  | .int32, .double x =>
    match x.toInt64? with
    | none => mismatch field .int32 "fractional double"
    | some n =>
      match narrow? n with
      | some m => .ok ⟨.int32, .int32 m, .inr rfl⟩
      | none => mismatch field .int32 "out-of-range double"
  | .int64, .int32 n => .ok ⟨.int64, .int64 n.toInt64, .inr rfl⟩
  | .int64, .double x =>
    match x.toInt64? with
    | some n => .ok ⟨.int64, .int64 n, .inr rfl⟩
    | none => mismatch field .int64 "fractional double"
  | .double, .int32 n => .ok ⟨.double, .double (.ofInt n.toInt), .inr rfl⟩
  | .double, .int64 n => .ok ⟨.double, .double (.ofInt n.toInt), .inr rfl⟩
  | slot, v =>
    if h : v.isNull ∨ v.kind = slot.kind then .ok ⟨slot, v, h⟩
    else mismatch field slot v.kind.name

end Property

/-! ### Entities -/

/-- A row of the store: two keys, what the store says about it, and its properties, a table in the
sense of `Keyed`. -/
structure Entity where
  partitionKey : String
  rowKey : String
  etag : Option String
  timestamp : Option Instant
  properties : List (String × Property)

namespace Entity

/-- The entity with given keys and nothing else. -/
def ofKeys (partitionKey rowKey : String) : Entity :=
  ⟨partitionKey, rowKey, none, none, []⟩

def insert (e : Entity) (name : String) (p : Property) : Entity :=
  { e with properties := Keyed.insert name p e.properties }

def property? (e : Entity) (name : String) : Option Property :=
  Keyed.find? name e.properties

/-- What a filter sees of an entity: the keys and the etag as texts, the properties by value. -/
def columns (e : Entity) : Value :=
  .ofMembers (e.properties.map (fun (name, p) => (name, p.value)) ++
    [("PartitionKey", .string e.partitionKey), ("RowKey", .string e.rowKey)] ++
    (e.etag.map fun t => ("ETag", Value.string t)).toList)

end Entity

/-- The operations that write an entity. -/
inductive Write where
  | insert | insertOrReplace | insertOrMerge | replace | merge | delete
  deriving DecidableEq

def Write.name : Write → String
  | insert => "Insert"
  | insertOrReplace => "InsertOrReplace"
  | insertOrMerge => "InsertOrMerge"
  | replace => "Replace"
  | merge => "Merge"
  | delete => "Delete"

/-- One operation against the store. -/
inductive Operation where
  | write (kind : Write) (entity : Entity)
  | retrieve (partitionKey rowKey : String)

namespace Operation

def name : Operation → String
  | write kind _ => kind.name
  | retrieve .. => "Retrieve"

def partitionKey : Operation → String
  | write _ e => e.partitionKey
  | retrieve p _ => p

def rowKey : Operation → String
  | write _ e => e.rowKey
  | retrieve _ r => r

/-- The entity that is written. -/
def entity? : Operation → Option Entity
  | write _ e => some e
  | retrieve .. => none

end Operation

end TableClient
