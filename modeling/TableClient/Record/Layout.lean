import TableClient.Entity.Basic
import TableClient.Record.Column
import TableClient.Record.Role

/-! The layout of a record type: the role of every field and the columns of those that are kept. It
is built once from the declaration, and then turns records into entities and back, and into rows. -/

namespace TableClient

/-- Settings that all layouts of one cache share. -/
structure LayoutConfig where
  /-- The texts of structured fields. -/
  format : PayloadFormat
  /-- Whether fields take roles from their own names where nothing else says which are the keys. -/
  conventions : Bool

def LayoutConfig.standard : LayoutConfig := ⟨.json, true⟩

structure Layout (R : Type) where
  type : RecordType R
  partitionKey : Option (Column R)
  rowKey : Option (Column R)
  etag : Option (Column R)
  timestamp : Option (Column R)
  /-- All other columns, in the order of declaration. -/
  properties : List (Column R)
  /-- Every field with its role, in the order of declaration. -/
  roles : List (String × Role)
  /-- The columns of fields that have one of another name. -/
  renames : Renames

namespace Layout

variable {R : Type}

/-- The layout of no fields. -/
def start (type : RecordType R) : Layout R :=
  ⟨type, none, none, none, none, [], [], .empty⟩

/-! ### Building -/

/-- Records the column of a field, where it is not the field's own name. -/
def rename (l : Layout R) (field column : String) : Except MappingError (Layout R) :=
  if field = column then .ok l
  else do .ok { l with renames := ← l.renames.insert field column }

/-- Fails if a role is taken. -/
def requireFree (l : Layout R) (role : String) (held : Option (Column R)) (c : Column R) :
    Except MappingError Unit :=
  match held with
  | some first => .error (.duplicateRole l.type.name role first.field c.field)
  | none => .ok ()

/-- Fails if the declared type of a field has another slot. -/
def requireSlot (l : Layout R) (f : Field R) (slot : Scalar) : Except MappingError Unit :=
  if f.type.slot? = some slot then .ok ()
  else .error (.unsupportedFieldType l.type.name f.name f.type.text)

/-- Makes the column of a field in a role. -/
def install (l : Layout R) (format : PayloadFormat) (f : Field R) :
    Role → Except MappingError (Layout R)
  | .partitionKey => do
    let c ← Column.ofKey l.type.name f SystemColumn.partitionKey
    l.requireFree SystemColumn.partitionKey l.partitionKey c
    { l with partitionKey := some c }.rename f.name SystemColumn.partitionKey
  | .rowKey => do
    let c ← Column.ofKey l.type.name f SystemColumn.rowKey
    l.requireFree SystemColumn.rowKey l.rowKey c
    { l with rowKey := some c }.rename f.name SystemColumn.rowKey
  | .etag => do
    l.requireSlot f .string
    let c ← Column.ofProperty l.type.name f SystemColumn.etag
    l.requireFree SystemColumn.etag l.etag c
    { l with etag := some c }.rename f.name SystemColumn.etag
  | .timestamp => do
    l.requireSlot f .dateTime
    let c ← Column.ofProperty l.type.name f SystemColumn.timestamp
    l.requireFree SystemColumn.timestamp l.timestamp c
    { l with timestamp := some c }.rename f.name SystemColumn.timestamp
  | .named column => do
    let c ← Column.ofProperty l.type.name f column
    { l with properties := l.properties ++ [c] }.rename f.name column
  | .serialized column => do
    let c ← Column.ofPayload l.type.name f column format
    { l with properties := l.properties ++ [c] }.rename f.name column
  | .regular => do
    let c ← Column.ofProperty l.type.name f f.name
    .ok { l with properties := l.properties ++ [c] }
  | .ignored => .ok l

/-- Adds a field to the layout of the fields before it. -/
def addField (mapping : Option Renames) (conventions : Bool) (format : PayloadFormat) (l : Layout R)
    (f : Field R) : Except MappingError (Layout R) := do
  let role ← Role.ofField l.type.name mapping conventions f
  let l ← l.install format f role
  .ok { l with roles := l.roles ++ [(f.name, role)] }

/-- Whether a field is marked as one of the keys. -/
def marksKey (f : Field R) : Bool :=
  f.markers.any fun m => m = .partitionKey || m = .rowKey

/-- Names of fields decide roles only if nothing is registered and no key is marked. -/
def usesConventions (config : LayoutConfig) (mapping : Option Renames) (type : RecordType R) :
    Bool :=
  config.conventions && mapping.isNone && !type.fields.any marksKey

/-- The layout of a record type under registered names. There has to be a key. -/
def build (config : LayoutConfig) (mapping : Option Renames) (type : RecordType R) :
    Except MappingError (Layout R) := do
  let conventions := usesConventions config mapping type
  let l ← type.fields.foldlM (addField mapping conventions config.format) (start type)
  if l.partitionKey.isNone && l.rowKey.isNone then .error (.missingKey type.name)
  else .ok l

/-! ### Looking up -/

/-- All columns, the system columns first. -/
def columns (l : Layout R) : List (Column R) :=
  l.partitionKey.toList ++ l.rowKey.toList ++ l.etag.toList ++ l.timestamp.toList ++ l.properties

/-- The role of the first field of a name. -/
def roleOf? (l : Layout R) (field : String) : Option Role :=
  (l.roles.find? (·.1 = field)).map Prod.snd

/-! ### Entities -/

/-- The text of a key, empty where no field is that key. -/
def keyText (key : Option (Column R)) (r : R) : Except MappingError String :=
  match key with
  | some c => do .ok ((← c.read r).string?.getD "")
  | none => .ok ""

/-- The entity tag of a record. -/
def etagOf (l : Layout R) (r : R) : Except MappingError (Option String) :=
  match l.etag with
  | some c => do .ok (← c.read r).string?
  | none => .ok none

/-- The entity of a record. The timestamp is the store's own and is not written. -/
def toEntity (l : Layout R) (r : R) : Except MappingError Entity := do
  let e := Entity.ofKeys (← keyText l.partitionKey r) (← keyText l.rowKey r)
  let e := { e with etag := ← l.etagOf r }
  l.properties.foldlM (fun e c => do .ok (e.insert c.name (← c.read r))) e

/-- Writes a property through a column, if there is one. -/
def writeTo (column : Option (Column R)) (p : Option Property) (r : R) : Except MappingError R :=
  match column with
  | some c => c.write r p
  | none => .ok r

/-- The record of an entity, from the blank one on. -/
def fromEntity (l : Layout R) (e : Entity) : Except MappingError R := do
  let r ← writeTo l.partitionKey (some (.ofString e.partitionKey)) l.type.blank
  let r ← writeTo l.rowKey (some (.ofString e.rowKey)) r
  let r ← writeTo l.etag (e.etag.map .ofString) r
  let r ← writeTo l.timestamp (e.timestamp.map .ofInstant) r
  l.properties.foldlM (fun r c => c.write r (e.property? c.name)) r

/-- The row of a record: its columns by the names of their fields. -/
def toRow (l : Layout R) (r : R) : Except MappingError Value := do
  .ok (.ofMembers (← l.columns.mapM fun c => do .ok (c.field, ← c.row r)))

/-- The row of an entity. -/
def entityToRow (l : Layout R) (e : Entity) : Except MappingError Value := do
  l.toRow (← l.fromEntity e)

end Layout

end TableClient
