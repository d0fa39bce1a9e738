import TableClient.Entity.Basic
import TableClient.Record.Error
import TableClient.Record.Field
import TableClient.Text.Digits
import TableClient.Value.Scalar

/-! Columns: fields of a record bound to slots of the store. What a declared type allows is decided
once, when the column is made; a column reads the property of any record and writes it back.

The store has keys of text only; identifiers and integers are written in their usual form, and null as
the empty text. -/

namespace TableClient

/-! ### Key text -/

/-- The types that a key field can have in the store. -/
inductive KeyType where
  | string | guid | int32 | int64
  deriving DecidableEq

namespace KeyType

def ofScalar? : Scalar → Option KeyType
  | .string => some string
  | .guid => some guid
  | .int32 => some int32
  | .int64 => some int64
  | _ => none

def scalar : KeyType → Scalar
  | string => .string
  | guid => .guid
  | int32 => .int32
  | int64 => .int64

/-- The key text of a value. -/
def textOf (field : String) : Value → Except MappingError String
  | .null => .ok ""
  | .string s => .ok s
  | .guid g => .ok g.toText
  | .int32 n => .ok (String.ofList (Text.integer n.toInt))
  | .int64 n => .ok (String.ofList (Text.integer n.toInt))
  | v => .error (.typeMismatch field "key" v.kind.name)

/-- The value that a key text stands for. -/
def read? (type : KeyType) (text : List Char) : Option Value :=
  match type with
  | string => some (.string (String.ofList text))
  | guid => (Guid.read? text).map .guid
  | int32 => (Text.readInt32? text).map .int32
  | int64 => (Text.readInt64? text).map .int64

/-- The value of a key text, which has to have one. -/
def read (type : KeyType) (text : String) : Except MappingError Value :=
  match type.read? text.toList with
  | some v => .ok v
  | none => .error (.conversion type.scalar.kind.name "key text")

theorem scalar_of_ofScalar? {s : Scalar} {type : KeyType} (h : ofScalar? s = some type) :
    type.scalar = s := by
  cases s <;> simp [ofScalar?] at h <;> subst h <;> rfl

end KeyType

/-! ### Columns -/

/-- How the content of a field becomes a property. -/
inductive Binding (R : Type) where
  /-- A value in a slot of its own type. -/
  | property (slot : Scalar) (nullable : Bool) (get : R → Value)
    (set : R → Value → Except MappingError R)
  /-- A value as key text. -/
  | key (type : KeyType) (get : R → Value) (set : R → Value → Except MappingError R)
  /-- A document as text. -/
  | payload (format : PayloadFormat) (get : R → Option Json.Document)
    (set : R → Json.Document → Option R)

structure Column (R : Type) where
  field : String
  name : String
  binding : Binding R

namespace Column

variable {R : Type}

/-- The slot that the column is bound to. -/
def slot (c : Column R) : Scalar :=
  match c.binding with
  | .property slot .. => slot
  | .key .. | .payload .. => .string

/-- The text of the document of a record. -/
def payloadText (field : String) (format : PayloadFormat) (get : R → Option Json.Document) (r : R) :
    Except MappingError String :=
  match (get r).bind format.encode with
  | some text => .ok text
  | none => .error (.serialization field)

/-- The property of a record. -/
def read (c : Column R) (r : R) : Except MappingError Property :=
  match c.binding with
  | .property slot _ get _ => Property.coerce c.field slot (get r)
  | .key _ get _ => (KeyType.textOf c.field (get r)).map .ofString
  | .payload format get _ => (payloadText c.field format get r).map .ofString

/-- What a row of the record has under the name of the field. -/
def row (c : Column R) (r : R) : Except MappingError Value :=
  match c.binding with
  | .property _ _ get _ | .key _ get _ => .ok (get r)
  | .payload format get _ => (payloadText c.field format get r).map .string

/-- Writes the value of a slot. An empty slot empties a nullable field, sets a moment to the start
of the first year, and leaves any other field as it is. -/
def writeValue (slot : Scalar) (nullable : Bool) (set : R → Value → Except MappingError R) (r : R)
    (v : Value) : Except MappingError R :=
  if v.isNull then
    if nullable then set r .null
    else if slot = .dateTime then set r (.dateTime .firstYear)
    else .ok r
  else set r v

/-- Reads a document from its text and writes it. -/
def writePayload (field : String) (format : PayloadFormat) (set : R → Json.Document → Option R)
    (r : R) (text : String) : Except MappingError R :=
  match (format.decode text).bind (set r) with
  | some r => .ok r
  | none => .error (.serialization field)

/-- Writes a property, or its absence, to a record. -/
def write (c : Column R) (r : R) (p : Option Property) : Except MappingError R :=
  match c.binding, p with
  | .property slot nullable _ set, none => writeValue slot nullable set r .null
  | .property slot nullable _ set, some p => do
    let p ← Property.coerce c.field slot p.value
    writeValue slot nullable set r p.value
  | .key .., none => .ok r
  | .key type _ set, some p =>
    match p.string? with
    | some text => do set r (← type.read text)
    | none => Property.mismatch c.field .string p.slot.slotName
  | .payload .., none => .ok r
  | .payload format _ set, some p =>
    if p.slot = .string then
      match p.string? with
      | some text => writePayload c.field format set r text
      | none => .ok r
    else Property.mismatch c.field .string p.slot.slotName

/-! ### Making columns -/

/-- The value lens of a field. -/
def valueLens (typeName : String) (f : Field R) :
    Except MappingError ((R → Value) × (R → Value → Except MappingError R)) :=
  match f.lens with
  | .value get set => .ok (get, set)
  | .document .. => .error (.lensMismatch typeName f.name "nested field needs a serialized marker")

/-- The column of a field that is kept in a slot of its type. -/
def ofProperty (typeName : String) (f : Field R) (name : String) :
    Except MappingError (Column R) := do
  let (get, set) ← valueLens typeName f
  match f.type.slot? with
  | some slot => .ok ⟨f.name, name, .property slot f.type.isNullable get set⟩
  | none => .error (.unsupportedFieldType typeName f.name f.type.text)

/-- The column of a field that is a key. -/
def ofKey (typeName : String) (f : Field R) (name : String) : Except MappingError (Column R) := do
  let (get, set) ← valueLens typeName f
  match f.type.slot?.bind KeyType.ofScalar? with
  | some type => .ok ⟨f.name, name, .key type get set⟩
  | none => .error (.unsupportedKeyType typeName f.name f.type.text)

/-- The column of a field that is kept as the text of its document. -/
def ofPayload (typeName : String) (f : Field R) (name : String) (format : PayloadFormat) :
    Except MappingError (Column R) :=
  match f.lens with
  | .document get set => .ok ⟨f.name, name, .payload format get set⟩
  | .value .. => .error (.lensMismatch typeName f.name "serialized marker needs a nested field")

end Column

end TableClient
