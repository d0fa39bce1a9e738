import TableClient.Record.Error
import TableClient.Value.Basic

/-! Scalar types: the types of simple fields of a record, and of the slots in which the store keeps
values. -/

namespace TableClient

inductive Scalar where
  | bool | int32 | int64 | double | string | binary | guid | dateTime
  deriving DecidableEq

/-- The kind of value that a scalar type holds. -/
def Scalar.kind : Scalar → ValueKind
  | bool => .bool
  | int32 => .int32
  | int64 => .int64
  | double => .double
  | string => .string
  | binary => .binary
  | guid => .guid
  | dateTime => .dateTime

/-- The name of the slot for values of a scalar type. -/
def Scalar.slotName : Scalar → String
  | bool => "boolean"
  | s => s.kind.name

/-- The name of the slot in the JSON form of an entity. -/
def Scalar.tag : Scalar → String
  | bool => "Boolean"
  | int32 => "Int32"
  | int64 => "Int64"
  | double => "Double"
  | string => "String"
  | binary => "Binary"
  | guid => "Guid"
  | dateTime => "DateTime"

def Scalar.all : List Scalar :=
  [string, binary, bool, int32, int64, double, guid, dateTime]

def Scalar.ofSlotName? (name : String) : Option Scalar :=
  all.find? (·.slotName == name)

def Scalar.ofTag? (tag : String) : Option Scalar :=
  all.find? (·.tag == tag)

/-! ### Conversion

Integers convert to both widths where they fit, and a narrow integer to a double; nothing else changes
kind. -/

/-- The integer as a 32-bit word, if it fits. -/
def narrow? (n : Int64) : Option Int32 :=
  if Int32.minValue.toInt ≤ n.toInt ∧ n.toInt ≤ Int32.maxValue.toInt then some n.toInt32 else none

namespace Value

/-- The value as one of the given type. -/
def convertTo (target : Scalar) (v : Value) : Except MappingError Value :=
  match target, v with
  | .int32, int64 n =>
    match narrow? n with
    | some m => .ok (int32 m)
    | none => .error (.conversion "int32" "out-of-range int64")
  | .int64, int32 n => .ok (int64 n.toInt64)
  | .double, int32 n => .ok (double (.ofInt n.toInt))
  | target, v =>
    if v.kind = target.kind then .ok v else .error (.conversion target.kind.name v.kind.name)

/-- The value as one of the given type, where null is a value of it too. -/
def convertToOptional (target : Scalar) (v : Value) : Except MappingError Value :=
  if v.isNull then .ok null else v.convertTo target

end Value

end TableClient
