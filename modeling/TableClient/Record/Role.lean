import TableClient.Record.Field
import TableClient.Record.Renames

/-! Roles of fields in the store. A marker decides the role; a field without one takes it from the
registered names, or from its own name where conventions apply. -/

namespace TableClient

inductive Role where
  | partitionKey
  | rowKey
  | etag
  | timestamp
  | named (column : String)
  | ignored
  | serialized (column : String)
  | regular
  deriving DecidableEq

namespace Role

def name : Role → String
  | partitionKey => "PartitionKey"
  | rowKey => "RowKey"
  | etag => "ETag"
  | timestamp => "Timestamp"
  | named _ => "Named"
  | ignored => "Ignored"
  | serialized _ => "NestedSerialized"
  | regular => "Regular"

/-- The name, and the column if the role chooses one. -/
def text : Role → String
  | named column => "Named(" ++ column ++ ")"
  | serialized column => "NestedSerialized(" ++ column ++ ")"
  | r => r.name

def ofMarker : Marker → Role
  | .partitionKey => partitionKey
  | .rowKey => rowKey
  | .etag => etag
  | .timestamp => timestamp
  | .named column => named column
  | .ignore => ignored
  | .serialized column => serialized column

/-- The role of a field that is registered under a column. -/
def ofRegistered (column : String) : Role :=
  if column = SystemColumn.partitionKey then partitionKey
  else if column = SystemColumn.rowKey then rowKey
  else named column

/-- The role of a field that has the name of a system column. -/
def ofConvention (field : String) : Role :=
  if field = SystemColumn.partitionKey then partitionKey
  else if field = SystemColumn.rowKey then rowKey
  else if field = SystemColumn.etag then etag
  else if field = SystemColumn.timestamp then timestamp
  else regular

/-- The role of a field without a marker. -/
def ofName (mapping : Option Renames) (conventions : Bool) (field : String) : Role :=
  match mapping.bind (·.get? field) with
  | some column => ofRegistered column
  | none => if conventions then ofConvention field else regular

/-- The role of a field, which may have one marker. -/
def ofField {R : Type} (typeName : String) (mapping : Option Renames) (conventions : Bool)
    (f : Field R) : Except MappingError Role :=
  match f.markers with
  | [] => .ok (ofName mapping conventions f.name)
  | [marker] => .ok (ofMarker marker)
  | _ => .error (.conflictingMarkers typeName f.name)

end Role

end TableClient
