/-! What goes wrong while a record type is mapped, or a record of it converted. -/

namespace TableClient

/-- A mapping failure. The first six arise when the layout of a record type is built, the others
while records are converted. -/
inductive MappingError where
  /-- No field of the type is a key. -/
  | missingKey (typeName : String)
  /-- A field has more than one role marker. -/
  | conflictingMarkers (typeName field : String)
  /-- Two fields claim a role that only one may have. -/
  | duplicateRole (typeName role first second : String)
  /-- The declared type has no slot in the store, or not the one its role needs. -/
  | unsupportedFieldType (typeName field type : String)
  /-- The declared type cannot be written as key text. -/
  | unsupportedKeyType (typeName field type : String)
  /-- The marker of a field and the way it is read do not fit. -/
  | lensMismatch (typeName field reason : String)
  /-- The slot of a property does not fit the field. -/
  | typeMismatch (field expected found : String)
  /-- The kind of a value does not convert. -/
  | conversion (expected found : String)
  /-- A nested payload could not be encoded or decoded. -/
  | serialization (field : String)
  | invalidArgument (reason : String)
  deriving DecidableEq

namespace MappingError

def code : MappingError → String
  | missingKey _ => "TABLE_MAPPING_MISSING_KEY"
  | conflictingMarkers .. => "TABLE_MAPPING_CONFLICTING_MARKERS"
  | duplicateRole .. => "TABLE_MAPPING_DUPLICATE_ROLE"
  | unsupportedFieldType .. => "TABLE_MAPPING_UNSUPPORTED_FIELD_TYPE"
  | unsupportedKeyType .. => "TABLE_MAPPING_UNSUPPORTED_KEY_TYPE"
  | lensMismatch .. => "TABLE_MAPPING_LENS_MISMATCH"
  | typeMismatch .. => "TABLE_MAPPING_TYPE_MISMATCH"
  | conversion .. => "TABLE_MAPPING_CONVERSION"
  | serialization _ => "TABLE_MAPPING_SERIALIZATION"
  | invalidArgument _ => "TABLE_MAPPING_INVALID_ARGUMENT"

def message : MappingError → String
  | missingKey t => "Record type " ++ t ++ " defines neither a partition key nor a row key"
  | conflictingMarkers t f => "Field " ++ t ++ "." ++ f ++ " carries more than one role marker"
  | duplicateRole t role first second =>
    "Record type " ++ t ++ " maps both '" ++ first ++ "' and '" ++ second ++ "' to " ++ role
  | unsupportedFieldType t f ty => "Field " ++ t ++ "." ++ f ++ " has unsupported type " ++ ty
  | unsupportedKeyType t f ty => "Key field " ++ t ++ "." ++ f ++ " has unsupported type " ++ ty
  | lensMismatch t f reason => "Field " ++ t ++ "." ++ f ++ ": " ++ reason
  | typeMismatch f expected found =>
    "Field " ++ f ++ ": expected " ++ expected ++ " slot, found " ++ found
  | conversion expected found => "Cannot convert " ++ found ++ " value to " ++ expected
  | serialization f => "Field " ++ f ++ ": payload serialization failed"
  | invalidArgument reason => "Invalid argument: " ++ reason

/-- Whether the error is about the record type itself and not about one record. -/
def isConfiguration : MappingError → Bool
  | missingKey _ | conflictingMarkers .. | duplicateRole .. | unsupportedFieldType ..
  | unsupportedKeyType .. | lensMismatch .. => true
  | typeMismatch .. | conversion .. | serialization _ | invalidArgument _ => false

/-- Mapping is deterministic: a second try fails in the same way. -/
def isRetryable (_ : MappingError) : Bool := false

end MappingError

end TableClient
