import TableClient.Json.Decode
import TableClient.Record.Error
import TableClient.Text.Digits

/-! The cap on the number of operations in one group, and what goes wrong while operations are
grouped. The store accepts at most a hundred at once. -/

namespace TableClient

inductive BatchError where
  /-- The cap is zero or more than the store accepts. -/
  | invalidCap (cap : Nat)
  /-- A record has no entity. -/
  | mapping (error : MappingError)
  deriving DecidableEq

namespace BatchError

def code : BatchError → String
  | invalidCap _ => "TABLE_BATCH_INVALID_SIZE"
  | mapping e => e.code

def message : BatchError → String
  | invalidCap cap => "Batch size " ++ String.ofList (Text.decimal cap) ++ " is outside 1..=100"
  | mapping e => e.message

/-- Grouping is deterministic: a second try fails in the same way. -/
def isRetryable (_ : BatchError) : Bool := false

end BatchError

structure BatchConfig where
  /-- The largest number of operations in one group. -/
  cap : Nat
  deriving DecidableEq

namespace BatchConfig

/-- The number of operations that the store accepts at once. -/
def storeCap : Nat := 100

def standard : BatchConfig := ⟨storeCap⟩

abbrev IsValid (config : BatchConfig) : Prop :=
  1 ≤ config.cap ∧ config.cap ≤ storeCap

def validate (config : BatchConfig) : Except BatchError Unit :=
  if config.IsValid then .ok () else .error (.invalidCap config.cap)

/-- Decodes a configuration; what is missing is as in the standard one. -/
def decode? (t : Json.Tree) : Option BatchConfig := do
  match ← t.fields? ["max_operations"] with
  | [some cap] => some ⟨(← cap.integerIn? 0 (UInt64.size - 1)).toNat⟩
  | _ => some standard

/-- The configuration of a JSON text. -/
def read? (text : String) : Option BatchConfig :=
  (Json.Tree.read? text).bind decode?

end BatchConfig

end TableClient
