import TableClient.Keyed
import TableClient.Record.Error

/-! Names of fields and the names their columns have in the store. A field without an entry has a
column of its own name. At most one field is renamed to each of the two key columns. -/

namespace TableClient

/-! Columns that the store itself defines. -/

namespace SystemColumn

def partitionKey : String := "PartitionKey"
def rowKey : String := "RowKey"
def timestamp : String := "Timestamp"
def etag : String := "ETag"

def isKey (column : String) : Bool :=
  column = partitionKey || column = rowKey

theorem isKey_iff {column : String} : isKey column ↔ column = "PartitionKey" ∨ column = "RowKey" := by
  rw [isKey, Bool.or_eq_true, decide_eq_true_eq, decide_eq_true_eq, partitionKey, rowKey]

end SystemColumn

/-- A table from field names to column names. -/
structure Renames where
  table : List (String × String)
  deriving DecidableEq

namespace Renames

def empty : Renames := ⟨[]⟩

def isEmpty (r : Renames) : Bool := r.table.isEmpty

/-- The column that a field is renamed to. -/
def get? (r : Renames) (field : String) : Option String :=
  Keyed.find? field r.table

/-- The column of a field. -/
def column (r : Renames) (field : String) : String :=
  (r.get? field).getD field

/-- The first field, by name, that is renamed to a column. -/
def fieldFor? (r : Renames) (column : String) : Option String :=
  Keyed.nameFor? (· == column) r.table

/-- Renames a field, in place of any earlier rename of it. A key column that another field holds is
refused. -/
def insert (r : Renames) (field column : String) : Except MappingError Renames :=
  if field = "" ∨ column = "" then .error (.invalidArgument "rename with an empty name")
  else
    match (if SystemColumn.isKey column then r.fieldFor? column else none) with
    | some holder =>
      if holder = field then .ok ⟨Keyed.insert field column r.table⟩
      else .error (.invalidArgument
        ("both '" ++ holder ++ "' and '" ++ field ++ "' map to " ++ column))
    | none => .ok ⟨Keyed.insert field column r.table⟩

/-- The table of renames made one after another. -/
def ofList (pairs : List (String × String)) : Except MappingError Renames :=
  pairs.foldlM (fun r p => r.insert p.1 p.2) empty

/-! ### Runs of calls

A table that is changed call after call. A call can be refused, and later calls go on with the table that
it left. -/

/-- A call that renames a field. -/
inductive Call where
  /-- Renames the field in the table itself. -/
  | insert (field column : String)
  /-- Asks for a table with this rename as well. If there is one, it takes the place of the table. -/
  | extend (field column : String)
  deriving DecidableEq

namespace Call

def field : Call → String
  | insert field _ | extend field _ => field

def column : Call → String
  | insert _ column | extend _ column => column

end Call

/-- Renames a field in the table itself, unless the rename is refused. -/
def insertInPlace (r : Renames) (field column : String) : Renames × Option MappingError :=
  if field = "" ∨ column = "" then (r, some (.invalidArgument "rename with an empty name"))
  else
    match (if SystemColumn.isKey column then r.fieldFor? column else none) with
    | some holder =>
      if holder = field then (⟨Keyed.insert field column r.table⟩, none)
      else (r, some (.invalidArgument
        ("both '" ++ holder ++ "' and '" ++ field ++ "' map to " ++ column)))
    | none => (⟨Keyed.insert field column r.table⟩, none)

/-- The table after a call, and how the call failed. -/
def call (r : Renames) : Call → Renames × Option MappingError
  | .insert field column => r.insertInPlace field column
  | .extend field column =>
    match r.insert field column with
    | .ok extended => (extended, none)
    | .error e => (r, some e)

/-- The table after calls. -/
def after (r : Renames) (calls : List Call) : Renames :=
  calls.foldl (fun r c => (r.call c).1) r

/-- Calls, one after another, and how each of them failed. -/
def replies (r : Renames) : List Call → List (Call × Option MappingError)
  | [] => []
  | c :: calls => (c, (r.call c).2) :: (r.call c).1.replies calls

/-- The column of the last call that renamed a field and did not fail. -/
def lastColumn? (field : String) (replies : List (Call × Option MappingError)) : Option String :=
  (replies.findRev? fun reply => reply.2.isNone && reply.1.field = field).map (·.1.column)

end Renames

end TableClient
