import TableClient.Filter.Scan
import TableClient.Query.Error
import TableClient.Text.Digits
import TableClient.Value.Basic

/-! What a query compiles to: one filter, the columns asked for, a cap on the number of rows, and
the steps that finish on the client what the store cannot express. Contributions are merged into a
plan from the outermost operator inwards. -/

namespace TableClient

/-- A step on the rows that the store returned. -/
abbrev RowStep := List Value → Except QueryError (List Value)

structure Plan where
  filter : Option String
  columns : Option (List String)
  cap : Option UInt32
  /-- In the order in which they run. -/
  steps : List RowStep

namespace Plan

/-- The plan that returns the table as it is. -/
def empty : Plan := ⟨none, none, none, []⟩

/-- The filter of rows that satisfy both sides. -/
def conjoin (left right : String) : String :=
  String.ofList (Filter.groupForAnd left.toList) ++ " and " ++
    String.ofList (Filter.groupForAnd right.toList)

/-- Also requires a filter. -/
def addFilter (p : Plan) (text : String) : Except QueryError Plan :=
  let text := String.ofList (Text.trim text.toList)
  if text = "" then .error (.invalidArgument "filter text must not be empty")
  else .ok { p with filter := some (match p.filter with
    | none => text
    | some present => conjoin present text) }

def isBlankName (column : String) : Bool :=
  (Text.trim column.toList).isEmpty

/-- The columns with others after them, each in the place where it came first. -/
def appendNew (present added : List String) : List String :=
  added.foldl (fun cs c => if c ∈ cs then cs else cs ++ [c]) present

/-- Also asks for columns. The first blank name is an error; the names before it stay asked for. -/
def addColumns (p : Plan) (columns : List String) : Plan × Option QueryError :=
  let named := columns.takeWhile (!isBlankName ·)
  let plan := { p with columns := some (appendNew (p.columns.getD []) named) }
  if named.length = columns.length then (plan, none)
  else (plan, some (.invalidArgument "column name must not be empty"))

/-- Also limits the number of rows; the smallest limit counts. -/
def limit (p : Plan) (count : Int) : Except QueryError Plan :=
  let digits := String.ofList (Text.integer count)
  if count ≤ 0 then .error (.invalidArgument ("take count must be positive, got " ++ digits))
  else if UInt32.size ≤ count then
    .error (.invalidArgument ("take count " ++ digits ++ " is out of range"))
  else
    let n := UInt32.ofNat count.toNat
    .ok { p with cap := some (match p.cap with
      | none => n
      | some present => min present n) }

/-- Adds a step that runs after all others. -/
def addStep (p : Plan) (step : RowStep) : Plan :=
  { p with steps := p.steps ++ [step] }

/-- Merges what an operator further in contributes: its steps run first. -/
def absorb (p inner : Plan) : Except QueryError Plan := do
  let p ← match inner.filter with
    | some text => p.addFilter text
    | none => .ok p
  let p ← match inner.columns with
    | some columns =>
      match p.addColumns columns with
      | (p, none) => .ok p
      | (_, some e) => .error e
    | none => .ok p
  let p ← match inner.cap with
    | some n => p.limit n.toNat
    | none => .ok p
  .ok { p with steps := inner.steps ++ p.steps }

/-- Runs the steps on the rows that the store returned. -/
def finish (p : Plan) (rows : List Value) : Except QueryError (List Value) :=
  p.steps.foldlM (fun rows step => step rows) rows

/-- The cap in digits. -/
def capText? (p : Plan) : Option String :=
  p.cap.map fun n => String.ofList (Text.decimal n.toNat)

/-- The columns as one text. -/
def columnsText? (p : Plan) : Option String :=
  p.columns.map (",".intercalate ·)

/-- The parameters of the request. -/
def parameters (p : Plan) : List (String × String) :=
  [("$filter", p.filter), ("$select", p.columnsText?), ("$top", p.capText?)].filterMap fun (k, v) =>
    v.map (k, ·)

end Plan

end TableClient
