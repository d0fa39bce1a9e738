import TableClient.Filter.Condition
import TableClient.Query.Translator

/-! What query chains mean. A chain is run on rows by its operators one after another, from the
source outwards. A plan is run by the store and the client together: the store returns the rows that
the filter accepts, up to the cap, and the client takes the steps. -/

namespace TableClient

/-- The rows that a predicate is true of; it has to be true or false of every row. -/
def Lambda.select (predicate : Lambda) : List Value → Except QueryError (List Value)
  | [] => .ok []
  | row :: rows => do
    let kept ← (← predicate.apply row).toCondition
    let rest ← predicate.select rows
    .ok (if kept then row :: rest else rest)

/-- The number of rows that a cap leaves. -/
def Expr.capCount (count : Expr) : Except QueryError Nat := do
  let v ← count.fold
  match v.integer? with
  | some n => .ok n.toInt.toNat
  | none => .error (.invalidArgument ("Take count must be an integer, got " ++ v.kind.name))

/-- Runs one operator on the rows of the query it extends. -/
def Call.run (c : Call) (rows : List Value) : Except QueryError (List Value) :=
  match c.method.queryOperator? with
  | some "Where" => do (← c.lambdaOperand 1).select rows
  | some "Select" => do RowStep.map (← c.lambdaOperand 1) rows
  | some "Take" => do .ok (rows.take (← (← c.operand 1).capCount))
  | some name =>
    match Keyed.find? name ElementContract.operators with
    | some contract => do
      let rows ← if 1 < c.args.length then (← c.lambdaOperand 1).select rows else .ok rows
      RowStep.element contract rows
    | none => .error (.unsupportedOperator name)
  | none => .error (.unsupportedOperator c.method.name)

/-- Runs a chain on the rows of its source. -/
def Expr.runChain (rows : List Value) : Expr → Except QueryError (List Value)
  | .source _ => .ok rows
  | .call method receiver (query :: operands) => do
    Call.run ⟨method, receiver, query :: operands⟩ (← runChain rows query)
  | e => .error (.unsupportedConstruct (e.kindName ++ " node in a query chain"))

namespace Plan

/-- The rows that the store returns: of those that the filter accepts, as many as the cap allows. -/
def fetch (p : Plan) (rows : List Value) : List Value :=
  let accepted := match p.filter with
    | some text => rows.filter (Filter.accepts text)
    | none => rows
  match p.cap with
  | some n => accepted.take n.toNat
  | none => accepted

/-- Runs a plan on the rows of a table. -/
def run (p : Plan) (rows : List Value) : Except QueryError (List Value) :=
  p.finish (p.fetch rows)

end Plan

end TableClient
