import TableClient.Filter.Predicate
import TableClient.Query.Plan

/-! Translators of query operators. Each accepts a few operator names and turns a call of one of
them, without regard to the query it extends, into a plan. -/

namespace TableClient

structure Translator where
  operators : List String
  translate : Call → Renames → Except QueryError Plan

namespace Call

/-- The argument at a place. -/
def operand (c : Call) (index : Nat) : Except QueryError Expr :=
  match c.args[index]? with
  | some e => .ok e
  | none => .error (.invalidArgument
      (c.method.name ++ " is missing operand " ++ String.ofList (Text.decimal index)))

/-- The argument at a place, which has to be a lambda. -/
def lambdaOperand (c : Call) (index : Nat) : Except QueryError Lambda := do
  match (← c.operand index).lambda? with
  | some f => .ok f
  | none => .error (.unsupportedConstruct
      (c.method.name ++ " operand " ++ String.ofList (Text.decimal index) ++ " is not a lambda"))

end Call

/-- Also requires a predicate. One that puts no constraint adds no filter. -/
def Plan.require (p : Plan) (predicate : Lambda) (renames : Renames) : Except QueryError Plan := do
  let text ← predicate.toFilter renames
  let text := String.ofList (Filter.stripOuter text.toList)
  if text = "" then .ok p else p.addFilter text

mutual

/-- The members that an expression reads off the row, after those already found, and whether the
row occurs in no other way. -/
def Expr.rowMembers (param : String) (found : List String) : Expr → List String × Bool
  | .member (.parameter p) name =>
    if p = param then (if name ∈ found then found else found ++ [name], true) else (found, true)
  | .parameter p => (found, p ≠ param)
  | .constant _ => (found, true)
  | .source _ => (found, true)
  | .member target _ => target.rowMembers param found
  | .not operand => operand.rowMembers param found
  | .binary _ left right =>
    let (found, l) := left.rowMembers param found
    let (found, r) := right.rowMembers param found
    (found, l && r)
  | .call _ receiver args =>
    let (found, r) := Expr.rowMembersReceiver param found receiver
    let (found, as) := Expr.rowMembersAll param found args
    (found, r && as)
  | .newArray _ items => Expr.rowMembersAll param found items
  | .new members => Expr.rowMembersNamed param found members
  | .lambda _ body => body.rowMembers param found

def Expr.rowMembersReceiver (param : String) (found : List String) :
    Option Expr → List String × Bool
  | none => (found, true)
  | some e => e.rowMembers param found

def Expr.rowMembersAll (param : String) (found : List String) : List Expr → List String × Bool
  | [] => (found, true)
  | e :: es =>
    let (found, b) := e.rowMembers param found
    let (found, bs) := Expr.rowMembersAll param found es
    (found, b && bs)

def Expr.rowMembersNamed (param : String) (found : List String) :
    List (String × Expr) → List String × Bool
  | [] => (found, true)
  | (_, e) :: rest =>
    let (found, b) := e.rowMembers param found
    let (found, bs) := Expr.rowMembersNamed param found rest
    (found, b && bs)

end

/-- Maps a lambda over the rows. -/
def RowStep.map (f : Lambda) : RowStep :=
  fun rows => rows.mapM f.apply

/-- What an element operator promises about the number of rows. -/
structure ElementContract where
  /-- Takes the first row; otherwise the row has to be the only one. -/
  first : Bool
  /-- Gives null for no rows. -/
  orDefault : Bool
  deriving DecidableEq

def ElementContract.operators : List (String × ElementContract) :=
  [("First", ⟨true, false⟩), ("FirstOrDefault", ⟨true, true⟩),
   ("Single", ⟨false, false⟩), ("SingleOrDefault", ⟨false, true⟩)]

/-- The contract of an operator name, by how the name begins and ends. -/
def ElementContract.ofName (name : String) : ElementContract where
  first := "First".toList.isPrefixOf name.toList
  orDefault := "OrDefault".toList.isSuffixOf name.toList

/-- Leaves the one row that the contract is about. -/
def RowStep.element (contract : ElementContract) : RowStep
  | [] => if contract.orDefault then .ok [.null] else .error .noElements
  | row :: rows => if contract.first || rows.isEmpty then .ok [row] else .error .moreThanOneElement

namespace Translator

/-- `Where` with a predicate. -/
def filter : Translator where
  operators := ["Where"]
  translate call renames := do Plan.empty.require (← call.lambdaOperand 1) renames

/-- `Select` with a projection. The store returns the columns that the projection reads, unless it
uses the row as a whole; the projection itself is applied on the client. -/
def projection : Translator where
  operators := ["Select"]
  translate call renames := do
    let f ← call.lambdaOperand 1
    let body ← f.body.reduce
    let (members, restricted) := body.rowMembers f.parameter []
    let plan ←
      if restricted && !members.isEmpty then
        match Plan.empty.addColumns (members.map renames.column) with
        | (plan, none) => .ok plan
        | (_, some e) => .error e
      else .ok Plan.empty
    .ok (plan.addStep (.map ⟨f.parameter, body⟩))

/-- `Take` with a closed count. -/
def cap : Translator where
  operators := ["Take"]
  translate call _ := do
    let count ← call.operand 1
    if !count.isClosed then .error (.unsupportedConstruct "Take count must not depend on the row")
    else
      let v ← count.fold
      match v.integer? with
      | some n => Plan.empty.limit n.toInt
      | none => .error (.invalidArgument ("Take count must be an integer, got " ++ v.kind.name))

/-- `First` and `Single`, with or without a default, with or without a predicate. Only the first
kind may cap the rows at one; the other has to see a second row. -/
def element : Translator where
  operators := ElementContract.operators.map Prod.fst
  translate call renames := do
    match call.method.queryOperator? with
    | none => .error (.unsupportedConstruct call.method.name)
    | some name =>
      let contract := ElementContract.ofName name
      let plan ←
        if 1 < call.args.length then Plan.empty.require (← call.lambdaOperand 1) renames
        else .ok Plan.empty
      let plan ← if contract.first then plan.limit 1 else .ok plan
      .ok (plan.addStep (.element contract))

/-- The translators of all operators that the library knows. -/
def standard : List Translator :=
  [filter, projection, cap, element]

end Translator

end TableClient
