import TableClient.Expr.Basic
import TableClient.Query.Error
import TableClient.Text.Cut
import TableClient.Value.Basic

/-! Evaluation of expressions under bindings of their parameters. Operands are evaluated from left
to right and the first failure is the result; `and` and `or` leave out the second operand when the
first decides. Reading a member that a record does not have is a failure, and not null. -/

namespace TableClient

namespace Value

/-- Reads a member of a record; a member of null is null. -/
def readMember (target : Value) (name : String) : Except QueryError Value :=
  match target with
  | record members =>
    match Keyed.find? name members with
    | some v => .ok v
    | none => .error (.unsupportedConstruct ("member '" ++ name ++ "' is not on the row"))
  | null => .ok null
  | v => .error (.unsupportedConstruct ("member '" ++ name ++ "' on a " ++ v.kind.name ++ " value"))

/-- The byte that an integer is. -/
def toByte (v : Value) : Except QueryError UInt8 :=
  match v.integer? with
  | some n =>
    if 0 ≤ n.toInt ∧ n.toInt < 256 then .ok (UInt8.ofNat n.toInt.toNat)
    else .error (.invalidArgument (String.ofList (Text.integer n.toInt) ++ " is not a byte"))
  | none => .error (.unsupportedConstruct (v.kind.name ++ " element in a byte array"))

/-- The value of an array: only arrays of bytes have one. -/
def ofElements (element : ElementType) (values : List Value) : Except QueryError Value :=
  match element with
  | .byte => (values.mapM toByte).map binary
  | .other name => .error (.unsupportedConstruct ("array of " ++ name))

/-- The failure of comparing values of two kinds that have no order between them. -/
def incomparable {α : Type} (a b : Value) : Except QueryError α :=
  .error (.unsupportedConstruct
    ("comparison between " ++ a.kind.name ++ " and " ++ b.kind.name))

/-- The order of two values as a number below, at or above zero; null comes before all else. -/
def order (a b : Value) : Except QueryError Value :=
  let number : Ordering → Value
    | .lt => int32 (-1)
    | .eq => int32 0
    | .gt => int32 1
  match a, b with
  | null, null => .ok (number .eq)
  | null, _ => .ok (number .lt)
  | _, null => .ok (number .gt)
  | a, b =>
    match a.compare b with
    | some o => .ok (number o)
    | none => incomparable a b

/-- Whether a list has an element that equals the needle loosely, or a text has the needle in it. -/
def contains (collection needle : Value) : Except QueryError Value :=
  match collection, needle with
  | list items, needle => .ok (bool (items.any (·.looselyEquals needle)))
  | string text, string part => .ok (bool (Text.occursIn part.toList text.toList))
  | other, _ => .error (.unsupportedConstruct ("Contains on a " ++ other.kind.name ++ " value"))

def toCondition (v : Value) : Except QueryError Bool :=
  match v.bool? with
  | some b => .ok b
  | none => .error (.unsupportedConstruct (v.kind.name ++ " used as a condition"))

def negate : Value → Except QueryError Value
  | bool b => .ok (bool !b)
  | v => .error (.unsupportedConstruct ("negation of " ++ v.kind.name))

/-- A relational operator on values. Equality is loose; an order with null on a side is false. -/
def relate (op : BinaryOp) (a b : Value) : Except QueryError Value :=
  match op with
  | .eq => .ok (bool (a.looselyEquals b))
  | .ne => .ok (bool !(a.looselyEquals b))
  | op =>
    match a.compare b with
    | some o => .ok (bool (op.holds o))
    | none =>
      if a.isNull || b.isNull then .ok (bool false) else incomparable a b

end Value

/-- Calls a method other than a query operator on values. -/
def Method.invoke (method : Method) (receiver : Option Value) (args : List Value) :
    Except QueryError Value :=
  match method, receiver, args with
  | .compareTo, some a, [b] => a.order b
  | .compareTo, some _, _ => .error (.unsupportedConstruct "CompareTo arity")
  | .compare, none, [a, b] => a.order b
  | .compare, none, _ => .error (.unsupportedConstruct "Compare arity")
  | .compareOrdinal, none, [a, b] => a.order b
  | .compareOrdinal, none, _ => .error (.unsupportedConstruct "CompareOrdinal arity")
  | .contains, some collection, [needle] => collection.contains needle
  | .contains, some _, _ => .error (.unsupportedConstruct "Contains arity")
  | .toStringOrEmpty, some v, _ => .ok (.string v.display)
  | .native m, receiver, args => (m.invoke receiver args).mapError .evaluation
  | .operator .., _, _ =>
    .error (.unsupportedConstruct ("query operator " ++ method.name ++ " inside an expression"))
  | _, _, _ => .error (.unsupportedConstruct ("call shape of " ++ method.name))

/-- Values of parameters by name. -/
abbrev Bindings := List (String × Value)

namespace Expr

mutual

def evaluate (env : Bindings) : Expr → Except QueryError Value
  | constant v => .ok v
  | parameter name =>
    match Keyed.find? name env with
    | some v => .ok v
    | none => .error (.unsupportedConstruct ("unbound parameter '" ++ name ++ "'"))
  | source name =>
    .error (.unsupportedConstruct ("query source '" ++ name ++ "' in a local expression"))
  | member target name => do (← evaluate env target).readMember name
  | not operand => do (← evaluate env operand).negate
  | binary .and left right => do
    if ← (← evaluate env left).toCondition then
      .ok (.bool (← (← evaluate env right).toCondition))
    else .ok (.bool false)
  | binary .or left right => do
    if ← (← evaluate env left).toCondition then .ok (.bool true)
    else .ok (.bool (← (← evaluate env right).toCondition))
  | binary op left right => do
    let a ← evaluate env left
    let b ← evaluate env right
    a.relate op b
  | call method receiver args => do
    let r ← evaluateReceiver env receiver
    let vs ← evaluateAll env args
    method.invoke r vs
  | newArray element items => do Value.ofElements element (← evaluateAll env items)
  | new members => do .ok (.ofMembers (← evaluateMembers env members))
  | lambda .. => .error (.unsupportedConstruct "lambda in a value position")

def evaluateReceiver (env : Bindings) : Option Expr → Except QueryError (Option Value)
  | none => .ok none
  | some e => do .ok (some (← evaluate env e))

def evaluateAll (env : Bindings) : List Expr → Except QueryError (List Value)
  | [] => .ok []
  | e :: es => do
    let v ← evaluate env e
    let vs ← evaluateAll env es
    .ok (v :: vs)

def evaluateMembers (env : Bindings) :
    List (String × Expr) → Except QueryError (List (String × Value))
  | [] => .ok []
  | (name, e) :: rest => do
    let v ← evaluate env e
    let vs ← evaluateMembers env rest
    .ok ((name, v) :: vs)

end

end Expr

/-- The value of a lambda at an argument. -/
def Lambda.apply (f : Lambda) (argument : Value) : Except QueryError Value :=
  f.body.evaluate [(f.parameter, argument)]

end TableClient
