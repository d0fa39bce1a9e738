import TableClient.Expr.Fold
import TableClient.Filter.Literal
import TableClient.Filter.Scan
import TableClient.Record.Renames

/-! Filter texts of predicates. The body of a lambda is reduced first, so that what remains is
connectives and tests of members of the row against literals. The empty text stands for "no
constraint": it comes from a search in an empty list, and the connectives around it absorb it. -/

namespace TableClient

/-- The parameter that stands for the row, and the columns of its members. -/
structure RowScope where
  parameter : String
  renames : Renames

namespace RowScope

/-- The column that an expression reads directly off the row. -/
def column? (scope : RowScope) (e : Expr) : Option String :=
  (e.parameterMember? scope.parameter).map scope.renames.column

end RowScope

namespace Filter

def unsupported {α : Type} (what : String) : Except QueryError α :=
  .error (.unsupportedConstruct what)

/-- Joins two sides by an operator. -/
def joined (op : BinaryOp) (left right : String) : String :=
  left ++ " " ++ op.keyword ++ " " ++ right

def grouped (text : String) : String :=
  "(" ++ text ++ ")"

def isBinary : Expr → Bool
  | .binary .. => true
  | _ => false

def isCompareCall : Expr → Bool
  | .call method _ _ => method.isCompare
  | _ => false

def isConstant : Expr → Bool
  | .constant _ => true
  | _ => false

/-- Whether an expression is the literal zero of either width. -/
def isZero : Expr → Bool
  | .constant v => v.integer?.any (·.toInt = 0)
  | _ => false

/-- How an expression that cannot be translated is named. -/
def describe : Expr → String
  | .call method _ _ => "method " ++ method.name
  | .member target name => "member access '" ++ name ++ "' on " ++ target.kindName
  | .parameter name => "bare parameter '" ++ name ++ "'"
  | e => e.kindName ++ " node"

/-- A connective of two fragments. No constraint on a side of `or` leaves none; on a side of `and`
it leaves the other side. The result is in parentheses, so that no operator around it can split
it. -/
def connect (op : BinaryOp) (left right : String) : String :=
  if left = "" ∧ right = "" then ""
  else if op = .or ∧ (left = "" ∨ right = "") then ""
  else if left = "" then right
  else if right = "" then left
  else grouped (joined op left right)

/-- A comparison of two fragments, in parentheses if an operand has an operator of its own. -/
def compareFragments (op : BinaryOp) (compound : Bool) (left right : String) :
    Except QueryError String :=
  if left = "" ∨ right = "" then
    unsupported ("'" ++ op.keyword ++ "' comparison with an empty membership test")
  else if compound then .ok (grouped (joined op left right))
  else .ok (joined op left right)

/-- A comparison of two expressions that are not calls for an order, given the translations of both.
The column goes to the left. -/
def compareSides (scope : RowScope) (op : BinaryOp) (left right : Expr)
    (leftText rightText : Except QueryError String) : Except QueryError String :=
  let compound := isBinary left || isBinary right
  if (scope.column? left).isNone && (scope.column? right).isSome then do
    let r ← rightText
    let l ← leftText
    compareFragments op.mirrored compound r l
  else do
    let l ← leftText
    let r ← rightText
    compareFragments op compound l r

/-- A comparison with a call for an order on a side. The other side has to be zero, and the call's
own operands are then compared; a call on the right mirrors the operator. -/
def compareExprs (scope : RowScope) (op : BinaryOp) (left right : Expr)
    (leftText rightText : Except QueryError String)
    (leftOrder rightOrder : BinaryOp → Except QueryError String) : Except QueryError String :=
  if isCompareCall left then
    if isZero right then leftOrder op
    else unsupported (methodName left ++ " result compared with a value other than zero")
  else if isCompareCall right then
    if isZero left then rightOrder op.mirrored
    else unsupported (methodName right ++ " result compared with a value other than zero")
  else compareSides scope op left right leftText rightText
where
  methodName (e : Expr) : String := (e.call?.map (·.method.name)).getD ""

/-- One equality for each value searched for, or under a negation one inequality each; nothing for
no values. -/
def membership (column : String) (negated : Bool) (items : List Value) : Except QueryError String :=
  if items.isEmpty then .ok ""
  else do
    let op := if negated then BinaryOp.ne else .eq
    let tests ← items.mapM fun v => do .ok (joined op column (← Literal.render v))
    .ok (grouped ((if negated then " and " else " or ").intercalate tests))

/-- The search for a member of the row in a closed list. -/
def contains (scope : RowScope) (negated : Bool) (receiver : Option Expr) (args : List Expr) :
    Except QueryError String :=
  match receiver, args with
  | none, _ => unsupported "Contains without a receiver"
  | some collection, [needle] =>
    if !collection.isClosed then
      unsupported "Contains on a row member; only captured collections can be searched"
    else
      match scope.column? needle with
      | none => unsupported "Contains argument must be a member of the queried row"
      | some column => do
        match ← collection.fold with
        | .list items => membership column negated items
        | v => unsupported ("Contains on a " ++ v.kind.name ++ " value")
  | some _, _ => unsupported "Contains arity"

/-- A negated fragment, in parentheses unless it is atomic or has them already. No constraint stays
none. -/
def negate (atomic : Bool) (text : String) : String :=
  if text = "" then ""
  else if atomic || isGrouped text.toList then "not " ++ text
  else "not " ++ grouped text

/-- The literal of a closed expression; any other expression is named and refused. -/
def literalOf (e : Expr) : Except QueryError String :=
  if e.isClosed then do Literal.render (← e.fold) else unsupported (describe e)

mutual

/-- The fragment of an expression. -/
def fragment (scope : RowScope) : Expr → Except QueryError String
  | .constant v => Literal.render v
  | .member target name =>
    match scope.column? (.member target name) with
    | some column => .ok column
    | none => literalOf (.member target name)
  | .binary .and left right => do
    let l ← fragment scope left
    let r ← fragment scope right
    .ok (connect .and l r)
  | .binary .or left right => do
    let l ← fragment scope left
    let r ← fragment scope right
    .ok (connect .or l r)
  | .binary op left right =>
    compareExprs scope op left right (fragment scope left) (fragment scope right)
      (orderFragment scope left) (orderFragment scope right)
  | .not (.call .contains receiver args) => contains scope true receiver args
  | .not operand => do
    let text ← fragment scope operand
    .ok (negate ((scope.column? operand).isSome || isConstant operand) text)
  | .call .contains receiver args => contains scope false receiver args
  | e => literalOf e

/-- The fragment that compares the two operands of a call for an order. -/
def orderFragment (scope : RowScope) : Expr → BinaryOp → Except QueryError String
  | .call .compareTo (some a) [b], op =>
    compareExprs scope op a b (fragment scope a) (fragment scope b)
      (orderFragment scope a) (orderFragment scope b)
  | .call .compare none [a, b], op =>
    compareExprs scope op a b (fragment scope a) (fragment scope b)
      (orderFragment scope a) (orderFragment scope b)
  | .call .compareOrdinal none [a, b], op =>
    compareExprs scope op a b (fragment scope a) (fragment scope b)
      (orderFragment scope a) (orderFragment scope b)
  | .call method _ _, _ => unsupported (method.name ++ " call shape")
  | e, _ => unsupported (describe e)

end

end Filter

/-- The filter text of a predicate. -/
def Lambda.toFilter (predicate : Lambda) (renames : Renames) : Except QueryError String := do
  Filter.fragment ⟨predicate.parameter, renames⟩ (← predicate.body.reduce)

end TableClient
