import TableClient.Value.Basic

/-! Expressions over rows. Predicates and projections are lambdas whose parameter stands for a row;
a query is a chain of operator calls, each with the query it extends as its first argument, down to
a source. -/

namespace TableClient

/-- Relational and boolean operators. -/
inductive BinaryOp where
  | eq | ne | lt | le | gt | ge | and | or
  deriving DecidableEq

namespace BinaryOp

/-- The keyword of the filter grammar. -/
def keyword : BinaryOp → String
  | eq => "eq"
  | ne => "ne"
  | lt => "lt"
  | le => "le"
  | gt => "gt"
  | ge => "ge"
  | and => "and"
  | or => "or"

def all : List BinaryOp :=
  [eq, ne, lt, le, gt, ge, and, or]

def ofKeyword? (word : String) : Option BinaryOp :=
  all.find? (·.keyword == word)

def isConnective : BinaryOp → Bool
  | and | or => true
  | _ => false

def isComparison (op : BinaryOp) : Bool :=
  !op.isConnective

/-- The operator that keeps the meaning when the operands change sides. -/
def mirrored : BinaryOp → BinaryOp
  | lt => gt
  | le => ge
  | gt => lt
  | ge => le
  | op => op

/-- Whether an order between the operands satisfies the operator. -/
def holds (op : BinaryOp) (o : Ordering) : Bool :=
  match op with
  | eq => o.isEq
  | ne => o.isNe
  | lt => o.isLT
  | le => o.isLE
  | gt => o.isGT
  | ge => o.isGE
  | and | or => false

theorem mirrored_mirrored (op : BinaryOp) : op.mirrored.mirrored = op := by
  cases op <;> rfl

theorem holds_mirrored (op : BinaryOp) (o : Ordering) : op.mirrored.holds o = op.holds o.swap := by
  cases op <;> cases o <;> rfl

end BinaryOp

/-- The element type of an array construction. -/
inductive ElementType where
  | byte
  | other (name : String)
  deriving DecidableEq

/-- A host function captured in an expression. It maps the receiver, if any, and the arguments to a
value or to a text that says why it failed. -/
structure NativeMethod where
  name : String
  invoke : Option Value → List Value → Except String Value

/-- What a call node calls. -/
inductive Method where
  /-- The order of the receiver and the argument. -/
  | compareTo
  /-- The order of two arguments. -/
  | compare
  /-- The order of two arguments, ordinal for texts. -/
  | compareOrdinal
  /-- Whether the receiver, a list or a text, contains the argument. -/
  | contains
  /-- The display text of the receiver; null gives the empty text. -/
  | toStringOrEmpty
  /-- An operator on queries. -/
  | operator (space name : String)
  | native (method : NativeMethod)

namespace Method

def name : Method → String
  | compareTo => "CompareTo"
  | compare => "Compare"
  | compareOrdinal => "CompareOrdinal"
  | contains => "Contains"
  | toStringOrEmpty => "ToStringOrEmpty"
  | operator space name => space ++ "." ++ name
  | native method => method.name

/-- Whether the call gives the order of its operands. -/
def isCompare : Method → Bool
  | compareTo | compare | compareOrdinal => true
  | _ => false

def isOperator : Method → Bool
  | operator .. => true
  | _ => false

/-- The name of an operator in the name space of queries. -/
def queryOperator? : Method → Option String
  | operator space name => if space = "Queryable" then some name else none
  | _ => none

end Method

inductive Expr where
  | constant (value : Value)
  | parameter (name : String)
  /-- The table at the root of a query. -/
  | source (name : String)
  | member (target : Expr) (name : String)
  | not (operand : Expr)
  | binary (op : BinaryOp) (left right : Expr)
  | call (method : Method) (receiver : Option Expr) (args : List Expr)
  | newArray (element : ElementType) (items : List Expr)
  /-- A record built member by member. -/
  | new (members : List (String × Expr))
  | lambda (parameter : String) (body : Expr)

/-- A function of one parameter. -/
structure Lambda where
  parameter : String
  body : Expr

/-- A call taken out of its node. -/
structure Call where
  method : Method
  receiver : Option Expr
  args : List Expr

namespace Call

/-- The query that an operator call extends. -/
def source? (c : Call) : Option Expr :=
  c.args.head?

/-- The operands of a call that gives an order. -/
def compareOperands? (c : Call) : Option (Expr × Expr) :=
  match c.method, c.receiver, c.args with
  | .compareTo, some a, [b] => some (a, b)
  | .compare, none, [a, b] => some (a, b)
  | .compareOrdinal, none, [a, b] => some (a, b)
  | _, _, _ => none

end Call

namespace Expr

def kindName : Expr → String
  | constant _ => "Constant"
  | parameter _ => "Parameter"
  | source _ => "Source"
  | member .. => "MemberAccess"
  | not _ => "Not"
  | binary .. => "Binary"
  | call .. => "Call"
  | newArray .. => "NewArray"
  | new _ => "New"
  | lambda .. => "Lambda"

mutual

/-- Whether no parameter, source or lambda occurs, so that the value does not depend on a row. -/
def isClosed : Expr → Bool
  | constant _ => true
  | parameter _ => false
  | source _ => false
  | member target _ => isClosed target
  | not operand => isClosed operand
  | binary _ left right => isClosed left && isClosed right
  | call _ receiver args => isClosedReceiver receiver && areClosed args
  | newArray _ items => areClosed items
  | new members => areClosedMembers members
  | lambda .. => false

def isClosedReceiver : Option Expr → Bool
  | none => true
  | some e => isClosed e

def areClosed : List Expr → Bool
  | [] => true
  | e :: es => isClosed e && areClosed es

def areClosedMembers : List (String × Expr) → Bool
  | [] => true
  | (_, e) :: rest => isClosed e && areClosedMembers rest

end

/-- The name of the member, if the expression reads one directly off the parameter. -/
def parameterMember? (param : String) : Expr → Option String
  | member (parameter p) name => if p = param then some name else none
  | _ => none

def lambda? : Expr → Option Lambda
  | lambda p body => some ⟨p, body⟩
  | _ => none

def call? : Expr → Option Call
  | call method receiver args => some ⟨method, receiver, args⟩
  | _ => none

/-- The call of a query operator on a query. -/
def operatorOn (query : Expr) (name : String) (operands : List Expr) : Expr :=
  call (.operator "Queryable" name) none (query :: operands)

def filtered (query predicate : Expr) : Expr := query.operatorOn "Where" [predicate]

def projected (query projection : Expr) : Expr := query.operatorOn "Select" [projection]

def limited (query count : Expr) : Expr := query.operatorOn "Take" [count]

/-- The text of a value, where null is the empty text. -/
def displayed (e : Expr) : Expr := call .toStringOrEmpty (some e) []

end Expr

end TableClient
