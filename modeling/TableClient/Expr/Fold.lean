import TableClient.Expr.Eval

/-! Folding of closed expressions. `fold` gives the value of a literal, a member read, a call or an
array, and refuses every other kind of node; `reduce` folds each largest closed part of an
expression that is of such a kind and leaves the rest as it is. -/

namespace TableClient.Expr

mutual

/-- The value of a closed expression of a kind that folds. -/
def fold : Expr → Except QueryError Value
  | constant v => .ok v
  | member target name => do (← fold target).readMember name
  | call (.operator space name) _ _ =>
    .error (.unsupportedConstruct
      ("query operator " ++ (Method.operator space name).name ++ " cannot be folded"))
  | call method receiver args => do
    let r ← foldReceiver receiver
    let vs ← foldAll args
    method.invoke r vs
  | newArray element items => do Value.ofElements element (← foldAll items)
  | parameter name => .error (.unsupportedConstruct ("parameter '" ++ name ++ "' cannot be folded"))
  | e => .error (.unsupportedConstruct (e.kindName ++ " node cannot be folded"))

def foldReceiver : Option Expr → Except QueryError (Option Value)
  | none => .ok none
  | some e => do .ok (some (← fold e))

def foldAll : List Expr → Except QueryError (List Value)
  | [] => .ok []
  | e :: es => do
    let v ← fold e
    let vs ← foldAll es
    .ok (v :: vs)

end

/-- The kinds of nodes that fold when they are closed. -/
def isFoldable : Expr → Bool
  | constant _ | member .. | newArray .. => true
  | call method _ _ => !method.isOperator
  | _ => false

mutual

def reduce (e : Expr) : Except QueryError Expr :=
  if e.isClosed && e.isFoldable then e.fold.map constant
  else match e with
    | constant v => .ok (constant v)
    | parameter name => .ok (parameter name)
    | source name => .ok (source name)
    | member target name => do .ok (member (← reduce target) name)
    | not operand => do .ok (not (← reduce operand))
    | binary op left right => do
      let l ← reduce left
      let r ← reduce right
      .ok (binary op l r)
    | call method receiver args => do
      let r ← reduceReceiver receiver
      let es ← reduceAll args
      .ok (call method r es)
    | newArray element items => do .ok (newArray element (← reduceAll items))
    | new members => do .ok (new (← reduceMembers members))
    | lambda p body => do .ok (lambda p (← reduce body))

def reduceReceiver : Option Expr → Except QueryError (Option Expr)
  | none => .ok none
  | some e => do .ok (some (← reduce e))

def reduceAll : List Expr → Except QueryError (List Expr)
  | [] => .ok []
  | e :: es => do
    let r ← reduce e
    let rs ← reduceAll es
    .ok (r :: rs)

def reduceMembers : List (String × Expr) → Except QueryError (List (String × Expr))
  | [] => .ok []
  | (name, e) :: rest => do
    let r ← reduce e
    let rs ← reduceMembers rest
    .ok ((name, r) :: rs)

end

end TableClient.Expr
