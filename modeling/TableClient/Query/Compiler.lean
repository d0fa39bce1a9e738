import TableClient.Log.Line
import TableClient.Query.Translator

/-! Compilation of query chains. The calls of a chain are translated from the outermost inwards and
their plans merged, down to the source. -/

namespace TableClient

/-- The translators of a compiler; of those that accept an operator the first is used. -/
structure Compiler where
  translators : List Translator

namespace Compiler

/-- The compiler of all operators that the library knows. -/
def standard : Compiler := ⟨Translator.standard⟩

/-- The compiler that rejects every operator. -/
def none : Compiler := ⟨[]⟩

/-- Adds a translator, in front of those that accept the same operators. -/
def register (c : Compiler) (t : Translator) : Compiler :=
  ⟨t :: c.translators⟩

def translatorFor? (c : Compiler) (operator : String) : Option Translator :=
  c.translators.find? (·.operators.contains operator)

def supports (c : Compiler) (operator : String) : Bool :=
  (c.translatorFor? operator).isSome

/-- The operator that a call in a chain names. -/
def chainOperator (method : Method) : Except QueryError String :=
  match method.queryOperator? with
  | some name => .ok name
  | .none =>
    if method.isOperator then .error (.unsupportedOperator method.name)
    else .error (.unsupportedConstruct ("method " ++ method.name ++ " in a query chain"))

/-- What one call contributes. -/
def contribution (c : Compiler) (renames : Renames) (call : Call) (operator : String) :
    Except QueryError Plan :=
  match c.translatorFor? operator with
  | some t => t.translate call renames
  | .none => .error (.unsupportedOperator operator)

/-- Merges the contributions of a chain into a plan. -/
def compileInto (c : Compiler) (renames : Renames) (plan : Plan) : Expr → Except QueryError Plan
  | .source _ => .ok plan
  | .call method receiver [] => do
    let operator ← chainOperator method
    let _ ← plan.absorb (← c.contribution renames ⟨method, receiver, []⟩ operator)
    .error (.invalidArgument (operator ++ " has no source"))
  | .call method receiver (query :: operands) => do
    let operator ← chainOperator method
    let plan ← plan.absorb (← c.contribution renames ⟨method, receiver, query :: operands⟩ operator)
    compileInto c renames plan query
  | e => .error (.unsupportedConstruct (e.kindName ++ " node in a query chain"))

/-- The plan of a query. -/
def compile (c : Compiler) (renames : Renames) (query : Expr) : Except QueryError Plan :=
  c.compileInto renames .empty query

/-- What is logged about the outcome of a compilation. -/
def report : Except QueryError Plan → LogEntry
  | .ok p => .ofEvent .queryTranslated
      [("filter", p.filter.getD ""), ("select", p.columnsText?.getD ""),
        ("take", p.capText?.getD "")]
  | .error e => .ofEvent .queryRejected [("code", e.code), ("reason", e.message)]

end Compiler

end TableClient
