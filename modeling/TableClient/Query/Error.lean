import TableClient.Record.Error

/-! What goes wrong while a query is translated, evaluated or finished on the client. -/

namespace TableClient

inductive QueryError where
  /-- An expression node, method or shape outside what is understood. -/
  | unsupportedConstruct (what : String)
  /-- A query operator that no registered translator accepts. -/
  | unsupportedOperator (name : String)
  /-- A value that has no literal in the filter grammar. -/
  | unsupportedLiteral (kind : String)
  /-- A text that is no literal. -/
  | malformedLiteral (text : String)
  | invalidArgument (reason : String)
  /-- A captured method failed; the text is its own. -/
  | evaluation (text : String)
  /-- An element was asked of no rows. -/
  | noElements
  /-- The only element was asked of several rows. -/
  | moreThanOneElement
  | mapping (error : MappingError)
  deriving DecidableEq

namespace QueryError

def code : QueryError → String
  | unsupportedConstruct _ => "TABLE_QUERY_UNSUPPORTED"
  | unsupportedOperator _ => "TABLE_QUERY_UNSUPPORTED_OPERATOR"
  | unsupportedLiteral _ => "TABLE_QUERY_UNSUPPORTED_LITERAL"
  | malformedLiteral _ => "TABLE_QUERY_MALFORMED_LITERAL"
  | invalidArgument _ => "TABLE_QUERY_INVALID_ARGUMENT"
  | evaluation _ => "TABLE_QUERY_EVALUATION"
  | noElements => "TABLE_QUERY_NO_ELEMENTS"
  | moreThanOneElement => "TABLE_QUERY_MORE_THAN_ONE"
  | mapping e => e.code

def message : QueryError → String
  | unsupportedConstruct what => "Unsupported construct: " ++ what
  | unsupportedOperator name => "Unsupported query operator: " ++ name
  | unsupportedLiteral kind => "Unsupported literal of type " ++ kind
  | malformedLiteral text => "Malformed literal: " ++ text
  | invalidArgument reason => "Invalid argument: " ++ reason
  | evaluation text => text
  | noElements => "Sequence contains no elements"
  | moreThanOneElement => "Sequence contains more than one element"
  | mapping e => e.message

/-- A query that fails to translate fails in the same way every time. -/
def isRetryable (_ : QueryError) : Bool := false

end QueryError

end TableClient
