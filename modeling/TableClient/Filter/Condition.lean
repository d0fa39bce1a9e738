import TableClient.Expr.Basic
import TableClient.Filter.Literal
import TableClient.Filter.Scan

/-! What filter texts mean. A text is split into words and parentheses, and read as alternatives of
conjunctions: `not` binds more than `and`, and `and` more than `or`. A condition is then true or
false of every row. -/

namespace TableClient.Filter

/-! ### Tokens -/

inductive Token where
  | opening
  | closing
  | word (text : List Char)
  deriving DecidableEq

/-- A word, if it has characters. -/
def flush (word : List Char) : List Token :=
  if word = [] then [] else [.word word]

/-- The tokens of a text, after the characters of a word and whether a quote is open in it. Blanks
and parentheses between quotes belong to their word. -/
def tokensFrom (quoted : Bool) (word : List Char) : List Char → List Token
  | [] => flush word
  | c :: cs =>
    if quoted then tokensFrom (c ≠ '\x27') (word ++ [c]) cs
    else if c = '\x27' then tokensFrom true (word ++ [c]) cs
    else if c = '(' then flush word ++ .opening :: tokensFrom false [] cs
    else if c = ')' then flush word ++ .closing :: tokensFrom false [] cs
    else if c = ' ' then flush word ++ tokensFrom false [] cs
    else tokensFrom false (word ++ [c]) cs

/-- The tokens of a text. -/
def tokens (cs : List Char) : List Token :=
  tokensFrom false [] cs

/-! ### Conditions -/

inductive Condition where
  /-- A column that has to be true. -/
  | column (name : String)
  /-- A column against a literal. -/
  | test (column : String) (op : BinaryOp) (literal : Value)
  | not (c : Condition)
  | and (left right : Condition)
  | or (left right : Condition)

/-- A part of a text on one level of parentheses. -/
inductive Part where
  | word (text : List Char)
  /-- What stood between parentheses. -/
  | group (c : Condition)

/-- The words that no column can be named. -/
def keywords : List String :=
  "not" :: BinaryOp.all.map BinaryOp.keyword

def isKeyword (word : List Char) : Bool :=
  keywords.contains (String.ofList word)

/-- The comparison that a word names. -/
def comparison? (word : List Char) : Option BinaryOp :=
  (BinaryOp.ofKeyword? (String.ofList word)).filter BinaryOp.isComparison

/-- A column, a column against a literal, or a group. -/
def atom? : List Part → Option Condition
  | [.group c] => some c
  | [.word column] => if isKeyword column then none else some (.column (String.ofList column))
  | [.word column, .word op, .word literal] =>
    if isKeyword column then none
    else do some (.test (String.ofList column) (← comparison? op) (← Literal.read? literal))
  | _ => none

/-- An atom after any number of `not`. -/
def negation? : List Part → Option Condition
  | .word w :: rest =>
    if w = "not".toList then (negation? rest).map .not else atom? (.word w :: rest)
  | parts => atom? parts

/-- The runs of parts between the occurrences of a word. -/
def splitAt (separator : List Char) : List Part → List (List Part)
  | [] => [[]]
  | .word w :: rest =>
    if w = separator then [] :: splitAt separator rest
    else match splitAt separator rest with
      | run :: runs => (.word w :: run) :: runs
      | [] => [[.word w]]
  | p :: rest =>
    match splitAt separator rest with
    | run :: runs => (p :: run) :: runs
    | [] => [[p]]

/-- Joins conditions, of which there has to be one. -/
def joinBy (join : Condition → Condition → Condition) : List Condition → Option Condition
  | [] => none
  | [c] => some c
  | c :: cs => (joinBy join cs).map (join c)

def conjunction? (parts : List Part) : Option Condition :=
  ((splitAt "and".toList parts).mapM negation?).bind (joinBy .and)

def disjunction? (parts : List Part) : Option Condition :=
  ((splitAt "or".toList parts).mapM conjunction?).bind (joinBy .or)

/-- The condition of tokens, after the parts of each level of parentheses that is still open, the
innermost first. -/
def conditionFrom (current : List Part) (outer : List (List Part)) : List Token → Option Condition
  | [] => if outer.isEmpty then disjunction? current else none
  | .opening :: ts => conditionFrom [] (current :: outer) ts
  | .word w :: ts => conditionFrom (current ++ [.word w]) outer ts
  | .closing :: ts =>
    match outer with
    | [] => none
    | level :: outer => do conditionFrom (level ++ [.group (← disjunction? current)]) outer ts

/-- The condition that a text spells, if it is well formed. -/
def condition? (cs : List Char) : Option Condition :=
  conditionFrom [] [] (tokens cs)

/-! ### Rows -/

/-- Whether a value stands in a relation to another. Equality is loose; values without an order are
in none of the other relations. -/
def satisfies (op : BinaryOp) (actual literal : Value) : Bool :=
  match op with
  | .eq => actual.looselyEquals literal
  | .ne => !actual.looselyEquals literal
  | op => (actual.compare literal).any op.holds

/-- Whether a row satisfies a condition. A column that the row does not have is null. -/
def Condition.holds (row : Value) : Condition → Bool
  | column name => row.member? name == some (.bool true)
  | test name op literal => satisfies op ((row.member? name).getD .null) literal
  | not c => !c.holds row
  | and a b => a.holds row && b.holds row
  | or a b => a.holds row || b.holds row

/-- Whether a text is a filter that accepts a row. -/
def accepts (text : String) (row : Value) : Bool :=
  (condition? text.toList).any (·.holds row)

end TableClient.Filter
