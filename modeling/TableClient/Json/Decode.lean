import TableClient.Json.Document

/-! Decoding of trees into values of known types. A structure is read from an object, whose members
may come in any order, or from an array of its fields in their order. Decoders of members that are
not asked for are never run, so such members need only be well-formed. -/

namespace TableClient.Json.Tree

def text? : Tree → Option String
  | string text => text
  | _ => none

def bool? : Tree → Option Bool
  | bool b => some b
  | _ => none

def double? : Tree → Option Binary64
  | number text => text.value?.map Number.toDouble
  | _ => none

/-- An integer in a range; a number with a fraction or an exponent is none. -/
def integerIn? (low high : Int) : Tree → Option Int
  | number text =>
    match text.value? with
    | some (.int n) => if low ≤ n ∧ n ≤ high then some n else none
    | _ => none
  | _ => none

def items? : Tree → Option (List Tree)
  | array items => some items
  | _ => none

/-- Null, or what a decoder takes. -/
def orNull {α : Type} (read : Tree → Option α) : Tree → Option (Option α)
  | null => some none
  | t => (read t).map some

/-- The members of an object by their names, which have to be text. -/
def namedMembers? (members : List (Option String × Tree)) : Option (List (String × Tree)) :=
  members.mapM fun (name, t) => name.map (·, t)

/-- The member of a name, if there is one; two are an error. -/
def unique? (name : String) (members : List (String × Tree)) : Option (Option Tree) :=
  match members.filter (·.1 = name) with
  | [] => some none
  | [(_, t)] => some (some t)
  | _ => none

/-- The trees of the fields of a structure: from an object by name, from an array by place. Fields
may be missing at the end of an array and anywhere in an object; an array has no further items. -/
def fields? (names : List String) : Tree → Option (List (Option Tree))
  | object members => do
    let members ← namedMembers? members
    names.mapM (unique? · members)
  | array items =>
    if items.length ≤ names.length then
      some (items.map some ++ List.replicate (names.length - items.length) none)
    else none
  | _ => none

/-- Whether all members of an object have one of the given names. -/
def hasOnly (names : List String) : Tree → Bool
  | object members => members.all fun (name, _) => name.any (· ∈ names)
  | _ => true

/-- The name of a constant of an enumeration: a text, or an object that has null under the name. -/
def constant? : Tree → Option String
  | string text => text
  | object [(name, null)] => name
  | _ => none

end TableClient.Json.Tree
