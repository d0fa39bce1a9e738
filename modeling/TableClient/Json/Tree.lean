import TableClient.Json.Token

/-! JSON texts as trees. A tree keeps what a text says in the order in which it says it: numbers by
their parts, members of objects with their repetitions. -/

namespace TableClient.Json

inductive Tree where
  | null
  | bool (b : Bool)
  | number (text : NumberText)
  | string (text : Option String)
  | array (items : List Tree)
  | object (members : List (Option String × Tree))

namespace Tree

mutual

/-- Reads a value from the front of a list of tokens. -/
def readValue : Nat → List Token → Option (Tree × List Token)
  | fuel + 1, .openArray :: ts =>
    match ts with
    | .closeArray :: ts => some (array [], ts)
    | ts => (readItems fuel ts).map fun (items, ts) => (array items, ts)
  | fuel + 1, .openObject :: ts =>
    match ts with
    | .closeObject :: ts => some (object [], ts)
    | ts => (readMembers fuel ts).map fun (members, ts) => (object members, ts)
  | _, .null :: ts => some (null, ts)
  | _, .true :: ts => some (bool true, ts)
  | _, .false :: ts => some (bool false, ts)
  | _, .number text :: ts => some (number text, ts)
  | _, .string text :: ts => some (string text, ts)
  | _, _ => none

/-- Reads one or more values with commas between them, up to the end of an array. -/
def readItems : Nat → List Token → Option (List Tree × List Token)
  | 0, _ => none
  | fuel + 1, ts => do
    let (item, ts) ← readValue fuel ts
    match ts with
    | .comma :: ts =>
      let (items, ts) ← readItems fuel ts
      some (item :: items, ts)
    | .closeArray :: ts => some ([item], ts)
    | _ => none

/-- Reads one or more members with commas between them, up to the end of an object. -/
def readMembers : Nat → List Token → Option (List (Option String × Tree) × List Token)
  | fuel + 1, .string name :: .colon :: ts => do
    let (value, ts) ← readValue fuel ts
    match ts with
    | .comma :: ts =>
      let (members, ts) ← readMembers fuel ts
      some ((name, value) :: members, ts)
    | .closeObject :: ts => some ([(name, value)], ts)
    | _ => none
  | _, _ => none

end

/-- The tree of a text. Two levels of reading for each token are enough. -/
def read? (text : String) : Option Tree := do
  let ts ← tokens? text.toList
  match ← readValue (2 * ts.length + 1) ts with
  | (t, []) => some t
  | _ => none

end Tree

end TableClient.Json
