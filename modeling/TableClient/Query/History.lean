import TableClient.Query.Plan

/-! Plans that are changed in place, call after call. A call can fail, and later calls go on with the
plan that it left: as it was, or with the part that came before what was wrong. -/

namespace TableClient

namespace Plan

/-- Also requires a filter. A blank one is refused before anything is changed. -/
def addFilterInPlace (p : Plan) (text : String) : Plan × Option QueryError :=
  let text := String.ofList (Text.trim text.toList)
  if text = "" then (p, some (.invalidArgument "filter text must not be empty"))
  else ({ p with filter := some (p.filter.elim text (conjoin · text)) }, none)

/-- Also limits the number of rows. A count out of range is refused before anything is changed. -/
def limitInPlace (p : Plan) (count : Int) : Plan × Option QueryError :=
  let digits := String.ofList (Text.integer count)
  if count ≤ 0 then (p, some (.invalidArgument ("take count must be positive, got " ++ digits)))
  else if UInt32.size ≤ count then
    (p, some (.invalidArgument ("take count " ++ digits ++ " is out of range")))
  else
    let n := UInt32.ofNat count.toNat
    ({ p with cap := some (p.cap.elim n (min · n)) }, none)

/-- Merges what an operator further in contributes. The first part that cannot be merged is an error; the
parts before it stay merged. -/
def absorbInPlace (p inner : Plan) : Plan × Option QueryError :=
  match inner.filter.elim (p, none) p.addFilterInPlace with
  | (p, some e) => (p, some e)
  | (p, none) =>
    match inner.columns.elim (p, none) p.addColumns with
    | (p, some e) => (p, some e)
    | (p, none) =>
      match inner.cap.elim (p, none) fun n => p.limitInPlace n.toNat with
      | (p, some e) => (p, some e)
      | (p, none) => ({ p with steps := inner.steps ++ p.steps }, none)

/-- The plan that a computation of it gives, or the one before it if the computation fails, and the
failure. -/
def orKept (p : Plan) : Except QueryError Plan → Plan × Option QueryError
  | .ok q => (q, none)
  | .error e => (p, some e)

/-- The plan in place changes exactly as the plan that is returned. -/
theorem addFilterInPlace_eq (p : Plan) (text : String) :
    p.addFilterInPlace text = p.orKept (p.addFilter text) := by
  simp only [addFilterInPlace, addFilter]
  split
  · rfl
  · cases p.filter <;> rfl

theorem limitInPlace_eq (p : Plan) (count : Int) : p.limitInPlace count = p.orKept (p.limit count) := by
  simp only [limitInPlace, limit]
  split
  · rfl
  · split
    · rfl
    · cases p.cap <;> rfl

end Plan

/-- The calls on a plan since it was empty, the last one outermost. What a call absorbs has a history of
its own. -/
inductive History where
  | empty
  | filter (before : History) (text : String)
  | columns (before : History) (names : List String)
  | cap (before : History) (count : Int)
  | step (before : History) (step : RowStep)
  | absorb (before inner : History)

namespace History

/-- The plan after all calls, and the failure of the last one. -/
def outcome : History → Plan × Option QueryError
  | empty => (.empty, none)
  | filter before text => before.outcome.1.addFilterInPlace text
  | columns before names => before.outcome.1.addColumns names
  | cap before count => before.outcome.1.limitInPlace count
  | step before s => (before.outcome.1.addStep s, none)
  | absorb before inner => before.outcome.1.absorbInPlace inner.outcome.1

/-- The plan after all calls. -/
def plan (h : History) : Plan := h.outcome.1

/-- How the last call failed, if it did. -/
def failure? (h : History) : Option QueryError := h.outcome.2

/-- The caps that were set or absorbed, by calls that succeeded. -/
def caps : History → List Nat
  | empty => []
  | filter before _ | columns before _ | step before _ => before.caps
  | cap before count =>
    match (cap before count).failure? with
    | none => before.caps ++ [count.toNat]
    | some _ => before.caps
  | absorb before inner => before.caps ++ inner.caps

/-- The columns that were asked for or absorbed, in the order of the calls and as often as they were
named; of a call that failed those before the blank one. Nothing if no call asked for columns. -/
def named : History → Option (List String)
  | empty => none
  | filter before _ | cap before _ | step before _ => before.named
  | columns before names => some (before.named.getD [] ++ names.takeWhile (·.toList.any (!Text.isBlank ·)))
  | absorb before inner =>
    match inner.named with
    | none => before.named
    | some more => some (before.named.getD [] ++ more)

/-- How many steps were added or absorbed. -/
def added : History → Nat
  | empty => 0
  | filter before _ | columns before _ | cap before _ => before.added
  | step before _ => before.added + 1
  | absorb before inner => before.added + inner.added

end History

end TableClient
