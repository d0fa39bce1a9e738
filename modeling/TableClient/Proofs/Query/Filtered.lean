import TableClient.Proofs.Query.Answers
import TableClient.Proofs.Query.Merge
import TableClient.Proofs.Query.Unfiltered

/-! Chains with predicates. The plan of a chain asks all predicates first, then cuts at the smallest cap,
and then runs the element operators from the inside out. That gives what the operators give one after
another if every cap and every element operator is steady: with the predicates outside of it asked before
it, the same rows come out. -/

namespace TableClient

open TableClient.Filter

/-! ### Runs of chains -/

/-- The chains of `Where`, `Take` and element operators whose predicates are plain. -/
abbrev Expr.IsFiltered (renames : Renames) (source : List Value) (query : Expr) : Prop :=
  query.IsChain (Call.IsSelective renames source)

section Runs

variable {source mid out : List Value} {outer : List Call} {plan p : Plan} {query : Expr}
  {renames : Renames} {a : Value → Bool}

/-- Every row on the way is one of the source, or null. -/
theorem isRowOf_runChain (hchain : query.IsFiltered renames source)
    (hp : Compiler.standard.compileInto renames plan query = .ok p)
    (hrun : query.runChain source = .ok mid) : ∀ row ∈ mid, IsRowOf source row := by
  induction hchain generalizing plan mid with
  | source name =>
    cases hrun
    exact fun row hrow => .inl hrow
  | call hstep hquery ih =>
    obtain ⟨name, k, q, hname, hk, hq, hp⟩ := Compiler.compileInto_call hp
    obtain ⟨inner, hinner, hcall⟩ := Expr.runChain_call hrun
    obtain ⟨b, hb⟩ := contributes hstep hname hk
    exact hb.isRowOf (ih hp hinner) hcall

/-- A plan that answers for the calls outside a steady chain gives on the rows of the chain what the plan
with the chain in it gives on those of the source. -/
theorem run_compileInto_filtered (hchain : query.IsFiltered renames source)
    (hp : Compiler.standard.compileInto renames plan query = .ok p)
    (h : plan.Answers source outer a) (hsteady : query.steady source outer)
    (hrun : query.runChain source = .ok mid) (hfinal : plan.run mid = .ok out) :
    p.run source = .ok out := by
  induction hchain generalizing plan outer a mid with
  | source name =>
    cases hp
    cases hrun
    exact hfinal
  | call hstep hquery ih =>
    obtain ⟨name, k, q, hname, hk, hq, hp⟩ := Compiler.compileInto_call hp
    obtain ⟨inner, hinner, hcall⟩ := Expr.runChain_call hrun
    obtain ⟨b, hb⟩ := contributes hstep hname hk
    have habsorbed := Plan.absorbed hq
    rw [Expr.steady, hinner, Bool.and_eq_true] at hsteady
    obtain ⟨hcallSteady, hquerySteady⟩ := hsteady
    have hrows := isRowOf_runChain hquery hp hinner
    exact ih hp (h.absorbed hb habsorbed) hquerySteady hinner
      (h.run_absorbed hb habsorbed hrows hcall hcallSteady hfinal)

/-- The plan of a steady chain gives the rows that the operators give one after another. -/
theorem run_compile_filtered (hchain : query.IsFiltered renames source)
    (hp : Compiler.standard.compile renames query = .ok p)
    (hrun : query.runChain source = .ok out) (hsteady : query.steady source []) :
    p.run source = .ok out :=
  run_compileInto_filtered hchain hp Plan.answers_empty hsteady hrun (Plan.run_empty out)

/-- Corollary: a chain whose predicates come before its caps and element operators is steady whatever the
rows are. -/
theorem run_compile_filtersFirst (hchain : query.IsFiltered renames source)
    (hp : Compiler.standard.compile renames query = .ok p)
    (hrun : query.runChain source = .ok out) (hfirst : query.FiltersFirst) :
    p.run source = .ok out :=
  run_compileInto_filtered hchain hp Plan.answers_empty (hfirst.steady nofun) hrun
    (Plan.run_empty out)

/-! ### One predicate between caps -/

/-- `e => e.A == 1`. -/
def isOne : Formula := .test (.compare .eq .left "A" (.literal (.int32 1)))

theorem isPlain_isOne : isOne.IsPlain .empty where
  translatable := by
    intro t ht
    rw [List.mem_singleton.1 ht]
    exact ⟨by decide, rfl, .int32 1⟩
  isExact := rfl
  unordered := by
    intro t ht
    rw [List.mem_singleton.1 ht]
    rfl

theorem require_isOne :
    Plan.empty.require (isOne.lambda "e") .empty = .ok { Plan.empty with filter := some "A eq 1" } :=
  Plan.require_of_stripOuter rfl (by decide +kernel : stripOuter "A eq 1".toList = "A eq 1".toList)
    (Text.isTight_of_trim_eq (by decide) (by decide))

/-- The first of the ones among two rows: one of the two is enough. -/
theorem run_compile_filtered_first :
    let query : Expr := Expr.operatorOn (.filtered (.limited (.source "T") (.constant (.int32 2)))
      (.lambda "e" (isOne.body "e"))) "First" []
    let row (n : Int32) : Value := .record [("A", .int32 n)]
    ∃ p, Compiler.standard.compile .empty query = .ok p ∧
      p.run [row 1, row 0, row 1] = .ok [row 1] := by
  intro query row
  have hcompile : Compiler.standard.compile .empty query =
      .ok ⟨some "A eq 1", none, some 1, [RowStep.element ⟨true, false⟩]⟩ := by
    show (Plan.empty.require (isOne.lambda "e") .empty >>= fun k =>
      Plan.absorb ⟨none, none, some 1, [RowStep.element ⟨true, false⟩]⟩ k >>= fun q =>
        Compiler.standard.compileInto .empty q (.limited (.source "T") (.constant (.int32 2)))) = _
    rw [require_isOne, ok_bind]
    rfl
  have hchain : query.IsFiltered .empty [row 1, row 0, row 1] := by
    refine .call ⟨.inr (.inr rfl), nofun⟩ (.call ⟨.inr (.inl rfl), ?_⟩
      (.call ⟨.inl rfl, nofun⟩ (.source "T")))
    rintro f ⟨⟩
    exact ⟨isOne, "e", rfl, isPlain_isOne, fun _ _ _ _ => rfl⟩
  exact ⟨_, hcompile, run_compile_filtered hchain hcompile rfl rfl⟩

/-- A predicate after a cap is asked before it, and finds a row that the cap had dropped; after an element
operator, it takes the row that the operator was to find. And a name that the filter grammar reads as more
than one word does not name its column. -/
theorem filter_after_cap_differs :
    let row (n : Int32) : Value := .record [("A", .int32 n)]
    let capped : Expr := .filtered (.limited (.source "T") (.constant (.int32 1)))
      (.lambda "e" (isOne.body "e"))
    let single : Expr := .filtered (.operatorOn (.source "T") "Single" []) (.lambda "e" (isOne.body "e"))
    let renamed : Expr := .filtered (.source "T")
      (.lambda "e" (.binary .eq (.field "e" "A or B") (.constant (.int32 1))))
    let wide : Value := .record [("A", .bool false), ("A or B", .int32 1), ("B", .int32 0)]
    (∃ p, Compiler.standard.compile .empty capped = .ok p ∧
      capped.runChain [row 0, row 1] = .ok [] ∧ p.run [row 0, row 1] = .ok [row 1]) ∧
    (∃ p, Compiler.standard.compile .empty single = .ok p ∧
      single.runChain [row 0] = .ok [] ∧ p.run [row 0] = .error .noElements) ∧
    ∃ p, Compiler.standard.compile .empty renamed = .ok p ∧
      renamed.runChain [wide] = .ok [wide] ∧ p.run [wide] = .ok [] := by
  intro row capped single renamed wide
  have hafter (query : Expr) : Compiler.standard.compile .empty
      (query.filtered (.lambda "e" (isOne.body "e"))) =
        Compiler.standard.compileInto .empty { Plan.empty with filter := some "A eq 1" } query := by
    show (Plan.empty.require (isOne.lambda "e") .empty >>= fun k =>
      Plan.empty.absorb k >>= fun q => Compiler.standard.compileInto .empty q query) = _
    rw [require_isOne]
    rfl
  refine ⟨⟨⟨some "A eq 1", none, some 1, []⟩, ?_, rfl, rfl⟩,
    ⟨⟨some "A eq 1", none, none, [RowStep.element ⟨false, false⟩]⟩, ?_, rfl, rfl⟩,
    ⟨some "A or B eq 1", none, none, []⟩, ?_, rfl, rfl⟩
  · rw [hafter]
    rfl
  · rw [hafter]
    rfl
  · have hrequire : Plan.empty.require ⟨"e", .binary .eq (.field "e" "A or B") (.constant (.int32 1))⟩
        .empty = .ok { Plan.empty with filter := some "A or B eq 1" } :=
      Plan.require_of_stripOuter rfl
        (by decide +kernel : stripOuter "A or B eq 1".toList = "A or B eq 1".toList)
        (Text.isTight_of_trim_eq (by decide) (by decide))
    show (Plan.empty.require ⟨"e", .binary .eq (.field "e" "A or B") (.constant (.int32 1))⟩ .empty >>=
      fun k => Plan.empty.absorb k >>= fun q =>
        Compiler.standard.compileInto .empty q (.source "T")) = _
    rw [hrequire]
    rfl

end Runs

end TableClient
