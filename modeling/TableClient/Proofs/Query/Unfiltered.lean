import TableClient.Proofs.Query.Contribution

/-! Chains without predicates. Caps are merged by their minimum and moved before all projections and
element operators, and the steps that remain run from the innermost operator outwards. The plan gives the
rows that the operators give one after another. -/

namespace TableClient

def Call.IsRowwise (c : Call) : Prop := c.IsCap ∨ c.IsProjection

/-- The element operators, if without a predicate. -/
def Call.IsPlainElement (c : Call) : Prop := c.contract?.isSome ∧ c.args.length ≤ 1

theorem RowStep.map_take {f : Lambda} {rows out : List Value} (n : Nat)
    (h : RowStep.map f rows = .ok out) : RowStep.map f (rows.take n) = .ok (out.take n) := by
  induction rows generalizing n out with
  | nil =>
    obtain rfl : out = [] := by
      cases h
      rfl
    rw [List.take_nil]
    rfl
  | cons row rows ih =>
    rw [RowStep.map, List.mapM_cons] at h
    obtain ⟨v, hv, hrest⟩ := bind_eq_ok_iff.1 h
    obtain ⟨vs, hvs, ⟨⟩⟩ := bind_eq_ok_iff.1 hrest
    cases n with
    | zero => rfl
    | succ n =>
      rw [List.take_succ_cons, List.take_succ_cons, RowStep.map, List.mapM_cons, hv, ok_bind]
      have htake := ih n hvs
      rw [RowStep.map] at htake
      rw [htake]
      rfl

theorem RowStep.map_capped {f : Lambda} {rows out : List Value} (c : Option UInt32)
    (h : RowStep.map f rows = .ok out) :
    RowStep.map f (Plan.capped c rows) = .ok (Plan.capped c out) := by
  cases c with
  | none => exact h
  | some n => exact map_take n.toNat h

/-- The cap of an element operator alone changes nothing, not even how the operator fails. -/
theorem RowStep.element_own_cap (contract : ElementContract) (rows : List Value) :
    RowStep.element contract (Plan.capped (if contract.first then some 1 else none) rows) =
      RowStep.element contract rows := by
  cases hfirst : contract.first with
  | false => rfl
  | true =>
    cases rows with
    | nil => rfl
    | cons row rows =>
      show RowStep.element contract [row] = _
      rw [RowStep.element, RowStep.element, hfirst, Bool.true_or, Bool.true_or]

section Steps

variable {plan k q : Plan} {c : Call} {renames : Renames} {name : String} {rows out : List Value}

/-- A call contributes no filter if it has no predicate. -/
theorem filter_of_contribution (hc : c.IsRowwise ∨ c.IsPlainElement)
    (hname : c.method.queryOperator? = some name)
    (hk : Compiler.standard.contribution renames c name = .ok k) : k.filter = none := by
  rcases hc with (hcap | hprojection) | ⟨hsome, hargs⟩
  · exact (contribution_cap hcap hname hk).1
  · exact (contribution_projection hprojection hname hk).1
  · obtain ⟨contract, hcontract⟩ := Option.isSome_iff_exists.1 hsome
    obtain ⟨r, hr, hfilter, -⟩ := contribution_element hcontract hname hk
    rw [if_neg (by omega)] at hr
    cases hr
    exact hfilter

/-- Absorbing an operator that works row by row, and running on its input, is running on its
output. -/
theorem Plan.run_absorb_rowwise (hc : c.IsRowwise) (hname : c.method.queryOperator? = some name)
    (hk : Compiler.standard.contribution renames c name = .ok k) (hq : plan.absorb k = .ok q)
    (hfilter : plan.filter = none) (hqfilter : q.filter = none) (hrun : c.run rows = .ok out) :
    q.run rows = plan.run out := by
  rw [(absorbed hq).run_eq, accepted_of_filter_none hqfilter, run_eq,
    accepted_of_filter_none hfilter]
  rcases hc with hcap | hprojection
  · obtain ⟨-, hsteps, -, -, hkrun⟩ := contribution_cap hcap hname hk
    rw [hkrun] at hrun
    cases hrun
    rw [finish_of_steps_nil hsteps, ok_bind]
  · obtain ⟨-, hkcap, f, hsteps, hkrun⟩ := contribution_projection hprojection hname hk
    rw [hkrun] at hrun
    have hmap : RowStep.map f (capped plan.cap (capped k.cap rows)) = .ok (capped plan.cap out) := by
      rw [hkcap]
      exact RowStep.map_capped plan.cap hrun
    rw [finish_of_steps_single hsteps, hmap, ok_bind]

/-- Absorbing an element operator, and running on its input, is running on its output too, as long
as the operator finds its row. -/
theorem Plan.run_absorb_element (hc : c.IsPlainElement)
    (hname : c.method.queryOperator? = some name)
    (hk : Compiler.standard.contribution renames c name = .ok k) (hq : plan.absorb k = .ok q)
    (hfilter : plan.filter = none) (hqfilter : q.filter = none) (hpos : plan.CapPositive)
    (hrun : c.run rows = .ok out) : q.run rows = plan.run out := by
  obtain ⟨hsome, hargs⟩ := hc
  obtain ⟨contract, hcontract⟩ := Option.isSome_iff_exists.1 hsome
  obtain ⟨-, -, -, hsteps, -⟩ := contribution_element hcontract hname hk
  rw [run_element hcontract, if_neg (by omega)] at hrun
  obtain ⟨hinner, -⟩ := RowStep.element_capped (absorbed hq).capPositive hrun
  obtain ⟨helement, hout⟩ := RowStep.element_capped hpos hinner
  rw [(absorbed hq).run_eq, accepted_of_filter_none hqfilter, finish_of_steps_single hsteps,
    helement, ok_bind, run_eq, accepted_of_filter_none hfilter, hout]

end Steps

/-! ### Runs of chains -/

theorem Expr.runChain_call {query : Expr} {rows out : List Value} {method : Method}
    {receiver : Option Expr} {operands : List Expr}
    (h : (Expr.call method receiver (query :: operands)).runChain rows = .ok out) :
    ∃ inner, query.runChain rows = .ok inner ∧
      Call.run ⟨method, receiver, query :: operands⟩ inner = .ok out := by
  rw [runChain] at h
  exact bind_eq_ok_iff.1 h

abbrev Expr.IsUnfiltered (query : Expr) : Prop :=
  query.IsChain fun c => c.IsRowwise ∨ c.IsPlainElement

section Runs

variable {plan p : Plan} {query : Expr} {renames : Renames} {rows out : List Value}

theorem filter_compileInto (hchain : query.IsUnfiltered)
    (hp : Compiler.standard.compileInto renames plan query = .ok p) (hfilter : plan.filter = none) :
    p.filter = none := by
  induction hchain generalizing plan with
  | source name =>
    cases hp
    exact hfilter
  | call hstep hquery ih =>
    obtain ⟨name, k, q, hname, hk, hq, hp⟩ := Compiler.compileInto_call hp
    have hkfilter := filter_of_contribution hstep hname hk
    exact ih hp (((Plan.absorbed hq).filter_none hkfilter).trans hfilter)

/-- The plan that a chain is compiled into runs on the rows of the source as the plan before it did on
the rows of the chain. -/
theorem run_compileInto (hchain : query.IsUnfiltered)
    (hp : Compiler.standard.compileInto renames plan query = .ok p) (hfilter : plan.filter = none)
    (hpos : plan.CapPositive) (hrun : query.runChain rows = .ok out) :
    p.run rows = plan.run out := by
  induction hchain generalizing plan out with
  | source name =>
    cases hp
    cases hrun
    rfl
  | call hstep hquery ih =>
    obtain ⟨name, k, q, hname, hk, hq, hp⟩ := Compiler.compileInto_call hp
    obtain ⟨inner, hinner, hcall⟩ := Expr.runChain_call hrun
    have habsorbed := Plan.absorbed hq
    have hqfilter := (habsorbed.filter_none (filter_of_contribution hstep hname hk)).trans hfilter
    rw [ih hp hqfilter (habsorbed.capPositive_absorbed hpos) hinner]
    rcases hstep with hrowwise | helement
    · exact Plan.run_absorb_rowwise hrowwise hname hk hq hfilter hqfilter hcall
    · exact Plan.run_absorb_element helement hname hk hq hfilter hqfilter hpos hcall

theorem Plan.run_empty (rows : List Value) : empty.run rows = .ok rows := rfl

/-- The plan of an element operator alone has its outcome, whatever that is. -/
theorem run_absorb_empty {k q : Plan} {c : Call} {name : String} (hc : c.IsPlainElement)
    (hname : c.method.queryOperator? = some name)
    (hk : Compiler.standard.contribution renames c name = .ok k)
    (hq : Plan.empty.absorb k = .ok q) (hqfilter : q.filter = none) : q.run rows = c.run rows := by
  obtain ⟨hsome, hargs⟩ := hc
  obtain ⟨contract, hcontract⟩ := Option.isSome_iff_exists.1 hsome
  obtain ⟨-, -, -, hsteps, hkcap⟩ := contribution_element hcontract hname hk
  rw [run_element hcontract, if_neg (by omega), ok_bind, (Plan.absorbed hq).run_eq,
    Plan.accepted_of_filter_none hqfilter, Plan.finish_of_steps_single hsteps, hkcap]
  show RowStep.element contract (Plan.capped _ rows) >>= Plan.empty.finish =
    RowStep.element contract rows
  rw [RowStep.element_own_cap]
  cases RowStep.element contract rows <;> rfl

/-- The plan of a chain without predicates has no filter, and gives the rows that the operators give
one after another. If an element operator comes last and the chain before it runs, the plan also fails as
the operator does. -/
theorem run_compile_unfiltered (hchain : query.IsUnfiltered)
    (hp : Compiler.standard.compile renames query = .ok p) :
    p.filter = none ∧
      (∀ rows out, query.runChain rows = .ok out → p.run rows = .ok out) ∧
      ∀ method receiver inner operands, query = .call method receiver (inner :: operands) →
        Call.IsPlainElement ⟨method, receiver, inner :: operands⟩ →
        ∀ rows mid, inner.runChain rows = .ok mid → p.run rows = query.runChain rows := by
  refine ⟨filter_compileInto hchain hp rfl, fun rows out hrun => ?_, ?_⟩
  · rw [run_compileInto hchain hp rfl Plan.capPositive_empty hrun, Plan.run_empty]
  · rintro method receiver inner operands rfl helement rows mid hmid
    cases hchain with
    | call hstep hinner =>
      obtain ⟨name, k, q, hname, hk, hq, hp⟩ := Compiler.compileInto_call hp
      have habsorbed := Plan.absorbed hq
      have hqfilter : q.filter = none :=
        habsorbed.filter_none (filter_of_contribution hstep hname hk)
      rw [run_compileInto hinner hp hqfilter (habsorbed.capPositive_absorbed Plan.capPositive_empty)
        hmid, run_absorb_empty helement hname hk hq hqfilter, Expr.runChain, hmid, ok_bind]

/-- The first of the columns of two rows. -/
theorem run_compile_unfiltered_first :
    let query : Expr := Expr.operatorOn (.projected (.limited (.source "T") (.constant (.int32 2)))
      (.lambda "e" (.member (.parameter "e") "A"))) "First" []
    let rows : List Value := [.record [("A", .int32 1)], .record [("A", .int32 2)], .null]
    ∃ p, Compiler.standard.compile .empty query = .ok p ∧ p.run rows = .ok [.int32 1] := by
  intro query rows
  have hchain : query.IsUnfiltered := by
    refine .call (.inr ⟨rfl, by decide⟩) (.call (.inl (.inr rfl)) (.call (.inl (.inl rfl)) ?_))
    exact .source "T"
  have hcompile : ∃ p, Compiler.standard.compile .empty query = .ok p := ⟨_, rfl⟩
  obtain ⟨p, hp⟩ := hcompile
  exact ⟨p, hp, (run_compile_unfiltered hchain hp).2.1 rows [.int32 1] rfl⟩

end Runs

end TableClient
