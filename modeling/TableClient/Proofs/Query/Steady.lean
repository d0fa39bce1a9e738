import TableClient.Proofs.Query.Contribution
import TableClient.Proofs.Query.Selection

/-! What a call of a chain does with its rows, in the terms of what it contributes: it keeps the rows that
its predicate is true of, and then cuts them at its cap or picks its element. And when a call may trade
places with the predicates outside of it, which the plan of the chain makes it do. -/

namespace TableClient

/-- What a predicate says of a row, if it is true or false of it. -/
def Lambda.test? (f : Lambda) (row : Value) : Option Bool :=
  match f.apply row with
  | .ok (.bool b) => some b
  | _ => none

theorem Lambda.test?_eq_some_iff {f : Lambda} {row : Value} {b : Bool} :
    f.test? row = some b ↔ f.apply row = .ok (.bool b) := by
  rw [test?]
  split
  next c h => simp [h]
  next h =>
    constructor
    · nofun
    · exact fun heq => absurd heq (h b)

/-- All predicates of the calls are true of the row. -/
def Call.wanted (calls : List Call) (row : Value) : Bool :=
  calls.all fun c => c.predicate?.all fun f => f.test? row = some true

/-- Some predicate of the calls is false of the row. -/
def Call.unwanted (calls : List Call) (row : Value) : Bool :=
  calls.any fun c => c.predicate?.any fun f => f.test? row = some false

/-- Whether a call leaves the same rows when the predicates outside of it are asked before it. They are
true of all rows that it leaves; or, of a cap, one of them is false of each row beyond it, or they are
true of as many rows within as a cap outside leaves; or an element operator gives null for no rows,
where no row that reaches it gets through, and is followed by another one. -/
def Call.steady (outer : List Call) (c : Call) (rows : List Value) : Bool :=
  match c.run rows with
  | .error _ => true
  | .ok out => out.all (wanted outer) ||
    match c.contract?, c.cap? with
    | some contract, _ =>
      contract.orDefault && outer.any (·.contract?.isSome) && rows.all (unwanted (c :: outer))
    | none, some n =>
      (rows.drop n).all (unwanted outer) ||
        outer.any fun d => d.cap?.any (· ≤ out.countP (wanted outer))
    | none, none => true

/-- Each call of a chain is steady on the rows that reach it, before the calls outside of it. -/
def Expr.steady (source : List Value) (outer : List Call) : Expr → Bool
  | .call method receiver (query :: operands) =>
    (match query.runChain source with
      | .ok rows => Call.steady outer ⟨method, receiver, query :: operands⟩ rows
      | .error _ => true) &&
    query.steady source (⟨method, receiver, query :: operands⟩ :: outer)
  | _ => true

/-! ### Chains that are steady on all rows -/

/-- The chains in which no cap and no element operator comes before a predicate. -/
inductive Expr.FiltersFirst : Expr → Prop
  | filters {query : Expr} : query.IsChain Call.IsFilter → FiltersFirst query
  /-- An element operator can have the last of the predicates. -/
  | last {method : Method} {receiver : Option Expr} {query : Expr} {operands : List Expr} :
      query.IsChain Call.IsFilter → FiltersFirst (.call method receiver (query :: operands))
  | call {method : Method} {receiver : Option Expr} {query : Expr} {operands : List Expr} :
      Call.predicate? ⟨method, receiver, query :: operands⟩ = none → FiltersFirst query →
      FiltersFirst (.call method receiver (query :: operands))

section FiltersFirst

variable {c : Call} {outer : List Call} {source rows : List Value} {query : Expr}

theorem Call.IsFilter.contract?_eq (hc : c.IsFilter) : c.contract? = none := by
  rw [contract?, hc]
  rfl

theorem Call.IsFilter.cap?_eq (hc : c.IsFilter) : c.cap? = none := by
  have hnotTake : c.method.queryOperator? ≠ some "Take" := by
    rw [hc]
    decide
  rw [cap?, hc.contract?_eq]
  exact if_neg hnotTake

theorem Call.IsFilter.steady (hc : c.IsFilter) : c.steady outer rows := by
  rw [Call.steady, hc.contract?_eq, hc.cap?_eq]
  split
  · rfl
  · simp

/-- A call is steady before calls without predicates. -/
theorem Call.steady_of_unconstrained (h : ∀ d ∈ outer, d.predicate? = none) :
    c.steady outer rows := by
  have hwanted (row : Value) : wanted outer row :=
    List.all_eq_true.2 fun d hd => by rw [h d hd]; rfl
  rw [steady]
  split
  · rfl
  · simp [hwanted]

theorem Expr.IsChain.steady (h : query.IsChain Call.IsFilter) : query.steady source outer := by
  induction h generalizing outer with
  | source name => rfl
  | call hstep hquery ih =>
    rw [Expr.steady, ih, Bool.and_true]
    split
    · exact hstep.steady
    · rfl

theorem Expr.FiltersFirst.steady (h : query.FiltersFirst)
    (houter : ∀ d ∈ outer, d.predicate? = none) : query.steady source outer := by
  induction h generalizing outer with
  | filters hchain => exact hchain.steady
  | last hchain =>
    rw [Expr.steady, hchain.steady, Bool.and_true]
    split
    · exact Call.steady_of_unconstrained houter
    · rfl
  | call hnone hquery ih =>
    rw [Expr.steady, ih (List.forall_mem_cons.2 ⟨hnone, houter⟩), Bool.and_true]
    split
    · exact Call.steady_of_unconstrained houter
    · rfl

end FiltersFirst

/-! ### Selective calls -/

/-- The calls of `Where`, `Take` and the element operators, their predicates plain formulas whose members
are stored under the names of their columns. -/
structure Call.IsSelective (renames : Renames) (source : List Value) (c : Call) : Prop where
  operator : c.IsCap ∨ c.IsFilter ∨ c.contract?.isSome
  predicate : ∀ f ∈ c.predicate?, ∃ g : Formula, ∃ param, f = g.lambda param ∧ g.IsPlain renames ∧
    ∀ row ∈ source, g.Stored renames row row

/-- The rows of a source, and the null row that an element operator can put in their place. -/
def IsRowOf (source : List Value) (row : Value) : Prop := row ∈ source ∨ row = .null

theorem Lambda.select_eq_ok {f : Lambda} {rows out : List Value} {a : Value → Bool}
    (h : f.select rows = .ok out)
    (ha : ∀ row ∈ rows, ∀ b, f.apply row = .ok (.bool b) → a row = b) : out = rows.filter a := by
  induction rows generalizing out with
  | nil =>
    cases h
    rfl
  | cons row rows ih =>
    rw [select] at h
    obtain ⟨v, hv, hcond⟩ := bind_eq_ok_iff.1 h
    obtain ⟨b, hb, hrest⟩ := bind_eq_ok_iff.1 hcond
    obtain ⟨kept, hkept, ⟨⟩⟩ := bind_eq_ok_iff.1 hrest
    rw [Value.toCondition_eq_ok_iff.1 hb] at hv
    have htail := ih hkept fun r hr => ha r (List.mem_cons_of_mem _ hr)
    rw [List.filter_cons, ha row List.mem_cons_self b hv, htail]

/-! ### Contributions to a selection -/

/-- What a call does with rows, in the terms of its contribution: `b` stands for its predicate. -/
structure Call.Contributes (source : List Value) (c : Call) (k : Plan) (b : Value → Bool) : Prop where
  selects : k.Selects b
  cap_eq : k.cap.map UInt32.toNat = c.cap?
  steps_eq : k.steps = (c.contract?.map RowStep.element).toList
  /-- Without a predicate all rows are selected. -/
  selects_all : c.predicate? = none → ∀ row, b row
  /-- Only an element operator has a cap beside a predicate. -/
  cap_alone : c.contract? = none → ∀ n ∈ k.cap, c.predicate? = none
  selects_iff : ∀ f ∈ c.predicate?, ∀ row, IsRowOf source row →
    ∀ v, f.apply row = .ok (.bool v) → b row = v
  run_eq : ∀ rows, (∀ row ∈ rows, IsRowOf source row) → ∀ out, c.run rows = .ok out →
    (match c.contract? with
      | some contract => RowStep.element contract (rows.filter b)
      | none => .ok (Plan.capped k.cap (rows.filter b))) = .ok out

section Contributions

variable {source : List Value} {renames : Renames} {c : Call} {k : Plan} {name : String}

/-- Every row of the source, and null, has the members that a predicate of the chain tests. -/
theorem Formula.stored_of_isRowOf {f : Formula}
    (h : ∀ row ∈ source, f.Stored renames row row) {row : Value} (hrow : IsRowOf source row) :
    f.Stored renames row row := by
  rcases hrow with hmem | rfl
  · exact h row hmem
  · exact fun t _ => rfl

/-- A required predicate of a selective call. -/
theorem Call.IsSelective.selects_require (hc : c.IsSelective renames source) {f : Lambda}
    (hf : c.predicate? = some f) (h : Plan.empty.require f renames = .ok k) :
    ∃ b, k.Selects b ∧ ∀ row, IsRowOf source row →
      ∀ v, f.apply row = .ok (.bool v) → b row = v := by
  obtain ⟨g, param, rfl, hplain, hstored⟩ := hc.predicate f hf
  obtain ⟨b, hb, htells⟩ := Plan.selects_require hplain h
  exact ⟨b, hb, fun row hrow => htells row (g.stored_of_isRowOf hstored hrow)⟩

theorem contributes_filter (hc : c.IsSelective renames source) (hfilter : c.IsFilter)
    (hname : c.method.queryOperator? = some name)
    (hk : Compiler.standard.contribution renames c name = .ok k) :
    ∃ b, c.Contributes source k b := by
  obtain ⟨f, hf, hrequire, hrun⟩ := contribution_filter hfilter hname hk
  obtain ⟨b, hb, htells⟩ := hc.selects_require hf hrequire
  obtain ⟨hcap, hsteps, -⟩ := Plan.require_eq_ok hrequire
  have hcontract := hfilter.contract?_eq
  refine ⟨b, hb, ?_, ?_, ?_, ?_, ?_, ?_⟩
  · rw [hcap, hfilter.cap?_eq]
    rfl
  · rw [hsteps, hcontract]
    rfl
  · rw [hf]
    rintro ⟨⟩
  · rw [hcap]
    rintro _ n ⟨⟩
  · rw [hf]
    rintro _ ⟨⟩
    exact htells
  · intro rows hrows out hout
    rw [hrun] at hout
    rw [hcontract, hcap, Lambda.select_eq_ok hout fun row hrow => htells row (hrows row hrow)]
    rfl

theorem contributes_cap (hcap : c.IsCap) (hname : c.method.queryOperator? = some name)
    (hk : Compiler.standard.contribution renames c name = .ok k) :
    ∃ b, c.Contributes source k b := by
  obtain ⟨hfilter, hsteps, hnone, hcapEq, hrun⟩ := contribution_cap hcap hname hk
  have hcontract : c.contract? = none := by
    rw [Call.contract?, hcap]
    rfl
  have hall (rows : List Value) : rows.filter (fun _ => true) = rows :=
    List.filter_eq_self.2 fun _ _ => rfl
  refine ⟨fun _ => true, .all hfilter fun _ => rfl, hcapEq, ?_, fun _ _ => rfl,
    fun _ _ _ => hnone, ?_, ?_⟩
  · rw [hsteps, hcontract]
    rfl
  · rw [hnone]
    rintro f ⟨⟩
  · intro rows _ out hout
    rw [hcontract, hall]
    exact (hrun rows).symm.trans hout

theorem contributes_element (hc : c.IsSelective renames source) {contract : ElementContract}
    (hcontract : c.contract? = some contract) (hname : c.method.queryOperator? = some name)
    (hk : Compiler.standard.contribution renames c name = .ok k) :
    ∃ b, c.Contributes source k b := by
  obtain ⟨r, hr, hfilter, hsteps, hcap⟩ := contribution_element hcontract hname hk
  have hcapEq : k.cap.map UInt32.toNat = c.cap? := by
    simp only [hcap, Call.cap?, hcontract]
    cases contract.first <;> rfl
  have hstepsEq : k.steps = (c.contract?.map RowStep.element).toList := by
    rw [hsteps, hcontract]
    rfl
  have halone : c.contract? = none → ∀ n ∈ k.cap, c.predicate? = none := by
    rw [hcontract]
    rintro ⟨⟩
  have hrun := run_element hcontract
  split at hr
  next hargs =>
    obtain ⟨f, hlambda, hrequire⟩ := bind_eq_ok_iff.1 hr
    have hf := lambdaOperand_eq_ok hlambda
    obtain ⟨b, hb, htells⟩ := hc.selects_require hf hrequire
    refine ⟨b, hb.of_filter_eq hfilter, hcapEq, hstepsEq, ?_, halone, ?_, ?_⟩
    · rw [hf]
      rintro ⟨⟩
    · rw [hf]
      rintro _ ⟨⟩
      exact htells
    · intro rows hrows out hout
      rw [hrun, if_pos hargs, hlambda, ok_bind] at hout
      obtain ⟨kept, hkept, helement⟩ := bind_eq_ok_iff.1 hout
      rw [hcontract, ← Lambda.select_eq_ok hkept fun row hrow => htells row (hrows row hrow)]
      exact helement
  next hargs =>
    cases hr
    have hnone : c.predicate? = none := by
      rw [Call.predicate?, List.getElem?_eq_none (by omega)]
      rfl
    refine ⟨fun _ => true, Plan.selects_empty.of_filter_eq hfilter, hcapEq, hstepsEq,
      fun _ _ => rfl, halone, ?_, ?_⟩
    · rw [hnone]
      rintro f ⟨⟩
    · intro rows _ out hout
      rw [hrun, if_neg hargs] at hout
      rw [hcontract, List.filter_eq_self.2 fun _ _ => rfl]
      exact hout

/-- Every selective call does with rows what it contributes. -/
theorem contributes (hc : c.IsSelective renames source)
    (hname : c.method.queryOperator? = some name)
    (hk : Compiler.standard.contribution renames c name = .ok k) :
    ∃ b, c.Contributes source k b := by
  rcases hc.operator with hcap | hfilter | helement
  · exact contributes_cap hcap hname hk
  · exact contributes_filter hc hfilter hname hk
  · obtain ⟨contract, hcontract⟩ := Option.isSome_iff_exists.1 helement
    exact contributes_element hc hcontract hname hk

end Contributions

end TableClient
