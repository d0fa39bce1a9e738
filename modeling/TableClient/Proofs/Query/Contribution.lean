import TableClient.Proofs.Expr.Reduce
import TableClient.Proofs.Keyed
import TableClient.Proofs.Query.Plan
import TableClient.Query.Compiler

/-! What the calls of a chain contribute to its plan, beside what they do to rows. -/

namespace TableClient

/-- A chain of operator calls over a source, with a property that each of its calls has. -/
inductive Expr.IsChain (step : Call → Prop) : Expr → Prop
  | source (name : String) : IsChain step (.source name)
  | call {method : Method} {receiver : Option Expr} {query : Expr} {operands : List Expr} :
      step ⟨method, receiver, query :: operands⟩ → IsChain step query →
      IsChain step (.call method receiver (query :: operands))

def Call.contract? (c : Call) : Option ElementContract :=
  c.method.queryOperator?.bind (Keyed.find? · ElementContract.operators)

def Call.predicate? (c : Call) : Option Lambda :=
  c.args[1]?.bind Expr.lambda?

/-- As many rows as a call leaves at most, as far as that is known before it runs. -/
def Call.cap? (c : Call) : Option Nat :=
  match c.contract? with
  | some contract => if contract.first then some 1 else none
  | none =>
    if c.method.queryOperator? = some "Take" then (c.operand 1 >>= Expr.capCount).toOption else none

def Call.IsCap (c : Call) : Prop := c.method.queryOperator? = some "Take"

def Call.IsProjection (c : Call) : Prop := c.method.queryOperator? = some "Select"

def Call.IsFilter (c : Call) : Prop := c.method.queryOperator? = some "Where"

namespace Compiler

variable {renames : Renames} {plan p : Plan} {method : Method} {receiver : Option Expr}
  {query : Expr} {operands : List Expr}

theorem compileInto_call (h : standard.compileInto renames plan
      (.call method receiver (query :: operands)) = .ok p) :
    ∃ name k q, method.queryOperator? = some name ∧
      standard.contribution renames ⟨method, receiver, query :: operands⟩ name = .ok k ∧
      plan.absorb k = .ok q ∧ standard.compileInto renames q query = .ok p := by
  rw [compileInto] at h
  obtain ⟨name, hname, h⟩ := bind_eq_ok_iff.1 h
  obtain ⟨k, hk, h⟩ := bind_eq_ok_iff.1 h
  obtain ⟨q, hq, h⟩ := bind_eq_ok_iff.1 h
  refine ⟨name, k, q, ?_, hk, hq, h⟩
  rw [chainOperator] at hname
  split at hname
  next found => cases hname; exact found
  next => split at hname <;> cases hname

end Compiler

variable {c : Call} {k : Plan} {renames : Renames} {name : String}

theorem operand_eq_ok {index : Nat} {e : Expr} (h : c.operand index = .ok e) :
    c.args[index]? = some e := by
  rw [Call.operand] at h
  split at h
  next heq =>
    cases h
    exact heq
  next => cases h

/-- The predicate of a call is its lambda operand. -/
theorem lambdaOperand_eq_ok {f : Lambda} (h : c.lambdaOperand 1 = .ok f) :
    c.predicate? = some f := by
  obtain ⟨e, he, hlambda⟩ := bind_eq_ok_iff.1 h
  split at hlambda
  next heq =>
    cases hlambda
    rw [Call.predicate?, operand_eq_ok he]
    exact heq
  next => cases hlambda

/-- `Take` contributes the cap by which it takes rows. -/
theorem contribution_cap (hc : c.IsCap) (hname : c.method.queryOperator? = some name)
    (h : Compiler.standard.contribution renames c name = .ok k) :
    k.filter = none ∧ k.steps = [] ∧ c.predicate? = none ∧ k.cap.map UInt32.toNat = c.cap? ∧
      ∀ rows, c.run rows = .ok (Plan.capped k.cap rows) := by
  obtain rfl : name = "Take" := Option.some_inj.1 (hname.symm.trans hc)
  have htranslate : Translator.cap.translate c renames = .ok k := h
  obtain ⟨count, hcount, hrest⟩ := bind_eq_ok_iff.1 htranslate
  split at hrest
  · cases hrest
  · obtain ⟨v, hv, hlimit⟩ := bind_eq_ok_iff.1 hrest
    split at hlimit
    next n hn =>
      obtain ⟨hpos, hlt, rfl⟩ := Plan.limit_eq_ok hlimit
      have hcap : count.capCount = .ok n.toInt.toNat := by
        rw [Expr.capCount, hv, ok_bind, hn]
      have htake : (UInt32.ofNat n.toInt.toNat).toNat = n.toInt.toNat :=
        UInt32.toNat_ofNat_of_lt' hlt
      have hcontract : c.contract? = none := by
        rw [Call.contract?, hc]
        rfl
      refine ⟨rfl, rfl, ?_, ?_, fun rows => ?_⟩
      · -- a lambda does not fold
        rw [Call.predicate?, operand_eq_ok hcount, Option.bind_some]
        cases count with
        | lambda => cases hv
        | _ => rfl
      · simp only [Call.cap?, hcontract, if_pos hname, hcount, ok_bind, hcap]
        exact congrArg some htake
      · rw [Call.run, hname]
        simp only [hcount, ok_bind, hcap, Plan.capped, Plan.minCap, Plan.empty, htake]
    next => cases hlimit

/-- `Select` contributes the projection itself, if with a reduced body. -/
theorem contribution_projection (hc : c.IsProjection)
    (hname : c.method.queryOperator? = some name)
    (h : Compiler.standard.contribution renames c name = .ok k) :
    k.filter = none ∧ k.cap = none ∧
      ∃ f : Lambda, k.steps = [RowStep.map f] ∧ ∀ rows, c.run rows = RowStep.map f rows := by
  obtain rfl : name = "Select" := Option.some_inj.1 (hname.symm.trans hc)
  have htranslate : Translator.projection.translate c renames = .ok k := h
  obtain ⟨f, hf, hrest⟩ := bind_eq_ok_iff.1 htranslate
  obtain ⟨body, hbody, hrest⟩ := bind_eq_ok_iff.1 hrest
  have hmap : RowStep.map ⟨f.parameter, body⟩ = RowStep.map f := by
    funext rows
    have happly : (Lambda.mk f.parameter body).apply = f.apply :=
      funext fun row => Lambda.apply_reduce hbody row
    rw [RowStep.map, happly, RowStep.map]
  have hplan : k.filter = none ∧ k.cap = none ∧ k.steps = [RowStep.map ⟨f.parameter, body⟩] := by
    cases hm : body.rowMembers f.parameter [] with
    | mk members restricted =>
      rw [hm] at hrest
      dsimp only at hrest
      split at hrest
      · obtain ⟨hcap, hsteps, hfilter⟩ := Plan.empty.addColumns_fst (members.map renames.column)
        cases hadd : Plan.empty.addColumns (members.map renames.column) with
        | mk q e =>
          rw [hadd] at hrest hcap hsteps hfilter
          cases e with
          | some e => cases hrest
          | none =>
            cases hrest
            exact ⟨hfilter, hcap, by rw [Plan.addStep, hsteps]; rfl⟩
      · cases hrest
        exact ⟨rfl, rfl, rfl⟩
  refine ⟨hplan.1, hplan.2.1, f, hmap ▸ hplan.2.2, fun rows => ?_⟩
  rw [Call.run, hname]
  simp only [hf, ok_bind]

/-- `Where` contributes its predicate and keeps the rows that the predicate is true of. -/
theorem contribution_filter (hc : c.IsFilter) (hname : c.method.queryOperator? = some name)
    (h : Compiler.standard.contribution renames c name = .ok k) :
    ∃ f, c.predicate? = some f ∧ Plan.empty.require f renames = .ok k ∧
      ∀ rows, c.run rows = f.select rows := by
  obtain rfl : name = "Where" := Option.some_inj.1 (hname.symm.trans hc)
  have htranslate : Translator.filter.translate c renames = .ok k := h
  obtain ⟨f, hf, hrequire⟩ := bind_eq_ok_iff.1 htranslate
  refine ⟨f, lambdaOperand_eq_ok hf, hrequire, fun rows => ?_⟩
  rw [Call.run, hname]
  simp only [hf, ok_bind]

/-- Element operators are known by the names of their contracts. -/
theorem ofName_of_contract {contract : ElementContract}
    (hname : c.method.queryOperator? = some name) (hc : c.contract? = some contract) :
    (name, contract) ∈ ElementContract.operators ∧ ElementContract.ofName name = contract := by
  rw [Call.contract?, hname, Option.bind_some] at hc
  have hall : ∀ p ∈ ElementContract.operators, ElementContract.ofName p.1 = p.2 := by decide
  have hmem := Keyed.mem_of_find? hc
  exact ⟨hmem, hall _ hmem⟩

/-- An element operator runs on the rows that its predicate keeps, if it has one. -/
theorem run_element {contract : ElementContract} (hc : c.contract? = some contract)
    (rows : List Value) :
    c.run rows = (do
      let rows ← if 1 < c.args.length then (← c.lambdaOperand 1).select rows else .ok rows
      RowStep.element contract rows) := by
  obtain ⟨name, hname, hfind⟩ := Option.bind_eq_some_iff.1 hc
  have hne : name ≠ "Where" ∧ name ≠ "Select" ∧ name ≠ "Take" := by
    have hall : ∀ p ∈ ElementContract.operators, p.1 ≠ "Where" ∧ p.1 ≠ "Select" ∧ p.1 ≠ "Take" := by
      decide
    exact hall _ (Keyed.mem_of_find? hfind)
  rw [Call.run, hname]
  split
  next heq => exact absurd (Option.some_inj.1 heq) hne.1
  next heq => exact absurd (Option.some_inj.1 heq) hne.2.1
  next heq => exact absurd (Option.some_inj.1 heq) hne.2.2
  next heq =>
    cases heq
    simp only [hfind]
  next heq => cases heq

/-- An element operator contributes its predicate as a filter, a cap of one if it takes the first row,
and the check of its contract. -/
theorem contribution_element {contract : ElementContract} (hc : c.contract? = some contract)
    (hname : c.method.queryOperator? = some name)
    (h : Compiler.standard.contribution renames c name = .ok k) :
    ∃ r, (if 1 < c.args.length then do Plan.empty.require (← c.lambdaOperand 1) renames
        else .ok Plan.empty) = .ok r ∧
      k.filter = r.filter ∧ k.steps = [RowStep.element contract] ∧
      k.cap = if contract.first then some 1 else none := by
  obtain ⟨hmem, hofName⟩ := ofName_of_contract hname hc
  have htranslate : Translator.element.translate c renames = .ok k := by
    rw [← h]
    simp only [ElementContract.operators, List.mem_cons, Prod.mk.injEq, List.not_mem_nil,
      or_false] at hmem
    rcases hmem with ⟨rfl, -⟩ | ⟨rfl, -⟩ | ⟨rfl, -⟩ | ⟨rfl, -⟩ <;> rfl
  -- the cap and the check, after the predicate
  have hrest {r : Plan} (hcap : r.cap = none) (hsteps : r.steps = [])
      (hr : (if contract.first then r.limit 1 >>= fun q => .ok (q.addStep (.element contract))
        else .ok (r.addStep (.element contract))) = .ok k) :
      k.filter = r.filter ∧ k.steps = [RowStep.element contract] ∧
        k.cap = if contract.first then some 1 else none := by
    split at hr
    next hfirst =>
      obtain ⟨q, hq, ⟨⟩⟩ := bind_eq_ok_iff.1 hr
      obtain ⟨-, -, rfl⟩ := Plan.limit_eq_ok hq
      exact ⟨rfl, by rw [Plan.addStep, hsteps]; rfl, by rw [if_pos hfirst, Plan.addStep, hcap]; rfl⟩
    next hfirst =>
      cases hr
      exact ⟨rfl, by rw [Plan.addStep, hsteps]; rfl, by rw [if_neg hfirst, Plan.addStep, hcap]⟩
  simp only [Translator.element, hname, hofName] at htranslate
  split at htranslate
  next hargs =>
    obtain ⟨f, hf, hnext⟩ := bind_eq_ok_iff.1 htranslate
    obtain ⟨r, hr, hnext⟩ := bind_eq_ok_iff.1 hnext
    obtain ⟨hcap, hsteps, -⟩ := Plan.require_eq_ok hr
    refine ⟨r, ?_, hrest hcap hsteps hnext⟩
    rw [if_pos hargs, hf, ok_bind, hr]
  next hargs => exact ⟨.empty, by rw [if_neg hargs], hrest rfl rfl htranslate⟩

/-! ### Element operators on few rows -/

section Elements

variable {contract : ElementContract} {rows out : List Value}

/-- An element operator leaves the first row, or null where it gives a default for no rows. -/
theorem RowStep.element_eq_ok (h : RowStep.element contract rows = .ok out) :
    ∃ row, out = [row] ∧ (rows = [] ∧ row = .null ∨
      ∃ rest, rows = row :: rest ∧ (contract.first || rest.isEmpty)) := by
  cases rows with
  | nil =>
    rw [element] at h
    split at h
    · cases h
      exact ⟨_, rfl, .inl ⟨rfl, rfl⟩⟩
    · cases h
  | cons row rest =>
    rw [element] at h
    split at h
    next hone =>
      cases h
      exact ⟨_, rfl, .inr ⟨rest, rfl, hone⟩⟩
    next => cases h

/-- The row that an element operator leaves is still there after any cap that is not zero. -/
theorem RowStep.element_capped {p : Plan} (hp : p.CapPositive)
    (h : RowStep.element contract rows = .ok out) :
    RowStep.element contract (Plan.capped p.cap rows) = .ok out ∧ Plan.capped p.cap out = out := by
  obtain ⟨row, rfl, ⟨rfl, -⟩ | ⟨rest, rfl, hone⟩⟩ := element_eq_ok h
  · rw [Plan.capped_nil]
    exact ⟨h, hp.capped_singleton row⟩
  · refine ⟨?_, hp.capped_singleton row⟩
    cases hc : p.cap with
    | none => exact h
    | some n =>
      -- the first row stays, and no row comes after it where none did
      obtain ⟨m, hm⟩ : ∃ m, n.toNat = m + 1 := Nat.exists_eq_succ_of_ne_zero (Nat.ne_of_gt (hp n hc))
      have hrest : contract.first || (rest.take m).isEmpty := by
        rw [Bool.or_eq_true] at hone ⊢
        refine hone.imp_right fun hempty => ?_
        rw [List.isEmpty_iff] at hempty
        rw [hempty, List.take_nil]
        rfl
      rw [Plan.capped, hm, List.take_succ_cons, element, if_pos hrest]

end Elements

end TableClient
