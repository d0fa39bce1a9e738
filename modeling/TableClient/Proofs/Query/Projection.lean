import TableClient.Proofs.Expr.RowUse
import TableClient.Proofs.Keyed
import TableClient.Proofs.Query.Inert

/-! Columns of projections. The columns that one projection asks for are enough for it: on rows that have
no other members it has the same outcome, be it rows or the first failure. Along a chain the columns of all
projections are merged, and these are enough as long as the innermost projection that changes rows does not
use the row as a whole. One that does asks for no columns, but the columns that the projections after it ask
for restrict it all the same. -/

namespace TableClient

/-! ### Rows with fewer members -/

def Value.keep (test : String → Bool) : Value → Value
  | .record members => .record (members.filter (test ·.1))
  | v => v

theorem Value.readMember_keep {test : String → Bool} {name : String} (h : test name) (v : Value) :
    (v.keep test).readMember name = v.readMember name := by
  cases v with
  | record members => simp only [keep, readMember, Keyed.find?_filter h]
  | _ => rfl

theorem Value.keep_all (v : Value) : v.keep (fun _ => true) = v := by
  cases v with
  | record members => simp [keep]
  | _ => rfl

namespace Lambda

/-- The row occurs in the body other than by members that are read off it. -/
def UsesWholeRow (f : Lambda) : Prop := f.body.UsesWhole f.parameter

def Reads (f : Lambda) (name : String) : Prop := f.body.ReadsMember f.parameter name

def isIdentity (f : Lambda) : Bool :=
  match f.body with
  | .parameter p => p = f.parameter
  | _ => false

theorem isIdentity_iff {f : Lambda} : f.isIdentity ↔ f.body = .parameter f.parameter := by
  obtain ⟨p, body⟩ := f
  cases body <;> simp [isIdentity]

theorem apply_of_isIdentity {f : Lambda} (h : f.isIdentity) (row : Value) : f.apply row = .ok row := by
  rw [apply, isIdentity_iff.1 h]
  simp [Expr.evaluate, Keyed.find?]

/-- A lambda has the same value at a row that still has the members that it reads. -/
theorem apply_keep {f : Lambda} {test : String → Bool} (hwhole : ¬f.UsesWholeRow)
    (h : ∀ name, f.Reads name → test name) (row : Value) : f.apply (row.keep test) = f.apply row :=
  Expr.evaluate_congr_row hwhole fun name hreads => Value.readMember_keep (h name hreads) row

end Lambda

/-! ### One projection -/

def Plan.Asks (p : Plan) (column : String) : Prop := ∃ columns ∈ p.columns, column ∈ columns

/-- Whether the store returns a column: one that a plan asks for, or any if it does not ask for any. -/
def Plan.fetches (p : Plan) (column : String) : Bool := p.columns.all (column ∈ ·)

theorem Plan.fetches_of_asks {p : Plan} {column : String} (h : p.Asks column) : p.fetches column := by
  obtain ⟨columns, hcolumns, hmem⟩ := h
  rw [fetches, hcolumns]
  simpa using hmem

theorem Plan.columns_of_addColumns {p q : Plan} {columns : List String}
    (h : p.addColumns columns = (q, none)) :
    q.columns = some (appendNew (p.columns.getD []) columns) ∧ q.steps = p.steps := by
  simp only [addColumns] at h
  split at h
  next hlength =>
    have hall : columns.takeWhile (!isBlankName ·) = columns :=
      (List.takeWhile_prefix _).eq_of_length hlength
    cases h
    exact ⟨by rw [hall], rfl⟩
  next => cases h

/-- What a projection contributes: its function with a reduced body, and the columns of the members that
this reads, unless it uses the row as a whole. -/
structure Plan.Projects (k : Plan) (renames : Renames) (f : Lambda) : Prop where
  steps_eq : k.steps = [RowStep.map f]
  columns_eq : f.UsesWholeRow → k.columns = none
  asks : ¬f.UsesWholeRow → ∀ name, f.Reads name → k.Asks (renames.column name)

theorem Translator.projection_eq_ok {call : Call} {renames : Renames} {k : Plan}
    (h : projection.translate call renames = .ok k) :
    ∃ f body, call.lambdaOperand 1 = .ok f ∧ f.body.reduce = .ok body ∧
      k.Projects renames ⟨f.parameter, body⟩ := by
  obtain ⟨f, hf, hrest⟩ := bind_eq_ok_iff.1 h
  obtain ⟨body, hbody, hrest⟩ := bind_eq_ok_iff.1 hrest
  refine ⟨f, body, hf, hbody, ?_⟩
  have hwhole : (body.rowMembers f.parameter []).2 = true ↔
      ¬(Lambda.mk f.parameter body).UsesWholeRow := Expr.restricted_rowMembers_iff
  have hmem (name : String) : name ∈ (body.rowMembers f.parameter []).1 ↔
      (Lambda.mk f.parameter body).Reads name :=
    Expr.mem_rowMembers_iff.trans (or_iff_right List.not_mem_nil)
  cases hm : body.rowMembers f.parameter [] with
  | mk members restricted =>
    rw [hm] at hrest hwhole hmem
    dsimp only at hrest hwhole hmem
    split at hrest
    next hask =>
      have hrestricted := hwhole.1 (Bool.and_eq_true_iff.1 hask).1
      cases hadd : Plan.empty.addColumns (members.map renames.column) with
      | mk q e =>
        rw [hadd] at hrest
        cases e with
        | some e => cases hrest
        | none =>
          cases hrest
          obtain ⟨hcolumns, hsteps⟩ := Plan.columns_of_addColumns hadd
          refine ⟨by rw [Plan.addStep, hsteps]; rfl, fun h => absurd h hrestricted,
            fun _ name hreads => ⟨_, hcolumns, ?_⟩⟩
          exact Plan.mem_appendNew.2 (.inr (List.mem_map_of_mem ((hmem name).2 hreads)))
    next hask =>
      cases hrest
      refine ⟨rfl, fun _ => rfl, fun hnot name hreads => ?_⟩
      have hempty : members = [] := by simpa [hwhole.2 hnot] using hask
      rw [← hmem, hempty] at hreads
      cases hreads

/-- A projection on rows that have only the columns that its plan fetches gives what its lambda, as it was
before it was reduced, gives on the rows with all members: the same rows, or the same first failure. -/
theorem Translator.finish_projection {call : Call} {renames : Renames} {p : Plan}
    (h : projection.translate call renames = .ok p) :
    ∃ f, call.lambdaOperand 1 = .ok f ∧ ∀ rows : List Value,
      p.finish (rows.map (Value.keep fun name => p.fetches (renames.column name))) =
        rows.mapM f.apply := by
  obtain ⟨f, body, hf, hbody, hprojects⟩ := projection_eq_ok h
  refine ⟨f, hf, fun rows => ?_⟩
  have happly (row : Value) : (Lambda.mk f.parameter body).apply
      (row.keep fun name => p.fetches (renames.column name)) = f.apply row := by
    rw [← Lambda.apply_reduce hbody row]
    by_cases hwhole : (Lambda.mk f.parameter body).UsesWholeRow
    · simp only [Plan.fetches, hprojects.columns_eq hwhole, Option.all_none, Value.keep_all]
    · exact Lambda.apply_keep hwhole
        (fun name hreads => Plan.fetches_of_asks (hprojects.asks hwhole name hreads)) row
  rw [Plan.finish_of_steps_single hprojects.steps_eq, RowStep.map, List.mapM_map]
  exact congrArg (rows.mapM ·) (funext happly)

/-- A projection that reads two members, one in a branch that is not reached, of a row and of null. -/
theorem Translator.finish_projection_branch :
    let row : Expr := .parameter "e"
    let projection : Expr := .lambda "e" (.new [("X", .member row "A"),
      ("Y", .binary .or (.constant (.bool true)) (.member row "B"))])
    let call : Call := ⟨.operator "Queryable" "Select", none, [.source "T", projection]⟩
    ∃ p, Translator.projection.translate call ⟨[("A", "a")]⟩ = .ok p ∧ p.columns = some ["a", "B"] ∧
      p.finish [.record [("A", .int32 1), ("B", .null)], .null] =
        .ok [.record [("X", .int32 1), ("Y", .bool true)], .record [("X", .null), ("Y", .bool true)]] := by
  intro row projection call
  have htranslate : ∃ p, Translator.projection.translate call ⟨[("A", "a")]⟩ = .ok p ∧
      p.columns = some ["a", "B"] := ⟨_, rfl, rfl⟩
  obtain ⟨p, hp, hcolumns⟩ := htranslate
  refine ⟨p, hp, hcolumns, ?_⟩
  obtain ⟨f, hf, hfinish⟩ := finish_projection hp
  have hrows := hfinish [.record [("A", .int32 1), ("B", .null), ("C", .bool true)], .null]
  cases hf
  have hfetches : p.fetches = fun column => decide (column ∈ ["a", "B"]) :=
    funext fun column => by rw [Plan.fetches, hcolumns]; rfl
  rw [hfetches] at hrows
  exact hrows

/-! ### Chains of projections -/

def Call.projection? (c : Call) : Option Lambda :=
  if c.method.queryOperator? = some "Select" then c.predicate? else none

/-- The function of a `Select`, unless it leaves the rows as they are. -/
def Call.reshaping? (c : Call) : Option Lambda :=
  c.projection?.filter (!·.isIdentity)

/-- The innermost projection of a chain that does not leave the rows as they are. -/
def Expr.innermostReshaping? : Expr → Option Lambda
  | .call method receiver (query :: operands) =>
    query.innermostReshaping?.or (Call.reshaping? ⟨method, receiver, query :: operands⟩)
  | _ => none

namespace Plan

variable {p q : Plan} {column : String}

theorem asks_merged_iff : (p.merged q).Asks column ↔ p.Asks column ∨ q.Asks column := by
  obtain ⟨_, present, _, _⟩ := p
  obtain ⟨_, added, _, _⟩ := q
  cases added with
  | none => simp [Asks, merged, bothColumns]
  | some added =>
    cases present with
    | none => simp [Asks, merged, bothColumns, mem_appendNew]
    | some present => simp [Asks, merged, bothColumns, mem_appendNew]

end Plan

def RowStep.runAll (steps : List RowStep) : RowStep :=
  fun rows => steps.foldlM (fun rows step => step rows) rows

theorem Plan.finish_eq (p : Plan) : p.finish = RowStep.runAll p.steps := rfl

/-- Steps do the same on rows that have been changed before them, up to a change of what they give. -/
def RowStep.Commutes (steps : List RowStep) (before after : Value → Value) : Prop :=
  ∀ rows, runAll steps (rows.map before) = (runAll steps rows).map (List.map after)

namespace RowStep

variable {before between after : Value → Value} {steps more : List RowStep} {step : RowStep}

theorem runAll_append (steps more : List RowStep) (rows : List Value) :
    runAll (steps ++ more) rows = runAll steps rows >>= runAll more :=
  List.foldlM_append

theorem commutes_nil (change : Value → Value) : Commutes [] change change := fun _ => rfl

/-- Where nothing has been changed, nothing is. -/
theorem commutes_id (steps : List RowStep) : Commutes steps id id := fun rows => by
  rw [List.map_id]
  cases runAll steps rows with
  | error e => rfl
  | ok out => simp [Except.map]

theorem Commutes.append (h : Commutes steps before between) (hmore : Commutes more between after) :
    Commutes (steps ++ more) before after := by
  intro rows
  rw [runAll_append, runAll_append, h rows]
  cases runAll steps rows with
  | error e => rfl
  | ok out => exact hmore out

theorem runAll_singleton (step : RowStep) (rows : List Value) : runAll [step] rows = step rows :=
  Plan.finish_of_steps_single (p := ⟨none, none, none, [step]⟩) rfl rows

theorem commutes_singleton_iff : Commutes [step] before after ↔
    ∀ rows, step (rows.map before) = (step rows).map (List.map after) := by
  simp only [Commutes, runAll_singleton]

/-- Element operators look at the number of rows only. -/
theorem commutes_element (contract : ElementContract) {change : Value → Value}
    (hnull : change .null = .null) : Commutes [element contract] change change := by
  rw [commutes_singleton_iff]
  intro rows
  cases rows with
  | nil =>
    simp only [element, List.map_nil]
    split <;> simp [Except.map, hnull]
  | cons row rest =>
    simp only [element, List.map_cons, List.isEmpty_map]
    split <;> simp [Except.map]

theorem commutes_map {f : Lambda} (h : ∀ row, f.apply (before row) = (f.apply row).map after) :
    Commutes [map f] before after := by
  rw [commutes_singleton_iff]
  intro rows
  show List.mapM f.apply (rows.map before) = (List.mapM f.apply rows).map (List.map after)
  rw [List.mapM_map]
  induction rows with
  | nil => rfl
  | cons row rows ih =>
    rw [List.mapM_cons, List.mapM_cons, ih, Function.comp_apply, h row]
    cases f.apply row with
    | error e => rfl
    | ok v => cases rows.mapM f.apply <;> rfl

end RowStep

/-! ### What calls contribute to the shape of rows -/

namespace Translator

variable {call : Call} {renames : Renames} {k : Plan}

theorem filter_eq_ok (h : filter.translate call renames = .ok k) : k.columns = none ∧ k.steps = [] := by
  obtain ⟨f, -, hrequire⟩ := bind_eq_ok_iff.1 h
  obtain ⟨-, hsteps, hcolumns⟩ := Plan.require_eq_ok hrequire
  exact ⟨hcolumns, hsteps⟩

theorem cap_eq_ok (h : cap.translate call renames = .ok k) : k.columns = none ∧ k.steps = [] := by
  obtain ⟨count, -, hrest⟩ := bind_eq_ok_iff.1 h
  split at hrest
  · cases hrest
  · obtain ⟨v, -, hlimit⟩ := bind_eq_ok_iff.1 hrest
    split at hlimit
    · obtain ⟨-, -, rfl⟩ := Plan.limit_eq_ok hlimit
      exact ⟨rfl, rfl⟩
    · cases hlimit

theorem element_eq_ok (h : element.translate call renames = .ok k) :
    k.columns = none ∧ ∃ contract, k.steps = [RowStep.element contract] := by
  have hrest {r : Plan} {contract : ElementContract} (hr : r.columns = none ∧ r.steps = [])
      (hk : (if contract.first then r.limit 1 >>= fun q => .ok (q.addStep (.element contract))
        else .ok (r.addStep (.element contract))) = .ok k) :
      k.columns = none ∧ ∃ contract, k.steps = [RowStep.element contract] := by
    split at hk
    · obtain ⟨q, hq, ⟨⟩⟩ := bind_eq_ok_iff.1 hk
      obtain ⟨-, -, rfl⟩ := Plan.limit_eq_ok hq
      exact ⟨hr.1, contract, by rw [Plan.addStep, hr.2]; rfl⟩
    · cases hk
      exact ⟨hr.1, contract, by rw [Plan.addStep, hr.2]; rfl⟩
  rw [element] at h
  dsimp only at h
  split at h
  · cases h
  · split at h
    · obtain ⟨f, -, hnext⟩ := bind_eq_ok_iff.1 h
      obtain ⟨r, hr, hnext⟩ := bind_eq_ok_iff.1 hnext
      obtain ⟨-, hsteps, hcolumns⟩ := Plan.require_eq_ok hr
      exact hrest ⟨hcolumns, hsteps⟩ hnext
    · exact hrest ⟨rfl, rfl⟩ h

end Translator

/-- What a call contributes beside filters and caps: its projection, or at most the choice of an element. -/
inductive Call.Shapes (c : Call) (renames : Renames) (k : Plan) : Prop
  | projection {f : Lambda} {body : Expr} : c.projection? = some f → f.body.reduce = .ok body →
      k.Projects renames ⟨f.parameter, body⟩ → Shapes c renames k
  | element (contract : ElementContract) : c.projection? = none → k.columns = none →
      k.steps = [RowStep.element contract] → Shapes c renames k
  | none : c.projection? = none → k.columns = none → k.steps = [] → Shapes c renames k

namespace Compiler

variable {renames : Renames} {query : Expr} {plan p k : Plan} {c : Call}

theorem shapes_of_contributed (h : standard.contributed renames c = .ok k) : c.Shapes renames k := by
  obtain ⟨name, t, hname, ht, htranslate⟩ := contributed_eq_ok_iff.1 h
  have hother (hne : name ≠ "Select") : c.projection? = .none := by
    rw [Call.projection?, hname, if_neg (mt Option.some_inj.1 hne)]
  have haccepts := List.find?_some ht
  have hmem : t ∈ Translator.standard := List.mem_of_find?_eq_some ht
  simp only [Translator.standard, List.mem_cons, List.not_mem_nil, or_false] at hmem
  rcases hmem with rfl | rfl | rfl | rfl
  · obtain ⟨hcolumns, hsteps⟩ := Translator.filter_eq_ok htranslate
    refine .none (hother ?_) hcolumns hsteps
    rintro rfl
    exact absurd haccepts (by decide)
  · obtain ⟨f, body, hf, hbody, hprojects⟩ := Translator.projection_eq_ok htranslate
    obtain rfl : name = "Select" := by simpa [Translator.projection] using haccepts
    refine .projection ?_ hbody hprojects
    rw [Call.projection?, if_pos hname, lambdaOperand_eq_ok hf]
  · obtain ⟨hcolumns, hsteps⟩ := Translator.cap_eq_ok htranslate
    refine .none (hother ?_) hcolumns hsteps
    rintro rfl
    exact absurd haccepts (by decide)
  · obtain ⟨hcolumns, contract, hsteps⟩ := Translator.element_eq_ok htranslate
    refine .element contract (hother ?_) hcolumns hsteps
    rintro rfl
    exact absurd haccepts (by decide)

end Compiler

namespace Call.Shapes

variable {c : Call} {renames : Renames} {k : Plan}

theorem columns_eq_none (h : c.Shapes renames k) (hnone : c.reshaping? = Option.none) :
    k.columns = Option.none := by
  cases h with
  | @projection f body hf hbody hprojects =>
    have hid : f.isIdentity := by simpa [reshaping?, hf, Option.filter] using hnone
    rw [Lambda.isIdentity_iff.1 hid] at hbody
    cases hbody
    exact hprojects.columns_eq .parameter
  | element _ _ hcolumns _ => exact hcolumns
  | none _ hcolumns _ => exact hcolumns

/-- The rows of a call that changes them are the same without the members that it does not ask for. Those
of any other call lack these members. -/
theorem commutes (h : c.Shapes renames k) {test : String → Bool}
    (htest : ∀ name, k.Asks (renames.column name) → test name)
    (hwhole : ∀ f ∈ c.reshaping?, ¬f.UsesWholeRow) :
    RowStep.Commutes k.steps (Value.keep test)
      (if c.reshaping?.isSome then id else Value.keep test) := by
  cases h with
  | @projection f body hf hbody hprojects =>
    rw [hprojects.steps_eq]
    refine RowStep.commutes_map fun row => ?_
    rw [Lambda.apply_reduce hbody, Lambda.apply_reduce hbody]
    cases hid : f.isIdentity with
    | true =>
      have hnone : c.reshaping? = Option.none := by simp [reshaping?, hf, hid, Option.filter]
      rw [hnone, Lambda.apply_of_isIdentity hid, Lambda.apply_of_isIdentity hid]
      rfl
    | false =>
      have hreshaping : c.reshaping? = some f := by simp [reshaping?, hf, hid, Option.filter]
      have hnot : ¬(Lambda.mk f.parameter body).UsesWholeRow := fun hbodyWhole =>
        hwhole f hreshaping (Expr.usesWhole_of_reduce hbody hbodyWhole)
      have hsame := Lambda.apply_keep hnot (fun name hreads => htest name (hprojects.asks hnot name hreads)) row
      rw [Lambda.apply_reduce hbody, Lambda.apply_reduce hbody] at hsame
      rw [hreshaping, hsame]
      cases f.apply row <;> rfl
  | element contract hnone _ hsteps =>
    rw [hsteps, reshaping?, hnone]
    exact RowStep.commutes_element contract rfl
  | none hnone _ hsteps =>
    rw [hsteps, reshaping?, hnone]
    exact RowStep.commutes_nil _

end Call.Shapes

namespace Compiler

variable {renames : Renames} {query : Expr} {plan p : Plan}

/-- What holds of a plan at the source of a chain, and of each plan before a call if of the one after it,
holds of the plan with which a compilation that succeeds begins. -/
theorem compileInto_induction {motive : Plan → Expr → Prop}
    (h : standard.compileInto renames plan query = .ok p) (source : ∀ name, motive p (.source name))
    (call : ∀ plan method receiver query operands k,
      standard.contributed renames ⟨method, receiver, query :: operands⟩ = .ok k →
      standard.compileInto renames (plan.merged k) query = .ok p → motive (plan.merged k) query →
      motive plan (.call method receiver (query :: operands))) : motive plan query := by
  induction plan, query using compileInto.induct with
  | case1 plan name =>
    cases h
    exact source name
  | case2 plan method receiver =>
    obtain ⟨error, herror⟩ := compileInto_nil fun _ => isValid_of_contributed
    rw [herror] at h
    cases h
  | case3 plan method receiver query operands ih =>
    rw [compileInto_cons fun _ => isValid_of_contributed] at h
    obtain ⟨k, hk, hrest⟩ := bind_eq_ok_iff.1 h
    exact call plan method receiver query operands k hk hrest (ih _ hrest)
  | case4 plan e hsource hnil hcons =>
    rw [compileInto] at h
    · cases h
    · exact hsource
    · exact hnil
    · exact hcons

theorem asks_of_compileInto {column : String} (h : standard.compileInto renames plan query = .ok p)
    (hasks : plan.Asks column) : p.Asks column := by
  refine compileInto_induction (motive := fun plan _ => plan.Asks column → p.Asks column) h
    (fun _ => id) (fun plan _ _ _ _ k _ _ ih hasks => ih ?_) hasks
  exact Plan.asks_merged_iff.2 (.inl hasks)

/-- A chain whose projections leave the rows as they are asks for no columns. -/
theorem columns_of_compileInto (h : standard.compileInto renames plan query = .ok p)
    (hnone : query.innermostReshaping? = .none) : p.columns = plan.columns := by
  refine compileInto_induction
    (motive := fun plan query => query.innermostReshaping? = .none → p.columns = plan.columns) h
    (fun _ _ => rfl) ?_ hnone
  intro plan method receiver query operands k hk _ ih hnone
  rw [Expr.innermostReshaping?, Option.or_eq_none_iff] at hnone
  rw [ih hnone.1, Plan.merged, (shapes_of_contributed hk).columns_eq_none hnone.2]
  rfl

/-- The steps of a chain, on rows without the members that its plan does not ask for. -/
theorem exists_commutes (h : standard.compileInto renames plan query = .ok p) {test : String → Bool}
    (htest : ∀ name, p.Asks (renames.column name) → test name)
    (hwhole : ∀ f ∈ query.innermostReshaping?, ¬f.UsesWholeRow) :
    ∃ steps, p.steps = steps ++ plan.steps ∧ RowStep.Commutes steps (Value.keep test)
      (if query.innermostReshaping?.isSome then id else Value.keep test) := by
  refine compileInto_induction (motive := fun plan query =>
      (∀ f ∈ query.innermostReshaping?, ¬f.UsesWholeRow) →
      ∃ steps, p.steps = steps ++ plan.steps ∧ RowStep.Commutes steps (Value.keep test)
        (if query.innermostReshaping?.isSome then id else Value.keep test)) h
    (fun _ _ => ⟨[], rfl, RowStep.commutes_nil _⟩) ?_ hwhole
  intro plan method receiver query operands k hk hrest ih hwhole
  have hshapes := shapes_of_contributed hk
  have hasks {name : String} (hname : k.Asks (renames.column name)) : test name :=
    htest name (asks_of_compileInto hrest (Plan.asks_merged_iff.2 (.inr hname)))
  rw [Expr.innermostReshaping?] at hwhole ⊢
  cases hinner : query.innermostReshaping? with
  | some f =>
    rw [hinner] at ih hwhole
    obtain ⟨steps, hsteps, hcommutes⟩ := ih hwhole
    refine ⟨steps ++ k.steps, by rw [hsteps, Plan.merged, List.append_assoc], ?_⟩
    exact hcommutes.append (RowStep.commutes_id k.steps)
  | none =>
    rw [hinner] at ih hwhole
    obtain ⟨steps, hsteps, hcommutes⟩ := ih (by rintro f ⟨⟩)
    refine ⟨steps ++ k.steps, by rw [hsteps, Plan.merged, List.append_assoc], ?_⟩
    exact hcommutes.append (hshapes.commutes (fun name => hasks) hwhole)

/-- The columns of a chain are enough for it, if its innermost projection that changes the rows does not use
them as a whole: on rows that have only the columns that the plan fetches, it finishes as on the rows
with all members, with the same rows or the same failure. -/
theorem finish_fetched (h : standard.compile renames query = .ok p)
    (hwhole : ∀ f ∈ query.innermostReshaping?, ¬f.UsesWholeRow) (rows : List Value) :
    p.finish (rows.map (Value.keep fun name => p.fetches (renames.column name))) = p.finish rows := by
  cases hinner : query.innermostReshaping? with
  | none =>
    have hcolumns : p.columns = .none := columns_of_compileInto h hinner
    simp only [Plan.fetches, hcolumns, Option.all_none]
    rw [List.map_congr_left fun row _ => row.keep_all, List.map_id']
  | some f =>
    obtain ⟨steps, hsteps, hcommutes⟩ := exists_commutes h
      (fun _ => Plan.fetches_of_asks) hwhole
    rw [hinner] at hcommutes
    have hall := hcommutes.append (RowStep.commutes_id Plan.empty.steps)
    rw [← hsteps] at hall
    rw [Plan.finish_eq, hall rows]
    cases RowStep.runAll p.steps rows <;> simp [Except.map]

/-- `Select(e => e).Take(9).Select(e => new { X = e.A }).First().Select(x => x.X)`. -/
theorem finish_fetched_first :
    let row : Expr := .parameter "e"
    let reshaped : Expr := (((Expr.source "T").projected (.lambda "e" row)).limited
      (.constant (.int32 9))).projected (.lambda "e" (.new [("X", .member row "A")]))
    let query : Expr := (reshaped.operatorOn "First" []).projected
      (.lambda "x" (.member (.parameter "x") "X"))
    ∃ p, standard.compile .empty query = .ok p ∧ p.columns = some ["X", "A"] ∧
      (∀ f ∈ query.innermostReshaping?, ¬f.UsesWholeRow) ∧
      p.finish [.record [("A", .int32 1)], .null] = .ok [.int32 1] := by
  intro row reshaped query
  have hcompile : ∃ p, standard.compile .empty query = .ok p ∧ p.columns = some ["X", "A"] ∧
      p.finish [.record [("A", .int32 1), ("B", .bool true)], .null] = .ok [.int32 1] :=
    ⟨_, rfl, rfl, rfl⟩
  obtain ⟨p, hp, hcolumns, hfinish⟩ := hcompile
  have hwhole : ∀ f ∈ query.innermostReshaping?, ¬f.UsesWholeRow := by
    rintro f ⟨⟩
    exact Expr.restricted_rowMembers_iff.1 (rfl : (Expr.rowMembers "e" [] _).2 = true)
  refine ⟨p, hp, hcolumns, hwhole, ?_⟩
  have hfetches : p.fetches = fun column => decide (column ∈ ["X", "A"]) :=
    funext fun column => by rw [Plan.fetches, hcolumns]; rfl
  have hsame := finish_fetched hp hwhole [.record [("A", .int32 1), ("B", .bool true)], .null]
  rw [hfetches, hfinish] at hsame
  exact hsame

/-- `Select(e => new { W = e }).Select(x => x.W)` asks for the column `W` alone, and finishes otherwise on
rows that have no other column. -/
theorem columns_of_wrapped_row :
    let query : Expr := ((Expr.source "T").projected (.lambda "e" (.new [("W", .parameter "e")]))).projected
      (.lambda "x" (.member (.parameter "x") "W"))
    let rows : List Value := [.record [("A", .int32 1)]]
    ∃ p, standard.compile .empty query = .ok p ∧ p.columns = some ["W"] ∧ p.finish rows = .ok rows ∧
      p.finish (rows.map (Value.keep (· ∈ ["W"]))) ≠ p.finish rows := by
  intro query rows
  have hcompile : ∃ p, standard.compile .empty query = .ok p ∧ p.columns = some ["W"] ∧
      p.finish rows = .ok rows ∧ p.finish (rows.map (Value.keep (· ∈ ["W"]))) = .ok [.record []] :=
    ⟨_, rfl, rfl, rfl, rfl⟩
  obtain ⟨p, hp, hcolumns, hfinish, hkept⟩ := hcompile
  refine ⟨p, hp, hcolumns, hfinish, ?_⟩
  rw [hkept, hfinish]
  simp [rows]

end Compiler

end TableClient
