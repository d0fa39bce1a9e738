import TableClient.Expr.Native
import TableClient.Proofs.Query.Merge
import TableClient.Query.Compiler

/-! Compilation call by call. Each call of a chain contributes a plan, and the plan of the chain is that of
its outermost call with the plan of the rest absorbed, whoever wrote the translators. That the compiler
merges from the outside inwards and decides about parentheses on the way makes no difference, if each
contribution closes the parentheses and quotes of its filter. -/

namespace TableClient

/-! ### The translators of the library -/

namespace Translator

variable {call : Call} {renames : Renames} {k : Plan}

theorem built_require {p q : Plan} {f : Lambda} (hp : p.Built) (h : p.require f renames = .ok q) :
    q.Built := by
  obtain ⟨text, -, hrest⟩ := bind_eq_ok_iff.1 h
  simp only at hrest
  split at hrest
  · cases hrest
    exact hp
  · exact hp.addFilter hrest

theorem built_filter (h : filter.translate call renames = .ok k) : k.Built := by
  obtain ⟨f, -, hrequire⟩ := bind_eq_ok_iff.1 h
  exact built_require .empty hrequire

theorem built_projection (h : projection.translate call renames = .ok k) : k.Built := by
  obtain ⟨f, -, hrest⟩ := bind_eq_ok_iff.1 h
  obtain ⟨body, -, hrest⟩ := bind_eq_ok_iff.1 hrest
  cases hm : body.rowMembers f.parameter [] with
  | mk members restricted =>
    rw [hm] at hrest
    dsimp only at hrest
    split at hrest
    · have hcolumns := Plan.Built.empty.addColumns (members.map renames.column)
      cases hadd : Plan.empty.addColumns (members.map renames.column) with
      | mk q error =>
        rw [hadd] at hrest hcolumns
        cases error with
        | some error => cases hrest
        | none =>
          cases hrest
          exact hcolumns.addStep _
    · cases hrest
      exact Plan.Built.empty.addStep _

theorem built_cap (h : cap.translate call renames = .ok k) : k.Built := by
  obtain ⟨count, -, hrest⟩ := bind_eq_ok_iff.1 h
  split at hrest
  · cases hrest
  · obtain ⟨v, -, hlimit⟩ := bind_eq_ok_iff.1 hrest
    split at hlimit
    · exact Plan.Built.empty.limit hlimit
    · cases hlimit

theorem built_element (h : element.translate call renames = .ok k) : k.Built := by
  have hrest {r : Plan} {contract : ElementContract} (hr : r.Built)
      (hk : (if contract.first then r.limit 1 >>= fun q => .ok (q.addStep (.element contract))
        else .ok (r.addStep (.element contract))) = .ok k) : k.Built := by
    split at hk
    · obtain ⟨q, hq, ⟨⟩⟩ := bind_eq_ok_iff.1 hk
      exact (hr.limit hq).addStep _
    · cases hk
      exact hr.addStep _
  rw [element] at h
  dsimp only at h
  split at h
  · cases h
  · split at h
    · obtain ⟨f, -, hnext⟩ := bind_eq_ok_iff.1 h
      obtain ⟨r, hr, hnext⟩ := bind_eq_ok_iff.1 hnext
      exact hrest (built_require .empty hr) hnext
    · exact hrest .empty h

/-- The translators of the library make their plans by the operations on plans. -/
theorem built_of_mem_standard {t : Translator} (ht : t ∈ standard)
    (h : t.translate call renames = .ok k) : k.Built := by
  simp only [standard, List.mem_cons, List.not_mem_nil, or_false] at ht
  rcases ht with rfl | rfl | rfl | rfl
  · exact built_filter h
  · exact built_projection h
  · exact built_cap h
  · exact built_element h

end Translator

/-! ### One call after another -/

namespace Compiler

/-- What a call contributes, if it has its place in a chain. -/
def contributed (c : Compiler) (renames : Renames) (call : Call) : Except QueryError Plan := do
  let operator ← chainOperator call.method
  c.contribution renames call operator

inductive Contributes (c : Compiler) (renames : Renames) : Expr → Plan → Prop
  | outermost {method : Method} {receiver : Option Expr} {args : List Expr} {k : Plan} :
      c.contributed renames ⟨method, receiver, args⟩ = .ok k →
      Contributes c renames (.call method receiver args) k
  | further {method : Method} {receiver : Option Expr} {query : Expr} {operands : List Expr}
      {k : Plan} : Contributes c renames query k →
      Contributes c renames (.call method receiver (query :: operands)) k

variable {c : Compiler} {renames : Renames} {e query : Expr} {p q k : Plan} {method : Method}
  {receiver : Option Expr} {operands : List Expr}

theorem contributes_cons : Contributes c renames (.call method receiver (query :: operands)) k ↔
    c.contributed renames ⟨method, receiver, query :: operands⟩ = .ok k ∨
      Contributes c renames query k := by
  constructor
  · intro h
    cases h with
    | outermost h => exact .inl h
    | further h => exact .inr h
  · rintro (h | h)
    · exact .outermost h
    · exact .further h

/-- A call merges its contribution and leaves the query that it extends. -/
theorem compileInto_cons
    (h : ∀ k, c.contributed renames ⟨method, receiver, query :: operands⟩ = .ok k → k.IsValid)
    (p : Plan) :
    c.compileInto renames p (.call method receiver (query :: operands)) =
      c.contributed renames ⟨method, receiver, query :: operands⟩ >>= fun k =>
        c.compileInto renames (p.merged k) query := by
  rw [contributed] at h ⊢
  rw [compileInto]
  cases hname : chainOperator method with
  | error e => rfl
  | ok name =>
    simp only [hname, ok_bind] at h ⊢
    cases hk : c.contribution renames ⟨method, receiver, query :: operands⟩ name with
    | error e => rfl
    | ok k => rw [ok_bind, ok_bind, Plan.absorb_eq_merged (h k hk), ok_bind]

/-- A call without a query fails, whatever the plan so far. -/
theorem compileInto_nil
    (h : ∀ k, c.contributed renames ⟨method, receiver, []⟩ = .ok k → k.IsValid) :
    ∃ error, ∀ p, c.compileInto renames p (.call method receiver []) = .error error := by
  rw [contributed] at h
  cases hname : chainOperator method with
  | error error =>
    refine ⟨error, fun p => ?_⟩
    rw [compileInto, hname, error_bind]
  | ok name =>
    simp only [hname, ok_bind] at h
    cases hk : c.contribution renames ⟨method, receiver, []⟩ name with
    | error error =>
      refine ⟨error, fun p => ?_⟩
      rw [compileInto, hname, ok_bind, hk, error_bind]
    | ok k =>
      refine ⟨.invalidArgument (name ++ " has no source"), fun p => ?_⟩
      rw [compileInto, hname, ok_bind, hk, ok_bind, Plan.absorb_eq_merged (h k hk), ok_bind]

theorem isSound_of_compileInto (hp : p.IsSound)
    (h : ∀ k, Contributes c renames e k → k.IsSound) (hq : c.compileInto renames p e = .ok q) :
    q.IsSound := by
  induction p, e using compileInto.induct with
  | case1 p name =>
    cases hq
    exact hp
  | case2 p method receiver =>
    obtain ⟨error, herror⟩ := compileInto_nil fun k hk => (h k (.outermost hk)).toIsValid
    rw [herror] at hq
    cases hq
  | case3 p method receiver query operands ih =>
    have hk k (hk : c.contributed renames ⟨method, receiver, query :: operands⟩ = .ok k) :
        k.IsSound := h k (.outermost hk)
    rw [compileInto_cons fun k hc => (hk k hc).toIsValid] at hq
    obtain ⟨k, hcontributed, hrest⟩ := bind_eq_ok_iff.1 hq
    exact ih _ (hp.merged (hk k hcontributed)) (fun k hk => h k (.further hk)) hrest
  | case4 p e hsource hnil hcons =>
    rw [compileInto] at hq
    · cases hq
    · exact hsource
    · exact hnil
    · exact hcons

/-- Compiling into a plan is compiling and then merging. -/
theorem compileInto_eq (hp : p.IsSound) (h : ∀ k, Contributes c renames e k → k.IsSound) :
    c.compileInto renames p e = c.compile renames e >>= fun q => .ok (p.merged q) := by
  induction p, e using compileInto.induct with
  | case1 p name => exact congrArg Except.ok p.merged_empty.symm
  | case2 p method receiver =>
    obtain ⟨error, herror⟩ := compileInto_nil fun k hk => (h k (.outermost hk)).toIsValid
    rw [compile, herror, herror, error_bind]
  | case3 p method receiver query operands ih =>
    have hk k (hk : c.contributed renames ⟨method, receiver, query :: operands⟩ = .ok k) :
        k.IsSound := h k (.outermost hk)
    have hrest k (hk : Contributes c renames query k) : k.IsSound := h k (.further hk)
    have hcons := compileInto_cons fun k hc => (hk k hc).toIsValid
    rw [compile, hcons, hcons]
    cases hc : c.contributed renames ⟨method, receiver, query :: operands⟩ with
    | error e => rfl
    | ok k =>
      have hsound := hk k hc
      rw [ok_bind, ok_bind, ih _ (hp.merged hsound) hrest,
        ih _ (Plan.isSound_empty.merged hsound) hrest, Plan.empty_merged hsound.toIsValid]
      cases hq : c.compile renames query with
      | error e => rfl
      | ok q =>
        have hinner := isSound_of_compileInto Plan.isSound_empty hrest hq
        exact congrArg Except.ok
          (Plan.merged_assoc hp.balanced hsound.balanced hinner.balanced)
  | case4 p e hsource hnil hcons =>
    rw [compile, compileInto, compileInto]
    · rfl
    · exact hsource
    · exact hnil
    · exact hcons
    · exact hsource
    · exact hnil
    · exact hcons

/-- A call contributes what the first translator that accepts its operator makes of it. -/
theorem contributed_eq_ok_iff {call : Call} {k : Plan} :
    c.contributed renames call = .ok k ↔ ∃ name t, call.method.queryOperator? = some name ∧
      c.translatorFor? name = some t ∧ t.translate call renames = .ok k := by
  rw [contributed, chainOperator]
  cases hname : call.method.queryOperator? with
  | none =>
    constructor
    · intro h
      dsimp only at h
      split at h <;> cases h
    · rintro ⟨name, t, ⟨⟩, -⟩
  | some name =>
    rw [ok_bind, contribution]
    cases ht : c.translatorFor? name with
    | none =>
      constructor
      · rintro ⟨⟩
      · rintro ⟨_, t, ⟨⟩, htranslator, -⟩
        rw [ht] at htranslator
        cases htranslator
    | some t =>
      constructor
      · exact fun h => ⟨name, t, rfl, ht, h⟩
      · rintro ⟨_, t', ⟨⟩, htranslator, h⟩
        rw [ht] at htranslator
        cases htranslator
        exact h

theorem isSound_of_compile (h : ∀ k, Contributes c renames e k → k.IsSound)
    (hq : c.compile renames e = .ok q) : q.IsSound :=
  isSound_of_compileInto Plan.isSound_empty h hq

theorem compile_cons
    (h : ∀ k, Contributes c renames (.call method receiver (query :: operands)) k → k.IsSound) :
    c.compile renames (.call method receiver (query :: operands)) =
      c.contributed renames ⟨method, receiver, query :: operands⟩ >>= fun k =>
        c.compile renames query >>= k.absorb := by
  have hk k (hk : c.contributed renames ⟨method, receiver, query :: operands⟩ = .ok k) :
      k.IsSound := h k (.outermost hk)
  have hrest k (hk : Contributes c renames query k) : k.IsSound := h k (.further hk)
  rw [compile, compileInto_cons fun k hc => (hk k hc).toIsValid]
  cases hc : c.contributed renames ⟨method, receiver, query :: operands⟩ with
  | error e => rfl
  | ok k =>
    rw [ok_bind, ok_bind, Plan.empty_merged (hk k hc).toIsValid, compileInto_eq (hk k hc) hrest]
    cases hq : c.compile renames query with
    | error e => rfl
    | ok q => exact (Plan.absorb_eq_merged (isSound_of_compile hrest hq).toIsValid).symm

/-- The plan of a call is what its translator contributes with the plan of its query absorbed, and there
is one if there are both. Merging is associative on such plans and the empty plan changes nothing. -/
theorem compile_call (h : ∀ k,
      Contributes c renames (.call method receiver (query :: operands)) k → k.Built ∧ k.IsBalanced) :
    (c.compile renames (.call method receiver (query :: operands)) = do
      let k ← c.contributed renames ⟨method, receiver, query :: operands⟩
      let p ← c.compile renames query
      k.absorb p) ∧
    ((∃ p, c.compile renames (.call method receiver (query :: operands)) = .ok p) ↔
      (∃ name t k, method.queryOperator? = some name ∧ c.translatorFor? name = some t ∧
        t.translate ⟨method, receiver, query :: operands⟩ renames = .ok k) ∧
      ∃ p, c.compile renames query = .ok p) ∧
    (∀ p q r : Plan, p.Built ∧ p.IsBalanced → q.Built ∧ q.IsBalanced → r.Built ∧ r.IsBalanced →
      ∃ whole, (p.absorb q >>= fun pq => pq.absorb r) = .ok whole ∧
        (q.absorb r >>= fun qr => p.absorb qr) = .ok whole) ∧
    ∀ p : Plan, p.Built → Plan.empty.absorb p = .ok p ∧ p.absorb .empty = .ok p := by
  have hsound k (hk : Contributes c renames (.call method receiver (query :: operands)) k) :
      k.IsSound := ⟨(h k hk).1.isValid, (h k hk).2⟩
  have hcompile := compile_cons hsound
  refine ⟨hcompile, ⟨?_, ?_⟩, ?_, ?_⟩
  · rintro ⟨p, hp⟩
    obtain ⟨k, hk, hrest⟩ := bind_eq_ok_iff.1 (hcompile.symm.trans hp)
    obtain ⟨q, hq, -⟩ := bind_eq_ok_iff.1 hrest
    obtain ⟨name, t, hname, ht, htranslate⟩ := contributed_eq_ok_iff.1 hk
    exact ⟨⟨name, t, k, hname, ht, htranslate⟩, q, hq⟩
  · rintro ⟨⟨name, t, k, hname, ht, htranslate⟩, q, hq⟩
    have hk : c.contributed renames ⟨method, receiver, query :: operands⟩ = .ok k :=
      contributed_eq_ok_iff.2 ⟨name, t, hname, ht, htranslate⟩
    have hvalid := (isSound_of_compile (fun k hk => hsound k (.further hk)) hq).toIsValid
    refine ⟨k.merged q, ?_⟩
    rw [hcompile, hk, ok_bind, hq, ok_bind, Plan.absorb_eq_merged hvalid]
  · rintro p q r ⟨hp, hpb⟩ ⟨hq, hqb⟩ ⟨hr, hrb⟩
    have hqr := hq.isValid.merged hr.isValid
    refine ⟨(p.merged q).merged r, ?_, ?_⟩
    · rw [Plan.absorb_eq_merged hq.isValid, ok_bind, Plan.absorb_eq_merged hr.isValid]
    · rw [Plan.absorb_eq_merged hr.isValid, ok_bind, Plan.absorb_eq_merged hqr,
        Plan.merged_assoc hpb hqb hrb]
  · intro p hp
    constructor
    · rw [Plan.absorb_eq_merged hp.isValid, Plan.empty_merged hp.isValid]
    · rw [Plan.absorb_eq_merged Plan.isValid_empty, Plan.merged_empty]

/-- With a translator for `OrderBy` beside those of the library, its filter stands before a predicate that
gets its parentheses. -/
theorem compile_call_ordered :
    let c := standard.register { Translator.custom with operators := ["OrderBy"] }
    let predicate : Lambda := ⟨"e", .binary .or
      (.binary .eq (.member (.parameter "e") "A") (.constant (.int32 1)))
      (.binary .eq (.member (.parameter "e") "B") (.constant (.int32 2)))⟩
    let query : Expr := .filtered (.source "T") (.lambda predicate.parameter predicate.body)
    (∀ k, Contributes c .empty (query.operatorOn "OrderBy" []) k → k.Built ∧ k.IsBalanced) ∧
    c.compile .empty (query.operatorOn "OrderBy" []) =
      .ok ⟨some "Custom eq 1 and (A eq 1 or B eq 2)", .none, .none, []⟩ := by
  intro c predicate query
  have horder : c.contributed .empty ⟨.operator "Queryable" "OrderBy", .none, [query]⟩ =
      .ok ⟨some "Custom eq 1", .none, .none, []⟩ := by
    have htext : "Custom eq " ++ String.ofList (Text.decimal 1) = "Custom eq 1" := by decide
    refine contributed_eq_ok_iff.2 ⟨"OrderBy", { Translator.custom with operators := ["OrderBy"] },
      rfl, rfl, ?_⟩
    simp only [Translator.custom, List.length_singleton, htext]
    exact Plan.addFilter_of_isTight (Text.isTight_of_trim_eq (by decide) (by decide))
  have hwhere : c.contributed .empty ⟨.operator "Queryable" "Where", .none,
      [.source "T", .lambda predicate.parameter predicate.body]⟩ =
        .ok ⟨some "A eq 1 or B eq 2", .none, .none, []⟩ := by
    have hwhole : predicate.toFilter .empty = .ok "(A eq 1 or B eq 2)" := rfl
    exact contributed_eq_ok_iff.2 ⟨"Where", Translator.filter, rfl, rfl,
      Plan.require_of_stripOuter hwhole (by decide +kernel) (Text.isTight_of_trim_eq (by decide) (by decide))⟩
  have hsound : ∀ k, Contributes c .empty (query.operatorOn "OrderBy" []) k →
      k.Built ∧ k.IsBalanced := by
    have hfilter {text : String} (h : Text.IsTight text.toList)
        (hb : Filter.IsBalanced text.toList) :
        (Plan.mk (some text) .none .none []).Built ∧ (Plan.mk (some text) .none .none []).IsBalanced := by
      refine ⟨Plan.Built.empty.addFilter (Plan.addFilter_of_isTight h), ?_⟩
      rintro _ ⟨⟩
      exact hb
    intro k hk
    rcases contributes_cons.1 hk with hk | hk
    · cases horder.symm.trans hk
      exact hfilter (Text.isTight_of_trim_eq (by decide) (by decide)) (by decide)
    · rcases contributes_cons.1 hk with hk | hk
      · cases hwhere.symm.trans hk
        exact hfilter (Text.isTight_of_trim_eq (by decide) (by decide)) (by decide)
      · cases hk
  have hinner k (hk : Contributes c .empty query k) : k.Built ∧ k.IsBalanced :=
    hsound k (.further hk)
  have hquery : c.compile .empty query = .ok ⟨some "A eq 1 or B eq 2", .none, .none, []⟩ := by
    have hcompile := (compile_call hinner).1
    rw [hwhere] at hcompile
    exact hcompile
  have hjoined : Plan.conjoin "Custom eq 1" "A eq 1 or B eq 2" =
      "Custom eq 1 and (A eq 1 or B eq 2)" := by decide
  have habsorb : Plan.absorb ⟨some "Custom eq 1", .none, .none, []⟩
      ⟨some "A eq 1 or B eq 2", .none, .none, []⟩ =
        .ok ⟨some "Custom eq 1 and (A eq 1 or B eq 2)", .none, .none, []⟩ := by
    rw [← hjoined]
    exact Plan.absorb_eq_merged (hinner _ (.outermost hwhere)).1.isValid
  have hcompile := (compile_call hsound).1
  rw [horder, hquery] at hcompile
  exact ⟨hsound, hcompile.trans habsorb⟩

end Compiler

end TableClient
