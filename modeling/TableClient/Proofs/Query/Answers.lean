import TableClient.Proofs.Query.Steady

/-! What a plan has taken over from the calls outside a chain: their predicates, the smallest of their caps,
and their element operators. Absorbing a steady call, and running on the rows that reach the call, gives
what running on the rows that it leaves does. -/

namespace TableClient

open TableClient.Filter

section Rows

variable {a : Value → Bool} {rows : List Value}

/-- Caps and predicates trade places where the predicate is true of all rows within the cap, false of all
beyond it, or true of as many within as a later cap leaves. -/
theorem Plan.capped_filter_take (c : Option UInt32) (n : Nat)
    (h : (∀ row ∈ rows.take n, a row) ∨ (∀ row ∈ rows.drop n, a row = false) ∨
      ∃ m ∈ c, m.toNat ≤ ((rows.take n).filter a).length) :
    capped c ((rows.filter a).take n) = capped c ((rows.take n).filter a) := by
  have hsplit : rows.filter a = (rows.take n).filter a ++ (rows.drop n).filter a := by
    rw [← List.filter_append, List.take_append_drop]
  have hlength : ((rows.take n).filter a).length ≤ n :=
    Nat.le_trans (List.length_filter_le ..) (List.length_take_le ..)
  have htake : (rows.filter a).take n =
      (rows.take n).filter a ++ ((rows.drop n).filter a).take (n - ((rows.take n).filter a).length) := by
    rw [hsplit, List.take_append, List.take_of_length_le hlength]
  rw [htake]
  rcases h with hall | hnone | ⟨m, hm, hle⟩
  · -- as many as the cap leaves are accepted, or there are none beyond it
    rw [List.filter_eq_self.2 hall, List.length_take]
    have hrest : ((rows.drop n).filter a).take (n - min n rows.length) = [] := by
      by_cases hlong : n ≤ rows.length
      · rw [Nat.min_eq_left hlong, Nat.sub_self, List.take_zero]
      · rw [List.drop_eq_nil_of_le (by omega), List.filter_nil, List.take_nil]
    rw [hrest, List.append_nil]
  · have hempty : (rows.drop n).filter a = [] :=
      List.filter_eq_nil_iff.2 fun row hrow => by simp [hnone row hrow]
    rw [hempty, List.take_nil, List.append_nil]
  · obtain rfl : c = some m := hm
    exact List.take_append_of_le_length hle

end Rows

/-! ### Plans and the calls outside -/

/-- What a plan has taken over from the calls of a chain, the innermost of them first: `a` stands for
their predicates. -/
structure Plan.Answers (source : List Value) (outer : List Call) (p : Plan) (a : Value → Bool) :
    Prop where
  capPositive : p.CapPositive
  cap_le : ∀ d ∈ outer, ∀ m ∈ d.cap?, ∃ n ∈ p.cap, n.toNat ≤ m
  steps_eq : p.steps = (outer.filterMap Call.contract?).map RowStep.element
  selects : p.Selects a
  selects_wanted : ∀ row, IsRowOf source row → Call.wanted outer row → a row
  rejects_unwanted : ∀ row, IsRowOf source row → Call.unwanted outer row → a row = false

section Steps

variable {source rows out final : List Value} {outer : List Call} {c : Call} {plan k q : Plan}
  {a b : Value → Bool}

theorem Plan.answers_empty : Plan.empty.Answers source [] fun _ => true where
  capPositive := capPositive_empty
  cap_le := nofun
  steps_eq := rfl
  selects := selects_empty
  selects_wanted _ _ _ := rfl
  rejects_unwanted _ _ h := absurd h Bool.false_ne_true

theorem Plan.minCap_le_left {c d : Option UInt32} {n : UInt32} (h : n ∈ c) :
    ∃ l ∈ minCap c d, l.toNat ≤ n.toNat := by
  obtain rfl : c = some n := h
  cases d with
  | none => exact ⟨n, rfl, Nat.le_refl _⟩
  | some m =>
    refine ⟨min n m, rfl, ?_⟩
    rw [toNat_min]
    omega

theorem Plan.minCap_le_right {c d : Option UInt32} {n : UInt32} (h : n ∈ d) :
    ∃ l ∈ minCap c d, l.toNat ≤ n.toNat := by
  obtain rfl : d = some n := h
  cases c with
  | none => exact ⟨n, rfl, Nat.le_refl _⟩
  | some m =>
    refine ⟨min m n, rfl, ?_⟩
    rw [toNat_min]
    omega

/-- A plan that absorbs what a call contributes answers for that call too. -/
theorem Plan.Answers.absorbed (h : plan.Answers source outer a) (hc : c.Contributes source k b)
    (hq : Absorbed plan k q) : q.Answers source (c :: outer) fun row => a row && b row where
  capPositive := hq.capPositive_absorbed h.capPositive
  cap_le := by
    intro d hd m hm
    rw [hq.cap_eq]
    rcases List.mem_cons.1 hd with rfl | hd
    · rw [← hc.cap_eq] at hm
      obtain ⟨n, hn, rfl⟩ := Option.map_eq_some_iff.1 hm
      exact minCap_le_right hn
    · obtain ⟨n, hn, hle⟩ := h.cap_le d hd m hm
      obtain ⟨l, hl, hln⟩ := minCap_le_left (d := k.cap) hn
      exact ⟨l, hl, Nat.le_trans hln hle⟩
  steps_eq := by
    rw [hq.steps_eq, hc.steps_eq, h.steps_eq, List.filterMap_cons]
    cases c.contract? <;> rfl
  selects := h.selects.absorbed hc.selects hq
  selects_wanted := by
    intro row hrow hwanted
    simp only [Call.wanted, List.all_cons, Bool.and_eq_true] at hwanted
    obtain ⟨hown, houter⟩ := hwanted
    have hb : b row := by
      cases hp : c.predicate? with
      | none => exact hc.selects_all hp row
      | some f =>
        rw [hp, Option.all_some, decide_eq_true_eq, Lambda.test?_eq_some_iff] at hown
        exact hc.selects_iff f hp row hrow true hown
    rw [h.selects_wanted row hrow houter, hb]
    rfl
  rejects_unwanted := by
    intro row hrow hunwanted
    simp only [Call.unwanted, List.any_cons, Bool.or_eq_true] at hunwanted
    rcases hunwanted with hown | houter
    · cases hp : c.predicate? with
      | none =>
        rw [hp] at hown
        exact absurd hown Bool.false_ne_true
      | some f =>
        rw [hp, Option.any_some, decide_eq_true_eq, Lambda.test?_eq_some_iff] at hown
        rw [hc.selects_iff f hp row hrow false hown, Bool.and_false]
    · rw [h.rejects_unwanted row hrow houter, Bool.false_and]

/-- The rows that a call leaves are rows that reached it, or null. -/
theorem Call.Contributes.isRowOf (hc : c.Contributes source k b)
    (hrows : ∀ row ∈ rows, IsRowOf source row) (hcall : c.run rows = .ok out) :
    ∀ row ∈ out, IsRowOf source row := by
  have hrun := hc.run_eq rows hrows out hcall
  have hkept : ∀ row ∈ rows.filter b, IsRowOf source row :=
    fun row hrow => hrows row (List.mem_filter.1 hrow).1
  cases hcontract : c.contract? with
  | none =>
    rw [hcontract] at hrun
    cases hrun
    intro row hrow
    cases hcap : k.cap with
    | none =>
      rw [hcap] at hrow
      exact hkept row hrow
    | some n =>
      rw [hcap] at hrow
      exact hkept row (List.mem_of_mem_take hrow)
  | some contract =>
    rw [hcontract] at hrun
    obtain ⟨row, rfl, ⟨-, rfl⟩ | ⟨rest, hrest, -⟩⟩ := RowStep.element_eq_ok hrun
    · intro r hr
      exact .inr (List.mem_singleton.1 hr)
    · intro r hr
      obtain rfl := List.mem_singleton.1 hr
      exact hkept r (hrest ▸ List.mem_cons_self)

/-- Where an element operator follows that gives a default for no rows, null in their place is the
same. -/
theorem Plan.Answers.finish_null (h : plan.Answers source outer a)
    (helement : outer.any (·.contract?.isSome)) (hfinish : plan.finish [] = .ok final) :
    plan.finish [.null] = .ok final := by
  obtain ⟨d, hd, hsome⟩ := List.any_eq_true.1 helement
  obtain ⟨contract, hcontract⟩ := Option.isSome_iff_exists.1 hsome
  have hmem : contract ∈ outer.filterMap Call.contract? :=
    List.mem_filterMap.2 ⟨d, hd, hcontract⟩
  rw [finish, h.steps_eq] at hfinish ⊢
  cases hcontracts : outer.filterMap Call.contract? with
  | nil =>
    rw [hcontracts] at hmem
    cases hmem
  | cons first rest =>
    rw [hcontracts, List.map_cons, List.foldlM_cons] at hfinish
    obtain ⟨mid, hmid, hrest⟩ := bind_eq_ok_iff.1 hfinish
    obtain ⟨row, rfl, ⟨-, rfl⟩ | ⟨_, hcons, -⟩⟩ := RowStep.element_eq_ok hmid
    · have hnull : RowStep.element first [.null] = .ok [.null] := by
        rw [RowStep.element, List.isEmpty_nil, Bool.or_true, if_pos rfl]
      rw [List.map_cons, List.foldlM_cons, hnull]
      exact hrest
    · cases hcons

/-- Absorbing `Where` or a steady `Take`, and running on its input, is running on its output. -/
theorem Plan.Answers.run_absorbed_rows (h : plan.Answers source outer a)
    (hc : c.Contributes source k b) (hq : Absorbed plan k q)
    (hrows : ∀ row ∈ rows, IsRowOf source row) (hcall : c.run rows = .ok out)
    (hcontract : c.contract? = none) (hsteady : c.steady outer rows) :
    q.run rows = plan.run out := by
  have hout := hc.run_eq rows hrows out hcall
  rw [hcontract] at hout
  cases hout
  have hsteps : k.steps = [] := by
    rw [hc.steps_eq, hcontract]
    rfl
  rw [hq.run_eq, (h.selects.absorbed hc.selects hq).accepted_eq, ← List.filter_filter,
    finish_of_steps_nil hsteps, ok_bind, run_eq, h.selects.accepted_eq]
  refine congrArg plan.finish ?_
  cases hcap : k.cap with
  | none => rfl
  | some n =>
    have hall : rows.filter b = rows :=
      List.filter_eq_self.2 fun row _ => hc.selects_all (hc.cap_alone hcontract n hcap) row
    rw [hall] at hcall ⊢
    have hcapEq : c.cap? = some n.toNat := by
      rw [← hc.cap_eq, hcap]
      rfl
    apply capped_filter_take
    rw [hcap] at hcall
    simp only [Call.steady, hcall, hcontract, hcapEq, Bool.or_eq_true, List.all_eq_true,
      List.any_eq_true] at hsteady
    have hleft : ∀ row ∈ rows.take n.toNat, IsRowOf source row :=
      fun row hrow => hrows row (List.mem_of_mem_take hrow)
    rcases hsteady with hwanted | hunwanted | ⟨d, hd, henough⟩
    · exact .inl fun row hrow => h.selects_wanted row (hleft row hrow) (hwanted row hrow)
    · exact .inr (.inl fun row hrow =>
        h.rejects_unwanted row (hrows row (List.mem_of_mem_drop hrow)) (hunwanted row hrow))
    · -- the wanted rows are among the accepted ones
      obtain ⟨m, hm, hle⟩ := (Option.any_eq_true _ _).1 henough
      obtain ⟨l, hl, hlm⟩ := h.cap_le d hd m hm
      refine .inr (.inr ⟨l, hl, ?_⟩)
      have hcount : (rows.take n.toNat).countP (Call.wanted outer) ≤
          ((rows.take n.toNat).filter a).length := by
        rw [← List.countP_eq_length_filter]
        exact List.countP_mono_left fun row hrow => h.selects_wanted row (hleft row hrow)
      have hcapped : m ≤ (rows.take n.toNat).countP (Call.wanted outer) := of_decide_eq_true hle
      omega

/-- Absorbing a steady element operator, and running on its input, gives what running on its output
does. -/
theorem Plan.Answers.run_absorbed_element (h : plan.Answers source outer a)
    (hc : c.Contributes source k b) (hq : Absorbed plan k q)
    (hrows : ∀ row ∈ rows, IsRowOf source row) (hcall : c.run rows = .ok out)
    {contract : ElementContract} (hcontract : c.contract? = some contract)
    (hsteady : c.steady outer rows) (hfinal : plan.run out = .ok final) :
    q.run rows = .ok final := by
  have helement := hc.run_eq rows hrows out hcall
  rw [hcontract] at helement
  have hleft := hc.isRowOf hrows hcall
  have hkfinish (rs : List Value) : k.finish rs = RowStep.element contract rs := by
    apply finish_of_steps_single
    rw [hc.steps_eq, hcontract]
    rfl
  have hanswers := h.absorbed hc hq
  rw [hq.run_eq, hanswers.selects.accepted_eq, hkfinish]
  rw [run_eq, h.selects.accepted_eq] at hfinal
  obtain ⟨row, rfl, hrow⟩ := RowStep.element_eq_ok helement
  cases ha : a row with
  | true =>
    -- the row is still the one that the operator picks from the accepted rows
    have haccepted : RowStep.element contract (rows.filter fun row => a row && b row) = .ok [row] := by
      rw [← List.filter_filter]
      rcases hrow with ⟨hnil, rfl⟩ | ⟨rest, hcons, hone⟩
      · rw [hnil] at helement ⊢
        exact helement
      · rw [hcons, List.filter_cons, ha, if_pos rfl, RowStep.element, if_pos]
        rw [Bool.or_eq_true] at hone ⊢
        refine hone.imp_right fun hempty => ?_
        rw [List.isEmpty_iff] at hempty
        rw [hempty]
        rfl
    obtain ⟨hinner, -⟩ := RowStep.element_capped hq.capPositive haccepted
    obtain ⟨hpicked, -⟩ := RowStep.element_capped h.capPositive hinner
    rw [hpicked, ok_bind]
    rw [List.filter_cons_of_pos ha, List.filter_nil, h.capPositive.capped_singleton] at hfinal
    exact hfinal
  | false =>
    have hnotWanted : Call.wanted outer row ≠ true := by
      intro hwanted
      rw [h.selects_wanted row (hleft row List.mem_cons_self) hwanted] at ha
      cases ha
    simp only [Call.steady, hcall, hcontract, List.all_cons, hnotWanted, Bool.false_and,
      Bool.false_or, Bool.and_eq_true, List.all_eq_true] at hsteady
    obtain ⟨⟨hdefault, hnext⟩, hunwanted⟩ := hsteady
    have hnone : rows.filter (fun row => a row && b row) = [] :=
      List.filter_eq_nil_iff.2 fun r hr => by
        simp [hanswers.rejects_unwanted r (hrows r hr) (hunwanted r hr)]
    rw [hnone, capped_nil, capped_nil, RowStep.element, if_pos hdefault, ok_bind]
    rw [List.filter_cons_of_neg (by simp [ha]), List.filter_nil, capped_nil] at hfinal
    exact h.finish_null hnext hfinal

/-- One step of a chain: absorbing a steady call, and running on its input, gives what running on its
output does. -/
theorem Plan.Answers.run_absorbed (h : plan.Answers source outer a)
    (hc : c.Contributes source k b) (hq : Absorbed plan k q)
    (hrows : ∀ row ∈ rows, IsRowOf source row) (hcall : c.run rows = .ok out)
    (hsteady : c.steady outer rows) (hfinal : plan.run out = .ok final) :
    q.run rows = .ok final := by
  cases hcontract : c.contract? with
  | none => rw [h.run_absorbed_rows hc hq hrows hcall hcontract hsteady, hfinal]
  | some contract => exact h.run_absorbed_element hc hq hrows hcall hcontract hsteady hfinal

end Steps

end TableClient
