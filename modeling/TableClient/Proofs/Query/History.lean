import Mathlib.Data.List.Induction
import TableClient.Proofs.Query.Merge
import TableClient.Query.History

/-! Plans after any history of calls, failed ones among them. A plan is what the calls that succeeded have
contributed: its cap is the smallest of theirs, its columns are theirs in the order in which they came
first, and it has as many steps as they added. Such a plan can always be absorbed, since none of its parts
is one that is refused. -/

namespace TableClient

namespace Plan

variable {p q inner : Plan}

/-! ### Columns and caps of several calls -/

/-- Columns that come one after another are kept where they come first. -/
theorem appendNew_nil (names : List String) : appendNew [] names = names.eraseDups := by
  induction names using List.reverseRecOn with
  | nil => rfl
  | append_singleton names c ih =>
    have hlast : appendNew [] (names ++ [c]) = insertNew (appendNew [] names) c := appendNew_append ..
    rw [hlast, ih, insertNew, List.eraseDups_append]
    by_cases hc : c ∈ names
    · rw [if_pos (List.mem_eraseDups.2 hc)]
      simp [List.removeAll, hc]
    · rw [if_neg (mt List.mem_eraseDups.1 hc)]
      simp [List.removeAll, hc, List.eraseDups_cons]

theorem appendNew_eraseDups (present added : List String) :
    appendNew present.eraseDups added = (present ++ added).eraseDups := by
  rw [← appendNew_nil, ← appendNew_nil, appendNew_append]

theorem appendNew_eraseDups_right (present added : List String) :
    appendNew present added.eraseDups = appendNew present added := by
  rw [← appendNew_nil, ← appendNew_assoc]
  rfl

theorem min?_append (xs ys : List Nat) :
    (xs ++ ys).min? = Option.merge min xs.min? ys.min? := by
  induction xs with
  | nil => cases h : ys.min? <;> simp [h]
  | cons x xs ih =>
    rw [List.cons_append, List.min?_cons, List.min?_cons, ih]
    cases xs.min? <;> cases ys.min? <;> simp [Option.merge, Nat.min_assoc]

theorem toNat_minCap (c d : Option UInt32) :
    (minCap c d).map UInt32.toNat = Option.merge min (c.map UInt32.toNat) (d.map UInt32.toNat) := by
  cases c <;> cases d <;> simp [minCap, Option.merge, toNat_min]

theorem columns_addColumns (p : Plan) (names : List String) : (p.addColumns names).1.columns =
    some (appendNew (p.columns.getD []) (names.takeWhile (·.toList.any (!Text.isBlank ·)))) := by
  have hblank (c : String) : (!isBlankName c) = c.toList.any (!Text.isBlank ·) := by
    rw [Bool.eq_iff_iff, Bool.not_eq_true', isBlankName_eq_false_iff]
    simp
  simp only [addColumns, hblank]
  split <;> rfl

/-! ### Calls -/

/-- Absorbing in place succeeds exactly if absorbing does, and with the same plan. -/
theorem absorbInPlace_eq_iff : p.absorbInPlace inner = (q, none) ↔ p.absorb inner = .ok q := by
  obtain ⟨filter, columns, cap, steps⟩ := inner
  -- one part after the other
  have hcap (p : Plan) : p.absorbInPlace ⟨none, none, cap, steps⟩ = (q, none) ↔
      p.absorb ⟨none, none, cap, steps⟩ = .ok q := by
    cases cap with
    | none => simp [absorbInPlace, absorb]
    | some n => cases hn : p.limit n.toNat <;> simp [absorbInPlace, absorb, limitInPlace_eq, orKept, hn]
  have hcolumns (p : Plan) : p.absorbInPlace ⟨none, columns, cap, steps⟩ = (q, none) ↔
      p.absorb ⟨none, columns, cap, steps⟩ = .ok q := by
    cases columns with
    | none => exact hcap p
    | some names =>
      rcases hadd : p.addColumns names with ⟨r, _ | e⟩
      · have hrest := hcap r
        simp only [absorbInPlace, absorb, Option.elim, ok_bind, hadd] at hrest ⊢
        exact hrest
      · simp [absorbInPlace, absorb, hadd]
  cases filter with
  | none => exact hcolumns p
  | some text =>
    cases htext : p.addFilter text with
    | error e => simp [absorbInPlace, absorb, addFilterInPlace_eq, orKept, htext]
    | ok r =>
      have hrest := hcolumns r
      simp only [absorbInPlace, absorb, addFilterInPlace_eq, orKept, Option.elim, ok_bind, htext] at hrest ⊢
      exact hrest

theorem orKept_cases (p : Plan) (x : Except QueryError Plan) :
    (∃ q, x = .ok q ∧ p.orKept x = (q, none)) ∨ ∃ e, x = .error e ∧ p.orKept x = (p, some e) := by
  cases x with
  | ok q => exact .inl ⟨q, rfl, rfl⟩
  | error e => exact .inr ⟨e, rfl, rfl⟩

end Plan

namespace History

variable {h : History}

/-! ### One call more -/

/-- A filter is required as well, or refused, which leaves the plan as it is. -/
theorem filter_cases (h : History) (text : String) :
    (∃ q, h.plan.addFilter text = .ok q ∧ (filter h text).outcome = (q, none)) ∨
      ∃ e, h.plan.addFilter text = .error e ∧ (filter h text).outcome = (h.plan, some e) := by
  rw [outcome, Plan.addFilterInPlace_eq]
  exact h.plan.orKept_cases _

/-- A cap counts as well, or is refused, which leaves the plan as it is. -/
theorem cap_cases (h : History) (count : Int) :
    (∃ q, h.plan.limit count = .ok q ∧ (cap h count).outcome = (q, none)) ∨
      ∃ e, h.plan.limit count = .error e ∧ (cap h count).outcome = (h.plan, some e) := by
  rw [outcome, Plan.limitInPlace_eq]
  exact h.plan.orKept_cases _

theorem plan_columns (h : History) (names : List String) :
    (columns h names).plan = (h.plan.addColumns names).1 := rfl

theorem getD_map_eraseDups (names : Option (List String)) :
    (names.map List.eraseDups).getD [] = (names.getD []).eraseDups := by
  cases names <;> rfl

/-- A plan has what the calls of a history have contributed. -/
structure Recorded (h : History) (p : Plan) : Prop where
  built : p.Built
  /-- The columns are those that were asked for or absorbed, each where it came first. -/
  columns : p.columns = h.named.map List.eraseDups
  /-- The cap is the smallest of those that were set or absorbed. -/
  cap : p.cap.map UInt32.toNat = h.caps.min?
  steps : p.steps.length = h.added

namespace Recorded

theorem filter_call (hrecorded : h.Recorded h.plan) (text : String) :
    (History.filter h text).Recorded (History.filter h text).plan := by
  rcases h.filter_cases text with ⟨q, hq, houtcome⟩ | ⟨e, -, houtcome⟩
  · obtain ⟨hcap, hsteps, hcolumns⟩ := Plan.addFilter_eq_ok hq
    rw [plan, houtcome]
    refine ⟨hrecorded.built.addFilter hq, ?_, ?_, ?_⟩
    · rw [hcolumns]
      exact hrecorded.columns
    · rw [hcap]
      exact hrecorded.cap
    · rw [hsteps]
      exact hrecorded.steps
  · rw [plan, houtcome]
    exact ⟨hrecorded.built, hrecorded.columns, hrecorded.cap, hrecorded.steps⟩

theorem columns_call (hrecorded : h.Recorded h.plan) (names : List String) :
    (History.columns h names).Recorded (History.columns h names).plan := by
  obtain ⟨hcap, hsteps, -⟩ := h.plan.addColumns_fst names
  rw [plan_columns]
  refine ⟨hrecorded.built.addColumns names, ?_, ?_, ?_⟩
  · rw [Plan.columns_addColumns, hrecorded.columns, getD_map_eraseDups, Plan.appendNew_eraseDups]
    rfl
  · rw [hcap]
    exact hrecorded.cap
  · rw [hsteps]
    exact hrecorded.steps

theorem cap_call (hrecorded : h.Recorded h.plan) (count : Int) :
    (History.cap h count).Recorded (History.cap h count).plan := by
  rcases h.cap_cases count with ⟨q, hq, houtcome⟩ | ⟨e, -, houtcome⟩
  · obtain ⟨-, hlt, rfl⟩ := Plan.limit_eq_ok hq
    have hcaps : (History.cap h count).caps = h.caps ++ [count.toNat] := by
      rw [caps, failure?, houtcome]
    rw [plan, houtcome]
    refine ⟨hrecorded.built.limit hq, hrecorded.columns, ?_, hrecorded.steps⟩
    rw [Plan.toNat_minCap, hrecorded.cap, hcaps, Plan.min?_append, List.min?_singleton, Option.map_some,
      UInt32.toNat_ofNat_of_lt' hlt]
  · have hcaps : (History.cap h count).caps = h.caps := by
      rw [caps, failure?, houtcome]
    rw [plan, houtcome]
    refine ⟨hrecorded.built, hrecorded.columns, ?_, hrecorded.steps⟩
    rw [hcaps]
    exact hrecorded.cap

theorem step_call (hrecorded : h.Recorded h.plan) (s : RowStep) :
    (History.step h s).Recorded (History.step h s).plan := by
  refine ⟨hrecorded.built.addStep s, hrecorded.columns, hrecorded.cap, ?_⟩
  rw [added, ← hrecorded.steps]
  exact List.length_append

/-- What a history has made can be absorbed. -/
theorem outcome_absorb {inner : History} (hinner : inner.Recorded inner.plan) (h : History) :
    (History.absorb h inner).outcome = (h.plan.merged inner.plan, none) :=
  Plan.absorbInPlace_eq_iff.2 (Plan.absorb_eq_merged hinner.built.isValid)

theorem absorb_call {inner : History} (hrecorded : h.Recorded h.plan) (hinner : inner.Recorded inner.plan) :
    (History.absorb h inner).Recorded (History.absorb h inner).plan := by
  have houtcome := hinner.outcome_absorb h
  rw [plan, houtcome]
  refine ⟨hrecorded.built.absorb hinner.built (Plan.absorb_eq_merged hinner.built.isValid), ?_, ?_, ?_⟩
  · rw [named, Plan.merged, hrecorded.columns, hinner.columns]
    cases inner.named with
    | none => rfl
    | some more =>
      simp only [Option.map_some, Plan.bothColumns]
      rw [getD_map_eraseDups, Plan.appendNew_eraseDups_right, Plan.appendNew_eraseDups]
  · rw [caps, Plan.min?_append, ← hrecorded.cap, ← hinner.cap, ← Plan.toNat_minCap]
    rfl
  · rw [added, ← hrecorded.steps, ← hinner.steps, Nat.add_comm]
    exact List.length_append

end Recorded

/-- After all calls, by one step for each. -/
theorem recorded (h : History) : h.Recorded h.plan := by
  induction h with
  | empty => exact ⟨.empty, rfl, rfl, rfl⟩
  | filter before text ih => exact ih.filter_call text
  | columns before names ih => exact ih.columns_call names
  | cap before count ih => exact ih.cap_call count
  | step before s ih => exact ih.step_call s
  | absorb before inner ih ihinner => exact ih.absorb_call ihinner

/-! ### Calls that fail -/

theorem addFilter_eq_error_iff {p : Plan} {text : String} :
    (∃ e, p.addFilter text = .error e) ↔ ∀ c ∈ text.toList, Text.isBlank c := by
  have hempty : String.ofList (Text.trim text.toList) = "" ↔ Text.trim text.toList = [] := by
    rw [← String.toList_inj, String.toList_ofList]
    rfl
  simp only [Plan.addFilter, hempty, Text.trim_eq_nil_iff]
  split
  next hblank => exact iff_of_true ⟨_, rfl⟩ hblank
  next hblank =>
    refine iff_of_false ?_ hblank
    rintro ⟨_, ⟨⟩⟩

theorem limit_eq_error_iff {p : Plan} {count : Int} :
    (∃ e, p.limit count = .error e) ↔ ¬(0 < count ∧ count < UInt32.size) := by
  rw [Plan.limit]
  split
  next hle => exact iff_of_true ⟨_, rfl⟩ (by omega)
  next hpos =>
    split
    next hsize => exact iff_of_true ⟨_, rfl⟩ (by omega)
    next hsize =>
      refine iff_of_false ?_ (by omega)
      rintro ⟨_, ⟨⟩⟩

/-- After any calls, failed ones among them, a plan has a filter without blanks around it, columns that
are neither blank nor repeated and stand in the order in which they were first asked for, the smallest of
the caps, and as many steps as were added. It can be absorbed. A filter that is blank and a cap out of
range are refused, which leaves the plan as it is. -/
theorem plan_of_calls (h : History) :
    h.plan.IsValid ∧ h.plan.columns = h.named.map List.eraseDups ∧
      h.plan.cap.map UInt32.toNat = h.caps.min? ∧ h.plan.steps.length = h.added ∧
      (∀ inner, (absorb h inner).failure? = none) ∧
      (∀ text : String, (∃ c ∈ text.toList, ¬Text.isBlank c) ∧ (filter h text).failure? = none ∨
        (∀ c ∈ text.toList, Text.isBlank c) ∧ (filter h text).failure? ≠ none ∧
          (filter h text).plan = h.plan) ∧
      ∀ count : Int, (0 < count ∧ count < UInt32.size) ∧ (cap h count).failure? = none ∨
        ¬(0 < count ∧ count < UInt32.size) ∧ (cap h count).failure? ≠ none ∧
          (cap h count).plan = h.plan := by
  refine ⟨h.recorded.built.isValid, h.recorded.columns, h.recorded.cap, h.recorded.steps, fun inner => ?_,
    fun text => ?_, fun count => ?_⟩
  · rw [failure?, inner.recorded.outcome_absorb]
  · rw [plan, failure?]
    rcases h.filter_cases text with ⟨q, hq, houtcome⟩ | ⟨e, he, houtcome⟩
    · refine .inl ⟨?_, congrArg Prod.snd houtcome⟩
      by_contra hall
      push Not at hall
      obtain ⟨e, he⟩ := addFilter_eq_error_iff.2 hall
      rw [hq] at he
      cases he
    · rw [houtcome]
      exact .inr ⟨addFilter_eq_error_iff.1 ⟨e, he⟩, Option.some_ne_none e, rfl⟩
  · rw [plan, failure?]
    rcases h.cap_cases count with ⟨q, hq, houtcome⟩ | ⟨e, he, houtcome⟩
    · refine .inl ⟨?_, congrArg Prod.snd houtcome⟩
      obtain ⟨hpos, hlt, -⟩ := Plan.limit_eq_ok hq
      omega
    · rw [houtcome]
      exact .inr ⟨limit_eq_error_iff.1 ⟨e, he⟩, Option.some_ne_none e, rfl⟩

/-- The name before the blank one stays, and the cap that is refused does not count. -/
example : (History.cap (.absorb (.columns .empty ["B", "", "A"])
    (.columns (.cap .empty 7) ["A", "B"])) 0).plan.parameters =
      [("$select", "B,A"), ("$top", "7")] := by decide +kernel

end History

end TableClient
