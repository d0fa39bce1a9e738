import TableClient.Proofs.Filter.Translation

/-! Shapes of formulas: the connectives, with nothing said of a test but whether it searches in an empty
list. A search in an empty list leaves no constraint, which is more than it allows, and the connectives
around it absorb that. The outcomes of a shape are what rows can make of a formula: its value, and
whether its filter accepts. -/

namespace TableClient.Filter

/-- What a filter says of a row under `and`; no constraint leaves the other side. -/
def meet : Option Bool → Option Bool → Option Bool
  | some a, some b => some (a && b)
  | some a, none => some a
  | none, b => b

/-- What a filter says of a row under `or`; no constraint leaves none. -/
def join : Option Bool → Option Bool → Option Bool
  | some a, some b => some (a || b)
  | _, _ => none

inductive Shape where
  | test
  | emptySearch
  | not (s : Shape)
  | and (s t : Shape)
  | or (s t : Shape)
  deriving DecidableEq

namespace Shape

/-- The value of a formula together with what its filter says, where it puts a constraint. -/
def outcomes : Shape → List (Bool × Option Bool)
  | test => [(true, some true), (false, some false)]
  | emptySearch => [(false, none)]
  | not s => s.outcomes.map fun o => (!o.1, o.2.map (!·))
  | and s t => s.outcomes.flatMap fun o => t.outcomes.map fun u => (o.1 && u.1, meet o.2 u.2)
  | or s t => s.outcomes.flatMap fun o => t.outcomes.map fun u => (o.1 || u.1, join o.2 u.2)

/-- Whether the filter can reject a row that the formula is true of. -/
def losesRows (s : Shape) : Bool :=
  s.outcomes.contains (true, some false)

/-- Whether the filter puts a constraint. -/
def constrains : Shape → Bool
  | test => true
  | emptySearch => false
  | not s => s.constrains
  | and s t => s.constrains || t.constrains
  | or s t => s.constrains && t.constrains

/-- Whether no test searches in an empty list. -/
def isExact : Shape → Bool
  | test => true
  | emptySearch => false
  | not s => s.isExact
  | and s t => s.isExact && t.isExact
  | or s t => s.isExact && t.isExact

variable {s t : Shape} {o u : Bool × Option Bool}

theorem mem_outcomes_not (h : o ∈ s.outcomes) : (!o.1, o.2.map (!·)) ∈ (not s).outcomes :=
  List.mem_map.2 ⟨o, h, rfl⟩

theorem mem_outcomes_and (ho : o ∈ s.outcomes) (hu : u ∈ t.outcomes) :
    (o.1 && u.1, meet o.2 u.2) ∈ (and s t).outcomes :=
  List.mem_flatMap.2 ⟨o, ho, List.mem_map.2 ⟨u, hu, rfl⟩⟩

theorem mem_outcomes_or (ho : o ∈ s.outcomes) (hu : u ∈ t.outcomes) :
    (o.1 || u.1, join o.2 u.2) ∈ (or s t).outcomes :=
  List.mem_flatMap.2 ⟨o, ho, List.mem_map.2 ⟨u, hu, rfl⟩⟩

/-- What a filter of the shape says where each of its tests accepts, or each rejects. -/
theorem exists_uniform (s : Shape) (b : Bool) :
    ∃ v, (v, if s.constrains then some b else none) ∈ s.outcomes := by
  induction s generalizing b with
  | test => exact ⟨b, by cases b <;> decide⟩
  | emptySearch => exact ⟨false, by simp [constrains, outcomes]⟩
  | not s ih =>
    obtain ⟨v, hv⟩ := ih (!b)
    refine ⟨!v, ?_⟩
    have hmem := mem_outcomes_not hv
    cases hs : s.constrains <;> simpa [constrains, hs] using hmem
  | and s t ihs iht =>
    obtain ⟨v, hv⟩ := ihs b
    obtain ⟨w, hw⟩ := iht b
    refine ⟨v && w, ?_⟩
    have hmem := mem_outcomes_and hv hw
    cases hs : s.constrains <;> cases ht : t.constrains <;>
      simpa [constrains, hs, ht, meet] using hmem
  | or s t ihs iht =>
    obtain ⟨v, hv⟩ := ihs b
    obtain ⟨w, hw⟩ := iht b
    refine ⟨v || w, ?_⟩
    have hmem := mem_outcomes_or hv hw
    cases hs : s.constrains <;> cases ht : t.constrains <;>
      simpa [constrains, hs, ht, join] using hmem

/-- Whatever a filter of the shape can say, it says in some outcome. -/
theorem exists_mem_outcomes {r : Option Bool} (h : r.isSome = s.constrains) :
    ∃ v, (v, r) ∈ s.outcomes := by
  cases r with
  | none => simpa [← h] using s.exists_uniform true
  | some b => simpa [← h] using s.exists_uniform b

/-- Without searches in empty lists the filter says what the formula is. -/
theorem eq_of_isExact (h : s.isExact) (ho : o ∈ s.outcomes) : o.2 = some o.1 := by
  induction s generalizing o with
  | test =>
    simp only [outcomes, List.mem_cons, List.not_mem_nil, or_false] at ho
    rcases ho with rfl | rfl <;> rfl
  | emptySearch => exact absurd h (by decide)
  | not s ih =>
    obtain ⟨u, hu, rfl⟩ := List.mem_map.1 ho
    simp [ih h hu]
  | and s t ihs iht =>
    simp only [isExact, Bool.and_eq_true] at h
    obtain ⟨u, hu, hmem⟩ := List.mem_flatMap.1 ho
    obtain ⟨w, hw, rfl⟩ := List.mem_map.1 hmem
    simp [ihs h.1 hu, iht h.2 hw, meet]
  | or s t ihs iht =>
    simp only [isExact, Bool.and_eq_true] at h
    obtain ⟨u, hu, hmem⟩ := List.mem_flatMap.1 ho
    obtain ⟨w, hw, rfl⟩ := List.mem_map.1 hmem
    simp [ihs h.1 hu, iht h.2 hw, join]

theorem constrains_of_isExact (h : s.isExact) : s.constrains := by
  induction s with
  | test => rfl
  | emptySearch => exact absurd h (by decide)
  | not s ih => exact ih h
  | and s t ihs _ =>
    simp only [isExact, Bool.and_eq_true] at h
    simp [constrains, ihs h.1]
  | or s t ihs iht =>
    simp only [isExact, Bool.and_eq_true] at h
    simp [constrains, ihs h.1, iht h.2]

theorem losesRows_iff : s.losesRows ↔ (true, some false) ∈ s.outcomes := by
  rw [losesRows, List.contains_iff_mem]

end Shape

end TableClient.Filter
