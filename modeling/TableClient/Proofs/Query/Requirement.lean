import TableClient.Proofs.Filter.WellFormed
import TableClient.Query.Chain

/-! Filters required one after another. A plan takes any well-formed filter text, and its own text stays
well formed and accepts exactly the rows that all of them accept. -/

namespace TableClient.Plan

open TableClient.Filter (IsWellFormed IsNeat condition? accepts)

variable {p q : Plan} {t : String} {a : Value → Bool}

/-- A plan whose filter is neat and accepts the rows of which something is true. -/
structure Requires (p : Plan) (text : String) (a : Value → Bool) : Prop where
  filter_eq : p.filter = some text
  neat : IsNeat text.toList
  read : ∃ x, condition? text.toList = some x ∧ ∀ row, x.holds row = a row

theorem accepts_of_read {x : Filter.Condition} (h : condition? t.toList = some x) (row : Value) :
    accepts t row = x.holds row := by
  rw [accepts, h, Option.any_some]

theorem Requires.accepts_eq {text : String} (h : p.Requires text a) (row : Value) :
    accepts text row = a row := by
  obtain ⟨x, hx, hholds⟩ := h.read
  rw [accepts_of_read hx, hholds]

/-- A well-formed text is required without the blanks around it. -/
theorem addFilter_of_isWellFormed (h : IsWellFormed t.toList) (p : Plan) :
    ∃ text x, IsNeat text.toList ∧ condition? text.toList = some x ∧
      (∀ row, x.holds row = accepts t row) ∧
      p.addFilter t = .ok { p with filter := some (match p.filter with
        | none => text
        | some present => conjoin present text) } := by
  obtain ⟨hneat, hread⟩ := h.trim
  obtain ⟨x, hx⟩ := Option.isSome_iff_exists.1 h.read
  refine ⟨String.ofList (Text.trim t.toList), x, ?_, ?_, fun row => (accepts_of_read hx row).symm, ?_⟩
  · rwa [String.toList_ofList]
  · rw [String.toList_ofList, hread, hx]
  · have hne : String.ofList (Text.trim t.toList) ≠ "" := by
      intro hempty
      apply hneat.ne_nil
      rw [← String.toList_ofList (l := Text.trim t.toList), hempty]
      rfl
    exact if_neg hne

theorem exists_requires_empty (h : IsWellFormed t.toList) :
    ∃ q text, empty.addFilter t = .ok q ∧ q.Requires text (accepts t) := by
  obtain ⟨text, x, hneat, hx, hholds, hadd⟩ := addFilter_of_isWellFormed h empty
  exact ⟨_, text, hadd, rfl, hneat, x, hx, hholds⟩

/-- Requiring one more filter narrows what is accepted to the rows that it accepts too. -/
theorem Requires.addFilter {text : String} (hp : p.Requires text a) (h : IsWellFormed t.toList) :
    ∃ q text, p.addFilter t = .ok q ∧ q.Requires text fun row => a row && accepts t row := by
  obtain ⟨added, y, hneat, hy, hyholds, hadd⟩ := addFilter_of_isWellFormed h p
  obtain ⟨x, hx, hxholds⟩ := hp.read
  obtain ⟨hjoined, z, hz, hzholds⟩ := Filter.conjoin_spec hp.neat hneat hx hy
  rw [hp.filter_eq] at hadd
  refine ⟨_, conjoin text added, hadd, rfl, hjoined, z, hz, fun row => ?_⟩
  rw [hzholds, hxholds, hyholds]

theorem Requires.foldlM {text : String} (hp : p.Requires text a) {ts : List String}
    (h : ∀ t ∈ ts, IsWellFormed t.toList) :
    ∃ q text, ts.foldlM Plan.addFilter p = .ok q ∧
      q.Requires text fun row => a row && ts.all (accepts · row) := by
  induction ts generalizing p text a with
  | nil =>
    refine ⟨p, text, rfl, ?_⟩
    simpa using hp
  | cons t ts ih =>
    obtain ⟨q, joined, hadd, hq⟩ := hp.addFilter (h t List.mem_cons_self)
    obtain ⟨r, whole, hrest, hr⟩ := ih hq fun u hu => h u (List.mem_cons_of_mem _ hu)
    refine ⟨r, whole, ?_, ?_⟩
    · rw [List.foldlM_cons, hadd]
      exact hrest
    · simpa [Bool.and_assoc] using hr

/-- Well-formed filters required one after another are well formed together, and accept the rows that each
of them accepts. -/
theorem foldlM_addFilter (t : String) (ts : List String) (h : ∀ u ∈ t :: ts, IsWellFormed u.toList) :
    ∃ p text, (t :: ts).foldlM Plan.addFilter .empty = .ok p ∧ p.filter = some text ∧
      IsWellFormed text.toList ∧ ∀ row, accepts text row = (t :: ts).all (accepts · row) := by
  obtain ⟨q, first, hadd, hq⟩ := exists_requires_empty (h t List.mem_cons_self)
  obtain ⟨p, text, hrest, hp⟩ := hq.foldlM fun u hu => h u (List.mem_cons_of_mem _ hu)
  obtain ⟨x, hx, -⟩ := hp.read
  refine ⟨p, text, ?_, hp.filter_eq, hp.neat.isWellFormed hx, fun row => ?_⟩
  · rw [List.foldlM_cons, hadd]
    exact hrest
  · rw [hp.accepts_eq, List.all_cons]

/-- An `or` between quotes, one beside parentheses, and a negated group. -/
theorem foldlM_addFilter_quoted :
    let ts := ["A eq 'x or (y'", " (B)or(C) ", "not (D and E ne 'it''s')"]
    (∀ u ∈ ts, IsWellFormed u.toList) ∧ ∃ p text, ts.foldlM Plan.addFilter .empty = .ok p ∧
      p.filter = some text ∧ IsWellFormed text.toList ∧
        ∀ row, accepts text row = ts.all (accepts · row) := by
  intro ts
  have h : ∀ u ∈ ts, IsWellFormed u.toList := by decide +kernel
  exact ⟨h, foldlM_addFilter _ _ h⟩

end TableClient.Plan
