import TableClient.Filter.Predicate
import TableClient.Proofs.Filter.Grouped
import TableClient.Proofs.Filter.LiteralQuotes

/-! Alternatives at the root of a text. A text is one if its outermost level has the connective `or`, which
the scanner finds. Beyond that the scanner takes only columns for an `or`, those whose names have quotes in
them and end in `or` after the last: a connective, an operator or a keyword has no quotes, and a literal
with a quote in it also ends with one. -/

namespace TableClient.Filter

variable {w cs : List Char} {ts : List Token} {ps : List Part} {x y z : Condition} {separator : List Char}
  {read : List Part → Option Condition} {join : Condition → Condition → Condition}

/-! ### The connective -/

/-- A text whose root is an `or`: the text on each side of the word spells a condition, and the text holds
where one of them does. -/
def IsAlternative (cs : List Char) : Prop :=
  ∃ ts us x y, tokens cs = ts ++ .word "or".toList :: us ∧ conditionFrom [] [] ts = some x ∧
    conditionFrom [] [] us = some y ∧ condition? cs = some (.or x y)

/-- A level is cut at a word into levels. -/
theorem IsLevel.exists_cut {qs : List Part} (h : IsLevel ts (ps ++ .word w :: qs)) :
    ∃ us vs, ts = us ++ .word w :: vs ∧ IsLevel us ps ∧ IsLevel vs qs := by
  induction ps generalizing ts with
  | nil =>
    cases h with
    | word _ h => exact ⟨[], _, rfl, .nil, h⟩
  | cons p ps ih =>
    cases h with
    | word v h =>
      obtain ⟨us, vs, rfl, hus, hvs⟩ := ih h
      exact ⟨.word v :: us, vs, rfl, .word v hus, hvs⟩
    | group hin hc h =>
      obtain ⟨us, vs, rfl, hus, hvs⟩ := ih h
      exact ⟨.opening :: (_ ++ .closing :: us), vs, by simp, .group hin hc hus, hvs⟩

theorem exists_joinBy_cons {c : Condition} {cs : List Condition} (hne : cs ≠ [])
    (h : joinBy join (c :: cs) = some z) : ∃ y, joinBy join cs = some y ∧ z = join c y := by
  cases cs with
  | nil => exact absurd rfl hne
  | cons d ds =>
    obtain ⟨y, hy, rfl⟩ := Option.map_eq_some_iff.1 h
    exact ⟨y, hy, rfl⟩

theorem splitAt_mapM_ne_nil {cs : List Condition} (h : (splitAt separator ps).mapM read = some cs) :
    cs ≠ [] := by
  obtain ⟨run, runs, hruns⟩ := List.exists_cons_of_ne_nil (splitAt_ne_nil separator ps)
  rintro rfl
  rw [hruns, List.mapM_cons] at h
  obtain ⟨c, -, h⟩ := Option.bind_eq_some_iff.1 h
  obtain ⟨cs, -, h⟩ := Option.bind_eq_some_iff.1 h
  cases h

/-- At the first `or` a disjunction is cut into what stands before and what stands after it. -/
theorem exists_or_of_mem (hmem : .word "or".toList ∈ ps) (hz : disjunction? ps = some z) :
    ∃ qs rs x y, ps = qs ++ .word "or".toList :: rs ∧ disjunction? qs = some x ∧
      disjunction? rs = some y ∧ z = .or x y := by
  obtain ⟨qs, rs, rfl, hfirst⟩ := List.eq_append_cons_of_mem hmem
  rw [disjunction?, splitAt_append_both, splitAt_of_not_mem hfirst, List.singleton_append,
    List.mapM_cons] at hz
  obtain ⟨cs, hcs, hz⟩ := Option.bind_eq_some_iff.1 hz
  obtain ⟨x, hx, hcs⟩ := Option.bind_eq_some_iff.1 hcs
  obtain ⟨ds, hds, hcs⟩ := Option.bind_eq_some_iff.1 hcs
  obtain rfl : x :: ds = cs := Option.some_inj.1 hcs
  obtain ⟨y, hy, rfl⟩ := exists_joinBy_cons (splitAt_mapM_ne_nil hds) hz
  refine ⟨qs, rs, x, y, rfl, ?_, ?_, rfl⟩
  · rw [disjunction?_of_not_mem hfirst, hx]
  · rw [disjunction?, hds]
    exact hy

/-- The root of a text is an `or` if the word stands outside all parentheses. -/
theorem IsWellFormed.isAlternative_iff (h : IsWellFormed cs) :
    IsAlternative cs ↔ orAt 0 (tokens cs) := by
  rw [orAt_iff]
  constructor
  · rintro ⟨ts, us, x, y, htokens, hx, -, -⟩
    obtain ⟨qs, hqs, -⟩ := conditionFrom_eq_some_iff.1 hx
    rw [htokens, mem_outerWords_level hqs, mem_outerWords_word]
    exact .inr (.inl ⟨rfl, rfl⟩)
  · intro hmem
    obtain ⟨z, hz⟩ := Option.isSome_iff_exists.1 h.read
    obtain ⟨ps, hlevel, hps⟩ := condition?_eq_some_iff.1 hz
    rw [mem_outerWords_tokens hlevel] at hmem
    obtain ⟨qs, rs, x, y, rfl, hx, hy, rfl⟩ := exists_or_of_mem hmem hps
    obtain ⟨us, vs, htokens, hus, hvs⟩ := hlevel.exists_cut
    exact ⟨us, vs, x, y, htokens, conditionFrom_eq_some_iff.2 ⟨qs, hus, hx⟩,
      conditionFrom_eq_some_iff.2 ⟨rs, hvs, hy⟩, hz⟩

/-! ### Columns -/

def Condition.columns : Condition → List String
  | column name => [name]
  | test name _ _ => [name]
  | not c => c.columns
  | and a b => a.columns ++ b.columns
  | or a b => a.columns ++ b.columns

theorem quote_not_mem_of_comparison? {op : BinaryOp} (h : comparison? w = some op) : '\x27' ∉ w := by
  have hfind := (Option.filter_eq_some_iff.1 h).1
  have hname := List.find?_some hfind
  rw [beq_iff_eq] at hname
  rw [← String.toList_ofList (l := w), ← hname]
  cases op <;> decide

theorem EndsInOr.not_literal (h : EndsInOr w) : Literal.read? w = none := by
  refine Option.eq_none_iff_forall_ne_some.2 fun v hv => ?_
  obtain ⟨front, rfl⟩ := List.getLast?_eq_some_iff.1 (Literal.getLast?_of_read? hv h.1)
  have hkept := h.2
  rw [afterQuotes_quote] at hkept
  cases hkept

theorem EndsInOr.mem_columns_atom? (h : EndsInOr w) (hmem : .word w ∈ ps) (hx : atom? ps = some x) :
    String.ofList w ∈ x.columns := by
  unfold atom? at hx
  split at hx
  next => cases List.mem_singleton.1 hmem
  next =>
    cases List.mem_singleton.1 hmem
    split at hx
    · cases hx
    · cases hx
      exact List.mem_singleton_self _
  next op literal =>
    split at hx
    · cases hx
    · obtain ⟨o, ho, hx⟩ := Option.bind_eq_some_iff.1 hx
      obtain ⟨v, hv, hx⟩ := Option.bind_eq_some_iff.1 hx
      cases hx
      simp only [List.mem_cons, List.not_mem_nil, or_false, Part.word.injEq] at hmem
      rcases hmem with rfl | rfl | rfl
      · exact List.mem_singleton_self _
      · exact absurd h.1 (quote_not_mem_of_comparison? ho)
      · rw [h.not_literal] at hv
        cases hv
  next => cases hx

theorem EndsInOr.mem_columns_negation? (h : EndsInOr w) (hmem : .word w ∈ ps)
    (hx : negation? ps = some x) : String.ofList w ∈ x.columns := by
  induction ps generalizing x with
  | nil => cases hmem
  | cons p ps ih =>
    cases p with
    | group c => exact h.mem_columns_atom? hmem hx
    | word v =>
      rw [negation?] at hx
      split at hx
      next hnot =>
        obtain ⟨y, hy, rfl⟩ := Option.map_eq_some_iff.1 hx
        rcases List.mem_cons.1 hmem with hv | hmem
        · obtain rfl := Part.word.inj hv
          rw [hnot] at h
          exact absurd h.1 (by decide)
        · have hin : String.ofList w ∈ y.columns := ih hmem hy
          exact hin
      next => exact h.mem_columns_atom? hmem hx

/-- A word that is no separator stands in one of the runs. -/
theorem exists_run_of_mem (hmem : .word w ∈ ps) (hne : w ≠ separator) :
    ∃ run ∈ splitAt separator ps, .word w ∈ run := by
  induction ps with
  | nil => cases hmem
  | cons p ps ih =>
    by_cases hp : p = .word separator
    · rw [hp, List.mem_cons, Part.word.injEq] at hmem
      obtain ⟨run, hrun, hin⟩ := ih (hmem.resolve_left hne)
      rw [hp, splitAt_separator]
      exact ⟨run, List.mem_cons_of_mem _ hrun, hin⟩
    · obtain ⟨first, runs, hruns⟩ := List.exists_cons_of_ne_nil (splitAt_ne_nil separator ps)
      rw [splitAt_cons_of_ne hp hruns]
      rw [hruns] at ih
      rcases List.mem_cons.1 hmem with rfl | hmem
      · exact ⟨_, List.mem_cons_self, List.mem_cons_self⟩
      · obtain ⟨run, hrun, hin⟩ := ih hmem
        rcases List.mem_cons.1 hrun with rfl | hrun
        · exact ⟨_, List.mem_cons_self, List.mem_cons_of_mem _ hin⟩
        · exact ⟨run, List.mem_cons_of_mem _ hrun, hin⟩

theorem exists_of_mapM {runs : List (List Part)} {cs : List Condition} (h : runs.mapM read = some cs)
    {run : List Part} (hrun : run ∈ runs) : ∃ c ∈ cs, read run = some c := by
  induction runs generalizing cs with
  | nil => cases hrun
  | cons first runs ih =>
    rw [List.mapM_cons] at h
    obtain ⟨c, hc, h⟩ := Option.bind_eq_some_iff.1 h
    obtain ⟨ds, hds, h⟩ := Option.bind_eq_some_iff.1 h
    obtain rfl : c :: ds = cs := Option.some_inj.1 h
    rcases List.mem_cons.1 hrun with rfl | hrun
    · exact ⟨c, List.mem_cons_self, hc⟩
    · obtain ⟨d, hd, hread⟩ := ih hds hrun
      exact ⟨d, List.mem_cons_of_mem _ hd, hread⟩

section Joined

variable (hjoin : ∀ c d : Condition, (join c d).columns = c.columns ++ d.columns)
include hjoin

theorem mem_columns_joinBy {cs : List Condition} (h : joinBy join cs = some x) {c : Condition}
    (hc : c ∈ cs) {name : String} (hname : name ∈ c.columns) : name ∈ x.columns := by
  induction cs generalizing x with
  | nil => cases hc
  | cons d ds ih =>
    by_cases hds : ds = []
    · subst hds
      cases List.mem_singleton.1 hc
      cases h
      exact hname
    · obtain ⟨y, hy, rfl⟩ := exists_joinBy_cons hds h
      rw [hjoin, List.mem_append]
      rcases List.mem_cons.1 hc with rfl | hc
      · exact .inl hname
      · exact .inr (ih hy hc)

/-- A column of one of the runs is one of what they are joined to. -/
theorem mem_columns_joinRuns (hmem : .word w ∈ ps) (hne : w ≠ separator) {name : String}
    (hread : ∀ run c, .word w ∈ run → read run = some c → name ∈ c.columns)
    (h : joinRuns separator read join ps = some x) : name ∈ x.columns := by
  obtain ⟨run, hrun, hin⟩ := exists_run_of_mem hmem hne
  obtain ⟨cs, hcs, hx⟩ := Option.bind_eq_some_iff.1 h
  obtain ⟨c, hc, hrc⟩ := exists_of_mapM hcs hrun
  exact mem_columns_joinBy hjoin hx hc (hread run c hin hrc)

end Joined

/-- On a level that is read, a word that ends so is a column. -/
theorem EndsInOr.mem_columns (h : EndsInOr w) (hmem : .word w ∈ ps) (hx : disjunction? ps = some x) :
    String.ofList w ∈ x.columns := by
  have hne {keyword : List Char} (hkeyword : '\x27' ∉ keyword) : w ≠ keyword :=
    ne_of_mem_of_not_mem' h.1 hkeyword
  refine mem_columns_joinRuns (fun _ _ => rfl) hmem (hne (by decide)) (fun run c hrun hc => ?_) hx
  exact mem_columns_joinRuns (fun _ _ => rfl) hrun (hne (by decide))
    (fun _ _ hin hread => h.mem_columns_negation? hin hread) hc

theorem EndsInOr.exists_column (h : EndsInOr w) (hread : (condition? cs).isSome)
    (hmem : w ∈ outerWords 0 (tokens cs)) : ∃ x, condition? cs = some x ∧ String.ofList w ∈ x.columns := by
  obtain ⟨x, hx⟩ := Option.isSome_iff_exists.1 hread
  obtain ⟨ps, hlevel, hps⟩ := condition?_eq_some_iff.1 hx
  rw [mem_outerWords_tokens hlevel] at hmem
  exact ⟨x, hx, h.mem_columns hmem hps⟩

/-! ### The scanners and the grammar -/

/-- A text that the store understands is grouped if it is a text that the store understands in parentheses.
Taking parentheses off ends with one of the same condition that is not grouped. An `or` is found in a
text whose root is one; in another only if a column outside all parentheses has quotes in its name and
`or` after the last. -/
theorem scans_of_isWellFormed (h : IsWellFormed cs) :
    (isGrouped cs ↔ ∃ ds, cs = group ds ∧ IsWellFormed ds) ∧
      (IsWellFormed (stripOuter cs) ∧ isGrouped (stripOuter cs) = false ∧
        condition? (stripOuter cs) = condition? cs) ∧
      (hasTopLevelOr cs ↔ IsAlternative cs ∨ ∃ w ∈ outerWords 0 (tokens cs), EndsInOr w ∧
        ∃ x, condition? cs = some x ∧ String.ofList w ∈ x.columns) := by
  obtain ⟨after, hafter⟩ := Option.isSome_iff_exists.1 h.spaced
  refine ⟨h.isGrouped_iff, h.stripOuter, ?_⟩
  rw [hasTopLevelOr_iff (quotedAfter_of_blankAfter hafter), h.isAlternative_iff]
  refine or_congr_right ⟨?_, ?_⟩
  · rintro ⟨w, hw, hends⟩
    exact ⟨w, hw, hends, hends.exists_column h.read hw⟩
  · rintro ⟨w, hw, hends, -⟩
    exact ⟨w, hw, hends⟩

/-- In a comparison with a text the word and the parenthesis between its quotes count for nothing. -/
theorem scans_of_quoted_or :
    IsWellFormed "(Name eq \x27x or (y\x27)".toList ∧
      (∃ ds, "(Name eq \x27x or (y\x27)".toList = group ds ∧ IsWellFormed ds) ∧
      ¬IsAlternative "(Name eq \x27x or (y\x27)".toList := by
  have h : IsWellFormed "(Name eq \x27x or (y\x27)".toList := by decide
  obtain ⟨hgrouped, -, hor⟩ := scans_of_isWellFormed h
  have hnone : ¬hasTopLevelOr "(Name eq \x27x or (y\x27)".toList := by decide
  exact ⟨h, hgrouped.1 (by decide), fun halt => hnone (hor.2 (.inl halt))⟩

/-- A column can be named so that it is taken for an `or`, which is not the root of its text. -/
theorem column_taken_for_or : ∃ renames, Renames.ofList [("Flag", "a\x27b\x27or")] = .ok renames ∧
    Lambda.toFilter ⟨"e", .member (.parameter "e") "Flag"⟩ renames = .ok "a\x27b\x27or" ∧
    IsWellFormed "a\x27b\x27or".toList ∧ hasTopLevelOr "a\x27b\x27or".toList ∧
    ¬IsAlternative "a\x27b\x27or".toList := by
  have h : IsWellFormed "a\x27b\x27or".toList := by decide
  refine ⟨⟨[("Flag", "a\x27b\x27or")]⟩, rfl, rfl, h, by decide, ?_⟩
  rw [h.isAlternative_iff]
  decide

end TableClient.Filter
