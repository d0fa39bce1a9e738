import TableClient.Proofs.Filter.Balance

/-! Levels of parentheses. The tokens between two parentheses that belong together are a level: words, and
groups that stand for the levels within. The reader of tokens accepts exactly the levels that spell a
condition, whatever is still open around them. -/

namespace TableClient.Filter

variable {ts us : List Token} {ps qs cur : List Part} {outer : List (List Part)} {c d x : Condition}

/-- The tokens of a level, and its parts. -/
inductive IsLevel : List Token → List Part → Prop
  | nil : IsLevel [] []
  | word {ts : List Token} {ps : List Part} (w : List Char) :
      IsLevel ts ps → IsLevel (.word w :: ts) (.word w :: ps)
  | group {ts us : List Token} {ps qs : List Part} {c : Condition} :
      IsLevel ts ps → disjunction? ps = some c → IsLevel us qs →
      IsLevel (.opening :: (ts ++ .closing :: us)) (.group c :: qs)

theorem IsLevel.append (h : IsLevel ts ps) (hu : IsLevel us qs) : IsLevel (ts ++ us) (ps ++ qs) := by
  induction h with
  | nil => exact hu
  | word w _ ih => exact .word w ih
  | group hin hc _ _ ih =>
    rw [List.cons_append, List.append_assoc, List.cons_append]
    exact .group hin hc ih

/-! ### What the reader accepts -/

/-- Reading a level adds its parts to those that stand before it. -/
theorem conditionFrom_level (h : IsLevel ts ps) (cur : List Part) (outer : List (List Part))
    (rest : List Token) : conditionFrom cur outer (ts ++ rest) = conditionFrom (cur ++ ps) outer rest := by
  induction h generalizing cur outer rest with
  | nil => rw [List.nil_append, List.append_nil]
  | word w _ ih => rw [List.cons_append, conditionFrom, ih, List.append_assoc]; rfl
  | group _ hc _ ihin ih =>
    rw [List.cons_append, List.append_assoc, List.cons_append, conditionFrom, ihin, conditionFrom,
      List.nil_append, hc]
    show conditionFrom (cur ++ [.group _]) outer (_ ++ rest) = _
    rw [ih, List.append_assoc]
    rfl

/-- What is left to read where parts and open parentheses stand before it: the rest of the innermost
level, what closes it, and so on outwards. -/
def Completes (cur : List Part) : List (List Part) → List Token → Condition → Prop
  | [], ts, x => ∃ ps, IsLevel ts ps ∧ disjunction? (cur ++ ps) = some x
  | level :: outer, ts, x => ∃ us rest ps c, ts = us ++ .closing :: rest ∧ IsLevel us ps ∧
      disjunction? (cur ++ ps) = some c ∧ Completes (level ++ [.group c]) outer rest x

/-- More of the innermost level may stand before what is left of it. -/
theorem Completes.of_level (hu : IsLevel us qs) (h : Completes (cur ++ qs) outer ts x) :
    Completes cur outer (us ++ ts) x := by
  cases outer with
  | nil =>
    obtain ⟨ps, hlevel, hx⟩ := h
    refine ⟨qs ++ ps, hu.append hlevel, ?_⟩
    rwa [← List.append_assoc]
  | cons level outer =>
    obtain ⟨vs, rest, ps, c, rfl, hlevel, hc, hrest⟩ := h
    refine ⟨us ++ vs, rest, qs ++ ps, c, (List.append_assoc us vs _).symm, hu.append hlevel, ?_, hrest⟩
    rwa [← List.append_assoc]

theorem completes_of_conditionFrom (h : conditionFrom cur outer ts = some x) :
    Completes cur outer ts x := by
  induction ts generalizing cur outer with
  | nil =>
    cases outer with
    | nil => exact ⟨[], .nil, by rwa [List.append_nil]⟩
    | cons level outer => cases h
  | cons t ts ih =>
    cases t with
    | word w => exact Completes.of_level (.word w .nil) (ih h)
    | opening =>
      obtain ⟨us, rest, ps, c, rfl, hlevel, hc, hrest⟩ := ih h
      have hgroup : IsLevel (.opening :: (us ++ [.closing])) [.group c] := .group hlevel hc .nil
      have hwhole := Completes.of_level hgroup hrest
      rwa [List.cons_append, List.append_assoc] at hwhole
    | closing =>
      cases outer with
      | nil => cases h
      | cons level outer =>
        obtain ⟨c, hc, hrest⟩ := Option.bind_eq_some_iff.1 h
        exact ⟨[], ts, [], c, rfl, .nil, by rwa [List.append_nil], ih hrest⟩

/-- Tokens spell a condition if they are a level whose parts do. -/
theorem conditionFrom_eq_some_iff :
    conditionFrom [] [] ts = some x ↔ ∃ ps, IsLevel ts ps ∧ disjunction? ps = some x := by
  constructor
  · intro h
    obtain ⟨ps, hlevel, hx⟩ := completes_of_conditionFrom h
    exact ⟨ps, hlevel, hx⟩
  · rintro ⟨ps, hlevel, hx⟩
    have hread := conditionFrom_level hlevel [] [] []
    rw [List.append_nil, List.nil_append] at hread
    rw [hread]
    exact hx

/-- A text spells a condition if its tokens are a level whose parts do. -/
theorem condition?_eq_some_iff {cs : List Char} :
    condition? cs = some x ↔ ∃ ps, IsLevel (tokens cs) ps ∧ disjunction? ps = some x :=
  conditionFrom_eq_some_iff

/-! ### Conjunctions of levels -/

theorem splitAt_ne_nil (separator : List Char) (ps : List Part) : splitAt separator ps ≠ [] := by
  cases ps with
  | nil => simp [splitAt]
  | cons p ps =>
    cases p with
    | group c =>
      rw [splitAt]
      · split <;> simp
      · rintro _ ⟨⟩
    | word w =>
      rw [splitAt]
      split
      · simp
      · split <;> simp

/-- Runs between separators on both sides of one. -/
theorem splitAt_append_both (separator : List Char) (ps qs : List Part) :
    splitAt separator (ps ++ .word separator :: qs) =
      splitAt separator ps ++ splitAt separator qs := by
  induction ps with
  | nil => exact splitAt_separator
  | cons p ps ih =>
    by_cases hp : p = .word separator
    · rw [hp, List.cons_append, splitAt_separator, splitAt_separator, ih, List.cons_append]
    · obtain ⟨run, runs, hruns⟩ := List.exists_cons_of_ne_nil (splitAt_ne_nil separator ps)
      rw [hruns] at ih
      rw [List.cons_append, splitAt_cons_of_ne hp ih, splitAt_cons_of_ne hp hruns]
      rfl

/-- Conditions joined by `and` hold together. -/
theorem holds_joinBy_and {cs : List Condition} (h : joinBy .and cs = some x) (row : Value) :
    x.holds row = cs.all (·.holds row) := by
  induction cs generalizing x with
  | nil => cases h
  | cons c cs ih =>
    cases cs with
    | nil =>
      cases h
      simp
    | cons d ds =>
      obtain ⟨y, hy, rfl⟩ := Option.map_eq_some_iff.1 h
      rw [List.all_cons, ← ih hy]
      rfl

theorem exists_joinBy_and {cs : List Condition} (h : cs ≠ []) : ∃ x, joinBy .and cs = some x := by
  induction cs with
  | nil => exact absurd rfl h
  | cons c cs ih =>
    cases cs with
    | nil => exact ⟨c, rfl⟩
    | cons d ds =>
      obtain ⟨y, hy⟩ := ih (by simp)
      exact ⟨.and c y, congrArg (Option.map (Condition.and c)) hy⟩

theorem conjunction?_eq_some (h : conjunction? ps = some x) :
    ∃ cs, (splitAt "and".toList ps).mapM negation? = some cs ∧ joinBy .and cs = some x :=
  Option.bind_eq_some_iff.1 h

/-- A conjunction of conjunctions is one, and holds where both do. -/
theorem conjunction?_append {y : Condition} (hp : conjunction? ps = some x)
    (hq : conjunction? qs = some y) :
    ∃ z, conjunction? (ps ++ .word "and".toList :: qs) = some z ∧
      ∀ row, z.holds row = (x.holds row && y.holds row) := by
  obtain ⟨cs, hcs, hx⟩ := conjunction?_eq_some hp
  obtain ⟨ds, hds, hy⟩ := conjunction?_eq_some hq
  have hne : cs ++ ds ≠ [] := by
    intro hnil
    rw [(List.append_eq_nil_iff.1 hnil).1] at hx
    cases hx
  obtain ⟨z, hz⟩ := exists_joinBy_and hne
  refine ⟨z, ?_, fun row => ?_⟩
  · rw [conjunction?, splitAt_append_both, List.mapM_append, hcs, hds]
    exact hz
  · rw [holds_joinBy_and hz, holds_joinBy_and hx, holds_joinBy_and hy, List.all_append]

theorem disjunction?_of_not_mem (h : .word "or".toList ∉ ps) : disjunction? ps = conjunction? ps := by
  rw [disjunction?, splitAt_of_not_mem h]
  cases hp : conjunction? ps <;> simp [hp, joinBy]

end TableClient.Filter
