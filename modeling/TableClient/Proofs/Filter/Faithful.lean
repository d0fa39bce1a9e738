import TableClient.Proofs.Filter.Meaning

/-! Which filters mean what their predicates mean. A filter without searches in empty lists accepts the
rows that its predicate is true of and no others. One with such searches may accept more, since "no
constraint" is more than an empty list allows; and under a negation it may accept less, so that rows are
lost. Whether it can is decided by the shape of the predicate alone. -/

namespace TableClient

open TableClient.Filter

namespace Formula

variable {f : Formula} {renames : Renames}

theorem exists_phrase (renames : Renames) (h : f.shape.constrains) :
    ∃ p, f.phrase? renames = some p := by
  have hsome := f.isSome_verdict renames .null
  rw [h, Option.isSome_map] at hsome
  exact Option.isSome_iff_exists.1 hsome

/-- Without searches in empty lists, the phrase of a predicate holds of a stored row exactly if the
predicate is true of the row. -/
theorem holds_of_apply (h : f.Translatable renames) (hexact : f.shape.isExact) {p : Phrase}
    (hp : f.phrase? renames = some p) {row wire : Value} (hstored : f.Stored renames row wire)
    (hordered : f.Ordered row) {param : String} {b : Bool}
    (happly : (f.lambda param).apply row = .ok (.bool b)) : p.holds wire = b := by
  have hmem := verdict_of_evaluate (fits h hstored hordered) happly
  have hverdict := Shape.eq_of_isExact hexact hmem
  rw [hp] at hverdict
  exact Option.some_inj.1 hverdict

/-- The filter of a predicate without searches in empty lists is well formed, and accepts a stored row
exactly if the predicate is true of the row. -/
theorem filter_faithful (h : f.Translatable renames) (hexact : f.shape.isExact) (param : String) :
    ∃ text, (f.lambda param).toFilter renames = .ok text ∧ (condition? text.toList).isSome ∧
      ∀ row wire, f.Stored renames row wire → f.Ordered row →
        ∀ b, (f.lambda param).apply row = .ok (.bool b) → accepts text wire = b := by
  obtain ⟨p, hp⟩ := exists_phrase renames (Shape.constrains_of_isExact hexact)
  have hwf := (isOperand_phrase? h p hp).1
  have htext : (fragmentText (some p)).toList = p.text := String.toList_ofList
  refine ⟨fragmentText (some p), hp ▸ toFilter_eq h param, ?_, ?_⟩
  · rw [htext, Phrase.condition?_text hwf]
    rfl
  · intro row wire hstored hordered b happly
    rw [Phrase.accepts_text hwf htext]
    exact holds_of_apply h hexact hp hstored hordered happly

/-- Neither a name after `d'or` nor one of two sizes. -/
def unlisted : Formula :=
  .not (.or
    (.test (.order .compareTo .lt .right .left "Name" (.literal (.string "d'or"))
      (.literal (.int32 0))))
    (.test (.search "Size" (.literal (.list [.int32 1, .int64 2])))))

theorem filter_faithful_unlisted :
    ∃ text, (unlisted.lambda "e").toFilter .empty = .ok text ∧
      accepts text (.record [("Name", .string "a"), ("Size", .int32 3)]) = true := by
  have h : unlisted.Translatable .empty := by
    intro t ht
    simp only [unlisted, tests, List.cons_append, List.nil_append, List.mem_cons, List.not_mem_nil,
      or_false] at ht
    rcases ht with rfl | rfl
    · exact ⟨by decide, rfl, .string _, 0, rfl, rfl⟩
    · refine ⟨by decide, fun v hv => ?_⟩
      simp only [List.mem_cons, List.not_mem_nil, or_false] at hv
      rcases hv with rfl | rfl
      · exact .int32 1
      · exact .int64 2
  obtain ⟨text, htext, -, hrows⟩ := filter_faithful h rfl "e"
  refine ⟨text, htext, hrows _ _ (fun _ _ => rfl) ?_ true rfl⟩
  intro t ht _
  simp only [unlisted, tests, List.cons_append, List.nil_append, List.mem_cons, List.not_mem_nil,
    or_false] at ht
  rcases ht with rfl | rfl
  · rintro ⟨⟩
  · rintro ⟨⟩

/-- A row with a leap second within a minute is rejected by the filter that asks for it, since the literal
is that of a moment in the next second. -/
theorem leap_second_within_minute_rejected :
    let leap : Instant := ⟨30, 1500000000, by decide⟩
    let f : Formula := .test (.compare .eq .left "Seen" (.literal (.dateTime leap)))
    let row : Value := .record [("Seen", .dateTime leap)]
    (f.lambda "e").toFilter .empty = .ok "Seen eq datetime\x271970-01-01T00:00:31.500Z\x27" ∧
      (f.lambda "e").apply row = .ok (.bool true) ∧
      accepts "Seen eq datetime\x271970-01-01T00:00:31.500Z\x27" row = false :=
  ⟨rfl, rfl, rfl⟩

/-! ### Lost rows -/

/-- The filter lets through every row that the predicate is true of. The empty text lets all
through. -/
def Keeps (f : Formula) (renames : Renames) : Prop :=
  ∀ param text, (f.lambda param).toFilter renames = .ok text →
    ∀ row wire, f.Stored renames row wire → f.Ordered row →
      (f.lambda param).apply row = .ok (.bool true) → text = "" ∨ accepts text wire

theorem keeps_of_shape (h : f.Translatable renames) (hs : f.shape.losesRows = false) :
    f.Keeps renames := by
  intro param text htext row wire hstored hordered happly
  rw [toFilter_eq h param] at htext
  cases htext
  have hmem := verdict_of_evaluate (fits h hstored hordered) happly
  cases hp : f.phrase? renames with
  | none => exact .inl rfl
  | some p =>
    refine .inr ?_
    have htext : (fragmentText (some p)).toList = p.text := String.toList_ofList
    rw [Phrase.accepts_text (isOperand_phrase? h p hp).1 htext]
    cases hholds : p.holds wire with
    | true => rfl
    | false =>
      rw [hp, Phrase.verdict, Option.map_some, hholds, ← Shape.losesRows_iff, hs] at hmem
      exact absurd hmem Bool.false_ne_true

end Formula

/-! Every outcome of a shape is one of a formula on a row with a true and a false member. -/

/-- The row with the true member `T` and the false member `F`. -/
def truthRow : Value := .record [("F", .bool false), ("T", .bool true)]

/-- The formula has the shape, and the outcome on `truthRow`. -/
structure Formula.Realizes (f : Formula) (s : Shape) (o : Bool × Option Bool) : Prop where
  shape_eq : f.shape = s
  translatable : f.Translatable .empty
  unordered : ∀ t ∈ f.tests, t.isOrder = false
  evaluate_eq : (f.body "e").evaluate [("e", truthRow)] = .ok (.bool o.1)
  verdict_eq : Phrase.verdict (f.phrase? .empty) truthRow = o.2

namespace Formula.Realizes

variable {f g : Formula} {s t : Shape} {o u : Bool × Option Bool}

theorem not (h : f.Realizes s o) : (Formula.not f).Realizes (.not s) (!o.1, o.2.map (!·)) where
  shape_eq := congrArg Shape.not h.shape_eq
  translatable := h.translatable
  unordered := h.unordered
  evaluate_eq := by
    rw [body, Expr.evaluate, h.evaluate_eq]
    rfl
  verdict_eq := by rw [verdict_not, h.verdict_eq]

theorem and (hf : f.Realizes s o) (hg : g.Realizes t u) :
    (Formula.and f g).Realizes (.and s t) (o.1 && u.1, meet o.2 u.2) where
  shape_eq := by rw [shape, hf.shape_eq, hg.shape_eq]
  translatable := List.forall_mem_append.2 ⟨hf.translatable, hg.translatable⟩
  unordered := List.forall_mem_append.2 ⟨hf.unordered, hg.unordered⟩
  evaluate_eq := by
    rw [body, Expr.evaluate, hf.evaluate_eq, hg.evaluate_eq]
    cases o.1 <;> rfl
  verdict_eq := by rw [phrase?, Phrase.verdict_both, hf.verdict_eq, hg.verdict_eq]

theorem or (hf : f.Realizes s o) (hg : g.Realizes t u) :
    (Formula.or f g).Realizes (.or s t) (o.1 || u.1, join o.2 u.2) where
  shape_eq := by rw [shape, hf.shape_eq, hg.shape_eq]
  translatable := List.forall_mem_append.2 ⟨hf.translatable, hg.translatable⟩
  unordered := List.forall_mem_append.2 ⟨hf.unordered, hg.unordered⟩
  evaluate_eq := by
    rw [body, Expr.evaluate, hf.evaluate_eq, hg.evaluate_eq]
    cases o.1 <;> rfl
  verdict_eq := by rw [phrase?, Phrase.verdict_either, hf.verdict_eq, hg.verdict_eq]

theorem isTrue : (Formula.test (.member "T")).Realizes .test (true, some true) where
  shape_eq := rfl
  translatable := by
    intro t ht
    rw [List.mem_singleton.1 ht]
    exact (by decide : IsColumn "T")
  unordered := by simp [tests, RowTest.isOrder]
  evaluate_eq := rfl
  verdict_eq := rfl

theorem isFalse : (Formula.test (.member "F")).Realizes .test (false, some false) where
  shape_eq := rfl
  translatable := by
    intro t ht
    rw [List.mem_singleton.1 ht]
    exact (by decide : IsColumn "F")
  unordered := by simp [tests, RowTest.isOrder]
  evaluate_eq := rfl
  verdict_eq := rfl

theorem emptySearch : (Formula.test (.search "F" (.literal (.list [])))).Realizes .emptySearch
    (false, none) where
  shape_eq := rfl
  translatable := by
    intro t ht
    rw [List.mem_singleton.1 ht]
    exact ⟨by decide, nofun⟩
  unordered := by simp [tests, RowTest.isOrder]
  evaluate_eq := rfl
  verdict_eq := rfl

end Formula.Realizes

theorem exists_realizes {s : Shape} {o : Bool × Option Bool} (h : o ∈ s.outcomes) :
    ∃ f : Formula, f.Realizes s o := by
  induction s generalizing o with
  | test =>
    simp only [Shape.outcomes, List.mem_cons, List.not_mem_nil, or_false] at h
    rcases h with rfl | rfl
    · exact ⟨_, .isTrue⟩
    · exact ⟨_, .isFalse⟩
  | emptySearch =>
    rw [List.mem_singleton.1 h]
    exact ⟨_, .emptySearch⟩
  | not s ih =>
    obtain ⟨u, hu, rfl⟩ := List.mem_map.1 h
    obtain ⟨f, hf⟩ := ih hu
    exact ⟨_, hf.not⟩
  | and s t ihs iht =>
    obtain ⟨u, hu, hmem⟩ := List.mem_flatMap.1 h
    obtain ⟨w, hw, rfl⟩ := List.mem_map.1 hmem
    obtain ⟨f, hf⟩ := ihs hu
    obtain ⟨g, hg⟩ := iht hw
    exact ⟨_, hf.and hg⟩
  | or s t ihs iht =>
    obtain ⟨u, hu, hmem⟩ := List.mem_flatMap.1 h
    obtain ⟨w, hw, rfl⟩ := List.mem_map.1 hmem
    obtain ⟨f, hf⟩ := ihs hu
    obtain ⟨g, hg⟩ := iht hw
    exact ⟨_, hf.or hg⟩

/-- No formula of a shape loses rows exactly if the shape has no outcome that does. -/
theorem keeps_iff (s : Shape) :
    (∀ (f : Formula) (renames : Renames), f.shape = s → f.Translatable renames → f.Keeps renames) ↔
      s.losesRows = false := by
  constructor
  · intro hkeeps
    rw [← Bool.not_eq_true, Shape.losesRows_iff]
    intro hlost
    obtain ⟨f, hf⟩ := exists_realizes hlost
    obtain ⟨p, hp, hholds⟩ := Option.map_eq_some_iff.1 hf.verdict_eq
    have hwf := (Formula.isOperand_phrase? hf.translatable p hp).1
    have htext : (fragmentText (some p)).toList = p.text := String.toList_ofList
    have hfilter := Formula.toFilter_eq hf.translatable "e"
    rw [hp] at hfilter
    have hstored : f.Stored .empty truthRow truthRow := fun _ _ => rfl
    have hordered : f.Ordered truthRow := fun t ht horder => by
      rw [hf.unordered t ht] at horder
      exact absurd horder Bool.false_ne_true
    rcases hkeeps f .empty hf.shape_eq hf.translatable "e" _ hfilter truthRow truthRow hstored hordered
      hf.evaluate_eq with hempty | haccepts
    · exact ofList_ne_empty (Phrase.text_ne_nil hwf) hempty
    · rw [Phrase.accepts_text hwf htext, hholds] at haccepts
      exact Bool.false_ne_true haccepts
  · rintro hs f renames rfl h
    exact Formula.keeps_of_shape h hs

/-- Under a negation, the empty search that `and` has absorbed turns from too much into too little. -/
theorem negated_absorption_loses_row :
    let f : Formula := .not (.and (.test (.member "A")) (.test (.search "B" (.literal (.list [])))))
    let row : Value := .record [("A", .bool true), ("B", .int32 1)]
    (f.lambda "e").toFilter .empty = .ok "not (A)" ∧
      (f.lambda "e").apply row = .ok (.bool true) ∧ accepts "not (A)" row = false :=
  ⟨rfl, rfl, rfl⟩

end TableClient
