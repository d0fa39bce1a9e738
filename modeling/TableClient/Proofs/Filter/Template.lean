import TableClient.Proofs.Filter.Quotes

/-! Templates: texts that have a gap or none. Joining templates by an operator, negating one, or searching for
a text among other items gives a template again, whatever text fills the gap; and only an `or` with nothing
on its other side loses the gap. -/

namespace TableClient.Filter

inductive Template where
  | fixed (text : String) (closed : QuotesClosed text.toList)
  | gap (g : Gap)

namespace Template

def fill : Template → String → String
  | fixed text _, _ => text
  | gap g, s => String.ofList (g.fill s)

def IsGap : Template → Prop
  | fixed .. => False
  | gap _ => True

def IsEmpty (t : Template) : Prop :=
  t.fill "" = ""

theorem ofList_fill_ne_empty (g : Gap) (s : String) : String.ofList (g.fill s) ≠ "" :=
  ofList_ne_empty (g.fill_ne_nil s)

variable {t u : Template}

theorem fill_eq_empty_iff (s : String) : t.fill s = "" ↔ t.IsEmpty := by
  cases t with
  | fixed => exact Iff.rfl
  | gap g => exact iff_of_false (ofList_fill_ne_empty g s) (ofList_fill_ne_empty g "")

theorem not_isGap_of_isEmpty (h : t.IsEmpty) : ¬t.IsGap := by
  cases t with
  | fixed => exact id
  | gap g => exact absurd h (ofList_fill_ne_empty g "")

/-- A text that is the same for every instance. -/
theorem uniform_fixed {x : Except QueryError String} {P : Template → Prop} (h : Closes x)
    (hP : ∀ text closed, P (fixed text closed)) : Uniform (fun _ : String => x) fill P := by
  cases x with
  | error e => exact .error fun _ => rfl
  | ok text => exact .ok (k := .fixed text (h text rfl)) (hP _ _) fun _ => rfl

/-! ### Operators on templates -/

theorem exists_grouped (t : Template) :
    ∃ v : Template, (v.IsGap ↔ t.IsGap) ∧ ∀ s, grouped (t.fill s) = v.fill s := by
  cases t with
  | fixed text closed => exact ⟨.fixed _ (quotesClosed_grouped closed), Iff.rfl, fun s => rfl⟩
  | gap g =>
    refine ⟨.gap g.grouped, Iff.rfl, fun s => ?_⟩
    rw [fill, fill, Gap.fill_grouped, ofList_group]

/-- The gap of one operand, if it has one, is the gap of both joined. -/
theorem exists_joined (op : BinaryOp) (h : ¬(t.IsGap ∧ u.IsGap)) :
    ∃ v : Template, (v.IsGap ↔ t.IsGap ∨ u.IsGap) ∧ ∀ s, joined op (t.fill s) (u.fill s) = v.fill s := by
  cases t with
  | fixed l hl =>
    cases u with
    | fixed r hr => exact ⟨.fixed _ (quotesClosed_joined op hl hr), by simp [IsGap], fun s => rfl⟩
    | gap g =>
      refine ⟨.gap (g.joinedRight op l.toList hl), by simp [IsGap], fun s => ?_⟩
      rw [fill, fill, fill, Gap.fill_joinedRight, ofList_joinedChars, String.ofList_toList]
  | gap g =>
    cases u with
    | fixed r hr =>
      refine ⟨.gap (g.joinedLeft op r.toList hr), by simp [IsGap], fun s => ?_⟩
      rw [fill, fill, fill, Gap.fill_joinedLeft, ofList_joinedChars, String.ofList_toList]
    | gap g' => exact absurd ⟨trivial, trivial⟩ h

/-- A connective loses a gap only as an `or` with nothing on a side. -/
theorem exists_connect (op : BinaryOp) (h : ¬(t.IsGap ∧ u.IsGap)) :
    ∃ v : Template,
      (v.IsGap ↔ (t.IsGap ∨ u.IsGap) ∧ ¬(op = .or ∧ (t.IsEmpty ∨ u.IsEmpty))) ∧
      ∀ s, connect op (t.fill s) (u.fill s) = v.fill s := by
  by_cases hlost : op = .or ∧ (t.IsEmpty ∨ u.IsEmpty)
  · refine ⟨.fixed "" .nil, by simp [IsGap, hlost], fun s => ?_⟩
    show connect op (t.fill s) (u.fill s) = ""
    simp [connect, fill_eq_empty_iff, hlost]
  by_cases ht : t.IsEmpty
  · have hor : op ≠ .or := fun hor => hlost ⟨hor, .inl ht⟩
    refine ⟨u, by simp [not_isGap_of_isEmpty ht, hor], fun s => ?_⟩
    by_cases hu : u.IsEmpty
    · simp [connect, (fill_eq_empty_iff s).2 ht, (fill_eq_empty_iff s).2 hu]
    · simp [connect, fill_eq_empty_iff, ht, hu, hor]
  by_cases hu : u.IsEmpty
  · have hor : op ≠ .or := fun hor => hlost ⟨hor, .inr hu⟩
    refine ⟨t, by simp [not_isGap_of_isEmpty hu, hor], fun s => ?_⟩
    simp [connect, fill_eq_empty_iff, ht, hu, hor]
  obtain ⟨v, hv, hjoined⟩ := exists_joined op h
  obtain ⟨w, hw, hgrouped⟩ := v.exists_grouped
  refine ⟨w, by simp [hw, hv, ht, hu], fun s => ?_⟩
  rw [← hgrouped, ← hjoined]
  simp [connect, fill_eq_empty_iff, ht, hu]

theorem uniform_compareFragments (op : BinaryOp) (compound : Bool) (h : ¬(t.IsGap ∧ u.IsGap)) :
    Uniform (fun s => compareFragments op compound (t.fill s) (u.fill s)) fill fun v =>
      v.IsGap ↔ t.IsGap ∨ u.IsGap := by
  by_cases hempty : t.IsEmpty ∨ u.IsEmpty
  · refine .error fun s => if_pos ?_
    rwa [fill_eq_empty_iff, fill_eq_empty_iff]
  obtain ⟨v, hv, hjoined⟩ := exists_joined op h
  have hcompare (s : String) : compareFragments op compound (t.fill s) (u.fill s) =
      if compound then .ok (grouped (v.fill s)) else .ok (v.fill s) := by
    rw [← hjoined]
    refine if_neg ?_
    rwa [fill_eq_empty_iff, fill_eq_empty_iff]
  cases compound with
  | true =>
    obtain ⟨w, hw, hgrouped⟩ := v.exists_grouped
    exact .ok (hw.trans hv) fun s => (hcompare s).trans (congrArg Except.ok (hgrouped s))
  | false => exact .ok hv hcompare

theorem exists_negate (t : Template) (atomic : Bool) :
    ∃ v : Template, (v.IsGap ↔ t.IsGap) ∧ ∀ s, negate atomic (t.fill s) = v.fill s := by
  cases t with
  | fixed text closed => exact ⟨.fixed _ (quotesClosed_negate atomic closed), Iff.rfl, fun s => rfl⟩
  | gap g =>
    have hnegate (s : String) : negate atomic (String.ofList (g.fill s)) =
        if atomic || isGrouped (g.fill "") then "not " ++ String.ofList (g.fill s)
        else "not " ++ grouped (String.ofList (g.fill s)) := by
      rw [negate, if_neg (ofList_fill_ne_empty g s), String.toList_ofList, g.isGrouped_fill s ""]
    cases hplain : atomic || isGrouped (g.fill "") with
    | true =>
      refine ⟨.gap g.negated, Iff.rfl, fun s => ?_⟩
      rw [fill, fill, hnegate, hplain, if_pos rfl, Gap.fill_negated, ofList_not]
    | false =>
      refine ⟨.gap g.grouped.negated, Iff.rfl, fun s => ?_⟩
      rw [fill, fill, hnegate, hplain, if_neg Bool.false_ne_true, Gap.fill_negated, ofList_not,
        Gap.fill_grouped, ofList_group]

/-! ### Searches -/

/-- A test with a gap among tests. -/
theorem exists_gap_intercalate (g : Gap) (op : BinaryOp) {before after : List String}
    (hbefore : ∀ t ∈ before, QuotesClosed t.toList) (hafter : ∀ t ∈ after, QuotesClosed t.toList) :
    ∃ k : Gap, ∀ s, (" " ++ op.keyword ++ " ").intercalate
      (before ++ String.ofList (g.fill s) :: after) = String.ofList (k.fill s) := by
  induction before with
  | nil =>
    cases after with
    | nil => exact ⟨g, fun s => by simp⟩
    | cons u us =>
      refine ⟨g.joinedLeft op _ (quotesClosed_intercalate op hafter), fun s => ?_⟩
      rw [List.nil_append, intercalate_cons op _ (List.cons_ne_nil u us), Gap.fill_joinedLeft,
        ofList_joinedChars, String.ofList_toList]
  | cons u us ih =>
    obtain ⟨hu, hus⟩ := List.forall_mem_cons.1 hbefore
    obtain ⟨k, hk⟩ := ih hus
    refine ⟨k.joinedRight op _ hu, fun s => ?_⟩
    rw [List.cons_append, intercalate_cons op u (List.append_ne_nil_of_right_ne_nil _ (List.cons_ne_nil _ _)),
      hk, Gap.fill_joinedRight, ofList_joinedChars, String.ofList_toList]

end Template

theorem ofList_fill_bare (s : String) :
    String.ofList (Gap.bare.fill s) = Literal.marked "" (Literal.doubleQuotes s.toList) := by
  simp [Gap.bare, Gap.fill, ofList_literalChars]

theorem testText_string (op : BinaryOp) {column : String} (h : QuotesClosed column.toList) (s : String) :
    testText op column (.string s) =
      .ok (String.ofList ((Gap.bare.joinedRight op column.toList h).fill s)) := by
  rw [Gap.fill_joinedRight, ofList_joinedChars, String.ofList_toList, ofList_fill_bare]
  rfl

theorem uniform_tests (rel con : BinaryOp) {column : String} (h : '\x27' ∉ column.toList)
    (before after : List Value) :
    Uniform (fun s => do
      let tests ← (before ++ .string s :: after).mapM (testText rel column)
      .ok (grouped ((" " ++ con.keyword ++ " ").intercalate tests))) Template.fill Template.IsGap := by
  obtain ⟨g, hg⟩ : ∃ g : Gap, ∀ s, testText rel column (.string s) = .ok (String.ofList (g.fill s)) :=
    ⟨_, testText_string rel (.of_not_mem h)⟩
  have hall (s : String) : (do
        let tests ← (before ++ .string s :: after).mapM (testText rel column)
        .ok (grouped ((" " ++ con.keyword ++ " ").intercalate tests))) = (do
      let bs ← before.mapM (testText rel column)
      let as ← after.mapM (testText rel column)
      .ok (grouped ((" " ++ con.keyword ++ " ").intercalate (bs ++ String.ofList (g.fill s) :: as)))) := by
    simp only [List.mapM_append, List.mapM_cons, hg, ok_bind, bind_assoc, pure_bind]
  refine (Uniform.const_bind fun bs hbs => .const_bind fun as has => ?_).congr hall
  obtain ⟨k, hk⟩ := Template.exists_gap_intercalate g con (quotesClosed_of_mapM rel h hbs)
    (quotesClosed_of_mapM rel h has)
  refine .ok (k := .gap k.grouped) trivial fun s => ?_
  rw [hk, Template.fill, Gap.fill_grouped, ofList_group]

/-- The search in a list with a text among its items. -/
theorem uniform_membership (negated : Bool) {column : String} (h : '\x27' ∉ column.toList)
    (before after : List Value) :
    Uniform (fun s => membership column negated (before ++ .string s :: after)) Template.fill
      Template.IsGap :=
  (uniform_tests _ _ h before after).congr fun _ =>
    membership_eq_tests column negated (List.append_ne_nil_of_right_ne_nil _ (List.cons_ne_nil _ _))

end TableClient.Filter
