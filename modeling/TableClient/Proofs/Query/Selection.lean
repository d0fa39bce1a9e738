import TableClient.Proofs.Filter.Conjunction
import TableClient.Proofs.Filter.Faithful
import TableClient.Proofs.Query.Plan
import TableClient.Query.Compiler

/-! The rows that the filter of a plan selects. Requiring a predicate and absorbing another plan conjoin
texts; the text stays that of a well-formed phrase, and the rows that it selects are those that both sides
select. -/

namespace TableClient

open TableClient.Filter

/-- The formulas whose filter says exactly what they are: no search in an empty list, and no call for an
order, which asks that members are not null. -/
structure Formula.IsPlain (f : Formula) (renames : Renames) : Prop where
  translatable : f.Translatable renames
  isExact : f.shape.isExact
  unordered : ∀ t ∈ f.tests, t.isOrder = false

/-- The filter of the plan accepts the rows that `a` selects. -/
inductive Plan.Selects (p : Plan) (a : Value → Bool) : Prop
  | all : p.filter = none → (∀ row, a row) → Selects p a
  | phrase {text : String} {q : Phrase} : p.filter = some text → text.toList = q.text → q.WellFormed →
      (∀ row, q.holds row = a row) → Selects p a

namespace Plan

variable {p inner k q : Plan} {a b : Value → Bool}

theorem selects_empty : empty.Selects fun _ => true :=
  .all rfl fun _ => rfl

/-- The selection depends on the filter only. -/
theorem Selects.of_filter_eq (h : p.Selects a) (hq : q.filter = p.filter) : q.Selects a := by
  cases h with
  | all hnone hall => exact .all (hq.trans hnone) hall
  | phrase hsome htext hwf hholds => exact .phrase (hq.trans hsome) htext hwf hholds

theorem Selects.accepted_eq (h : p.Selects a) (rows : List Value) :
    p.accepted rows = rows.filter a := by
  cases h with
  | all hnone hall =>
    rw [accepted_of_filter_none hnone, List.filter_eq_self.2 fun row _ => hall row]
  | phrase hsome htext hwf hholds =>
    have haccepts : accepts _ = a := funext fun row =>
      (Phrase.accepts_text hwf htext row).trans (hholds row)
    rw [accepted, hsome]
    exact congrArg (rows.filter ·) haccepts

/-- Adding the text of a phrase narrows the selection to the rows that the phrase holds of. -/
theorem Selects.addFilter (h : p.Selects a) {r : Phrase} (hr : r.WellFormed) {text : String}
    (htext : text.toList = r.text) (hq : p.addFilter text = .ok q) :
    q.Selects fun row => a row && r.holds row := by
  have htrim : String.ofList (Text.trim text.toList) = text := by
    rw [htext, Phrase.trim_text hr, ← htext, String.ofList_toList]
  simp only [Plan.addFilter, htrim] at hq
  split at hq
  · cases hq
  · cases hq
    cases h with
    | all hnone hall =>
      refine .phrase (q := r) (by rw [hnone]) htext hr fun row => ?_
      rw [hall, Bool.true_and]
    | @phrase present s hsome hpresent hs hholds =>
      have hjoined := Phrase.toList_conjoin hs hr hpresent htext
      refine .phrase (by rw [hsome]) hjoined ?_ fun row => ?_
      · exact Phrase.wellFormed_andThen (Phrase.wellFormed_asSide hs) (Phrase.wellFormed_asSide hr)
          s.rank_asSide r.rank_asSide
      · rw [Phrase.holds_andThen, Phrase.holds_asSide, Phrase.holds_asSide, hholds]

/-- Absorbing a plan narrows the selection to the rows that it selects too. -/
theorem Selects.absorbed (h : p.Selects a) (hinner : inner.Selects b) (hq : Absorbed p inner q) :
    q.Selects fun row => a row && b row := by
  cases hinner with
  | all hnone hall =>
    have hand : (fun row => a row && b row) = a := funext fun row => by rw [hall, Bool.and_true]
    rw [hand]
    exact h.of_filter_eq (hq.filter_none hnone)
  | phrase hsome htext hwf hholds =>
    obtain ⟨f, hadd, hfilter⟩ := hq.filter_some _ hsome
    have hand : (fun row => a row && b row) = fun row => a row && Phrase.holds _ row :=
      funext fun row => by rw [hholds]
    rw [hand]
    exact (h.addFilter hwf htext hadd).of_filter_eq hfilter

/-- The text of a phrase becomes the filter of an empty plan as it is. -/
theorem addFilter_empty {r : Phrase} (hr : r.WellFormed) {text : String} (htext : text.toList = r.text) :
    empty.addFilter text = .ok { empty with filter := some text } := by
  have htrim : String.ofList (Text.trim text.toList) = text := by
    rw [htext, Phrase.trim_text hr, ← htext, String.ofList_toList]
  have hne : text ≠ "" := by
    rintro rfl
    exact Phrase.text_ne_nil hr htext.symm
  simp only [addFilter, htrim, if_neg hne]
  rfl

/-- Requiring a predicate that puts a constraint takes its phrase for the filter, without outer groups. -/
theorem exists_require {f : Formula} {renames : Renames} (hf : f.Translatable renames) {p : Phrase}
    (hp : f.phrase? renames = some p) (param : String) :
    ∃ text, empty.require (f.lambda param) renames = .ok { empty with filter := some text } ∧
      p.ungrouped.WellFormed ∧ text.toList = p.ungrouped.text := by
  have hwf := (Formula.isOperand_phrase? hf p hp).1
  have hwf' := Phrase.wellFormed_ungrouped hwf
  have htext : (String.ofList (stripOuter (fragmentText (some p)).toList)).toList = p.ungrouped.text := by
    rw [String.toList_ofList, fragmentText, String.toList_ofList, Phrase.stripOuter_text hwf]
  have hne : String.ofList (stripOuter (fragmentText (some p)).toList) ≠ "" := by
    intro hempty
    rw [hempty] at htext
    exact Phrase.text_ne_nil hwf' htext.symm
  refine ⟨_, ?_, hwf', htext⟩
  rw [require, Formula.toFilter_eq hf param, ok_bind, hp]
  simp only [if_neg hne]
  exact addFilter_empty hwf' htext

/-- A required predicate selects the rows that it is true of. -/
theorem selects_require {f : Formula} {renames : Renames} (hf : f.IsPlain renames) {param : String}
    (h : empty.require (f.lambda param) renames = .ok k) :
    ∃ a, k.Selects a ∧ ∀ row, f.Stored renames row row →
      ∀ b, (f.lambda param).apply row = .ok (.bool b) → a row = b := by
  obtain ⟨p, hp⟩ := Formula.exists_phrase renames (Shape.constrains_of_isExact hf.isExact)
  obtain ⟨text, hrequire, hwf, htext⟩ := exists_require hf.translatable hp param
  cases h.symm.trans hrequire
  refine ⟨_, .phrase rfl htext hwf fun _ => rfl, fun row hstored b happly => ?_⟩
  have hordered : f.Ordered row := fun t ht horder => by
    rw [hf.unordered t ht] at horder
    exact absurd horder Bool.false_ne_true
  rw [Phrase.holds_ungrouped]
  exact Formula.holds_of_apply hf.translatable hf.isExact hp hstored hordered happly

end Plan

/-- The query for the rows of a table that a formula is true of. -/
def Formula.query (f : Formula) (table param : String) : Expr :=
  .filtered (.source table) (.lambda param (f.body param))

/-- The query for a formula is compiled to a filter that accepts what the phrase of the formula holds
of. -/
theorem Formula.exists_compile_query {f : Formula} {renames : Renames} (hf : f.Translatable renames)
    {p : Phrase} (hp : f.phrase? renames = some p) (table param : String) :
    ∃ plan text, Compiler.standard.compile renames (f.query table param) = .ok plan ∧
      plan.filter = some text ∧ ∀ row, accepts text row = p.holds row := by
  obtain ⟨text, hrequire, hwf, htext⟩ := Plan.exists_require hf hp param
  refine ⟨{ Plan.empty with filter := some text }, text, ?_, rfl, fun row => ?_⟩
  · have habsorb : Plan.empty.absorb { Plan.empty with filter := some text } =
        .ok { Plan.empty with filter := some text } := by
      show Plan.empty.addFilter text >>= _ = _
      rw [Plan.addFilter_empty hwf htext]
      rfl
    show (Plan.empty.require (f.lambda param) renames >>= fun k => Plan.empty.absorb k >>= fun q =>
      .ok q) = _
    rw [hrequire, ok_bind, habsorb, ok_bind]
  · rw [Phrase.accepts_text hwf htext, Phrase.holds_ungrouped]

end TableClient
