import Mathlib.Data.List.Nodup
import Mathlib.Data.List.TakeWhile
import TableClient.Proofs.Filter.Balance
import TableClient.Proofs.Filter.Conjunction
import TableClient.Proofs.Query.Plan
import TableClient.Proofs.Text.Blank

/-! Plans as a monoid. A plan that the operations on plans have made can always be absorbed: its parts are
such that each of them is merged as it stands. Merging is associative and the empty plan neutral on both
sides, also in the text of the filter, where the sides of each `and` are put into parentheses anew: a side
that has got its parentheses, or that is itself joined by `and`, does not get any more. -/

namespace TableClient.Plan

open Text (IsTight)

/-- The plans that the operations on plans make. -/
inductive Built : Plan → Prop
  | empty : Built .empty
  | addFilter {p q : Plan} {text : String} : Built p → p.addFilter text = .ok q → Built q
  | addColumns {p : Plan} (columns : List String) : Built p → Built (p.addColumns columns).1
  | limit {p q : Plan} {count : Int} : Built p → p.limit count = .ok q → Built q
  | addStep {p : Plan} (step : RowStep) : Built p → Built (p.addStep step)
  | absorb {p inner q : Plan} : Built p → Built inner → p.absorb inner = .ok q → Built q

theorem isBlankName_eq_false_iff {column : String} :
    isBlankName column = false ↔ ∃ x ∈ column.toList, ¬Text.isBlank x := by
  rw [isBlankName, ← Bool.not_eq_true, List.isEmpty_iff, Text.trim_eq_nil_iff]
  simp

/-- What holds of the parts of a plan, however it was made. -/
structure IsValid (p : Plan) : Prop where
  filter : ∀ text ∈ p.filter, IsTight text.toList
  nodup : ∀ columns ∈ p.columns, columns.Nodup
  named : ∀ columns ∈ p.columns, ∀ c ∈ columns, ∃ x ∈ c.toList, ¬Text.isBlank x
  cap : p.CapPositive

def IsBalanced (p : Plan) : Prop :=
  ∀ text ∈ p.filter, Filter.IsBalanced text.toList

variable {p q r inner : Plan} {text : String} {columns added : List String}

/-- What merging needs to know of its plans. -/
structure IsSound (p : Plan) : Prop extends IsValid p where
  balanced : p.IsBalanced

/-! ### Filters -/

theorem isTight_group (cs : List Char) : IsTight (Filter.group cs) := by
  refine ⟨by simp [Filter.group], ?_, ?_⟩
  · rintro c ⟨⟩
    decide
  · intro c hc
    rw [Filter.group, List.getLast?_concat] at hc
    cases hc
    decide

theorem isTight_groupForAnd {cs : List Char} (h : IsTight cs) : IsTight (Filter.groupForAnd cs) := by
  rw [Filter.groupForAnd]
  split
  · exact isTight_group cs
  · exact h

theorem isTight_conjoin {s t : String} (hs : IsTight s.toList) (ht : IsTight t.toList) :
    IsTight (conjoin s t).toList := by
  have h := (isTight_groupForAnd hs).append (isTight_groupForAnd ht)
    (' ' :: (BinaryOp.and.keyword.toList ++ [' ']))
  rw [toList_conjoin, Filter.joinedChars]
  simpa using h

theorem isBalanced_conjoin {s t : String} (hs : Filter.IsBalanced s.toList)
    (ht : Filter.IsBalanced t.toList) : Filter.IsBalanced (conjoin s t).toList := by
  rw [toList_conjoin]
  exact Filter.isBalanced_joinedChars _ (Filter.isBalanced_groupForAnd hs)
    (Filter.isBalanced_groupForAnd ht)

/-- A conjunction is a side of an `and` as it stands. -/
theorem groupForAnd_conjoin {s t : String} (hs : Filter.IsBalanced s.toList)
    (ht : Filter.IsBalanced t.toList) :
    Filter.groupForAnd (conjoin s t).toList = (conjoin s t).toList := by
  have hor : Filter.hasTopLevelOr (conjoin s t).toList = false := by
    rw [toList_conjoin, Filter.hasTopLevelOr_joinedChars _ (Filter.isBalanced_groupForAnd hs),
      Filter.hasTopLevelOr_groupForAnd hs, Filter.hasTopLevelOr_groupForAnd ht]
    rfl
  rw [Filter.groupForAnd, hor, if_neg Bool.false_ne_true]

theorem conjoin_assoc {s t u : String} (hs : Filter.IsBalanced s.toList)
    (ht : Filter.IsBalanced t.toList) (hu : Filter.IsBalanced u.toList) :
    conjoin (conjoin s t) u = conjoin s (conjoin t u) := by
  apply String.toList_injective
  rw [toList_conjoin, groupForAnd_conjoin hs ht, toList_conjoin, toList_conjoin s,
    groupForAnd_conjoin ht hu, toList_conjoin]
  simp [Filter.joinedChars]

/-- The filter of rows that satisfy both filters, of those there are. -/
def bothFilters : Option String → Option String → Option String
  | none, g => g
  | f, none => f
  | some s, some t => some (conjoin s t)

theorem bothFilters_none (f : Option String) : bothFilters f none = f := by
  cases f <;> rfl

theorem forall_bothFilters {P : String → Prop} {f g : Option String}
    (hconjoin : ∀ {s t}, P s → P t → P (conjoin s t)) (hf : ∀ s ∈ f, P s) (hg : ∀ t ∈ g, P t) :
    ∀ s ∈ bothFilters f g, P s := by
  intro u hu
  cases f with
  | none => exact hg u hu
  | some s =>
    cases g with
    | none => exact hf u hu
    | some t =>
      cases hu
      exact hconjoin (hf s rfl) (hg t rfl)

theorem bothFilters_assoc {f g h : Option String} (hf : ∀ s ∈ f, Filter.IsBalanced s.toList)
    (hg : ∀ s ∈ g, Filter.IsBalanced s.toList) (hh : ∀ s ∈ h, Filter.IsBalanced s.toList) :
    bothFilters (bothFilters f g) h = bothFilters f (bothFilters g h) := by
  cases f with
  | none => rfl
  | some s =>
    cases g with
    | none => rfl
    | some t =>
      cases h with
      | none => rfl
      | some u => exact congrArg some (conjoin_assoc (hf s rfl) (hg t rfl) (hh u rfl))

/-! ### Columns -/

def insertNew (columns : List String) (c : String) : List String :=
  if c ∈ columns then columns else columns ++ [c]

theorem appendNew_cons (present added : List String) (c : String) :
    appendNew present (c :: added) = appendNew (insertNew present c) added := rfl

theorem appendNew_append (present added more : List String) :
    appendNew present (added ++ more) = appendNew (appendNew present added) more :=
  List.foldl_append

theorem mem_insertNew {c d : String} : d ∈ insertNew columns c ↔ d ∈ columns ∨ d = c := by
  rw [insertNew]
  split
  next h => exact ⟨.inl, fun hd => hd.elim id fun heq => heq ▸ h⟩
  next => simp

theorem mem_appendNew {d : String} : d ∈ appendNew columns added ↔ d ∈ columns ∨ d ∈ added := by
  induction added generalizing columns with
  | nil => simp [appendNew]
  | cons c added ih => rw [appendNew_cons, ih, mem_insertNew, List.mem_cons, or_assoc]

theorem nodup_insertNew (h : columns.Nodup) (c : String) : (insertNew columns c).Nodup := by
  rw [insertNew]
  split
  next => exact h
  next hc => exact List.nodup_append.2 ⟨h, List.nodup_singleton c, by
    rintro a ha b hb rfl
    rw [List.mem_singleton] at hb
    exact hc (hb ▸ ha)⟩

theorem nodup_appendNew (h : columns.Nodup) (added : List String) :
    (appendNew columns added).Nodup := by
  induction added generalizing columns with
  | nil => exact h
  | cons c added ih => exact ih (nodup_insertNew h c)

/-- Columns that are neither there nor repeated all come after those that are there. -/
theorem appendNew_of_nodup (h : (columns ++ added).Nodup) :
    appendNew columns added = columns ++ added := by
  induction added generalizing columns with
  | nil => exact (List.append_nil columns).symm
  | cons c added ih =>
    have hc : c ∉ columns := fun hmem =>
      (List.nodup_append.1 h).2.2 c hmem c List.mem_cons_self rfl
    rw [List.append_cons] at h
    rw [appendNew_cons, insertNew, if_neg hc, ih h, ← List.append_cons]

theorem appendNew_insertNew (present added : List String) (c : String) :
    appendNew present (insertNew added c) = insertNew (appendNew present added) c := by
  rw [insertNew]
  split
  next hc => rw [insertNew, if_pos (mem_appendNew.2 (.inr hc))]
  next => rw [appendNew_append]; rfl

theorem appendNew_assoc (present added more : List String) :
    appendNew (appendNew present added) more = appendNew present (appendNew added more) := by
  induction more generalizing added with
  | nil => rfl
  | cons c more ih => rw [appendNew_cons, appendNew_cons, ← ih, appendNew_insertNew]

def bothColumns : Option (List String) → Option (List String) → Option (List String)
  | c, none => c
  | c, some added => some (appendNew (c.getD []) added)

theorem bothColumns_assoc (c d e : Option (List String)) :
    bothColumns (bothColumns c d) e = bothColumns c (bothColumns d e) := by
  cases e with
  | none => rfl
  | some more =>
    cases d with
    | none =>
      show some (appendNew (c.getD []) more) = some (appendNew (c.getD []) (appendNew [] more))
      rw [← appendNew_assoc]
      rfl
    | some added => exact congrArg some (appendNew_assoc (c.getD []) added more)

theorem none_bothColumns {c : Option (List String)} (h : ∀ columns ∈ c, columns.Nodup) :
    bothColumns none c = c := by
  cases c with
  | none => rfl
  | some columns => exact congrArg some (@appendNew_of_nodup [] columns (h columns rfl))

/-! ### Caps -/

theorem minCap_assoc (c d e : Option UInt32) : minCap (minCap c d) e = minCap c (minCap d e) := by
  cases c with
  | none => cases d <;> rfl
  | some l =>
    cases d with
    | none => cases e <;> rfl
    | some m =>
      cases e with
      | none => rfl
      | some n =>
        apply congrArg some
        apply UInt32.toNat_inj.1
        rw [toNat_min, toNat_min, toNat_min, toNat_min, Nat.min_assoc]

/-! ### Plans -/

def merged (p inner : Plan) : Plan :=
  ⟨bothFilters p.filter inner.filter, bothColumns p.columns inner.columns, minCap p.cap inner.cap,
    inner.steps ++ p.steps⟩

theorem addFilter_of_isTight (h : IsTight text.toList) :
    p.addFilter text = .ok { p with filter := bothFilters p.filter (some text) } := by
  have htrim : String.ofList (Text.trim text.toList) = text := by
    rw [h.trim_eq, String.ofList_toList]
  have hne : text ≠ "" := by
    rintro rfl
    exact h.ne_nil rfl
  simp only [addFilter, htrim, if_neg hne]
  cases p.filter <;> rfl

theorem takeWhile_named (h : ∀ c ∈ columns, ∃ x ∈ c.toList, ¬Text.isBlank x) :
    columns.takeWhile (!isBlankName ·) = columns := by
  rw [List.takeWhile_eq_self_iff]
  intro c hc
  simp [isBlankName_eq_false_iff.2 (h c hc)]

theorem addColumns_of_named (h : ∀ c ∈ columns, ∃ x ∈ c.toList, ¬Text.isBlank x) :
    p.addColumns columns = ({ p with columns := bothColumns p.columns (some columns) }, none) := by
  simp only [addColumns, takeWhile_named h, if_true]
  rfl

theorem limit_of_pos {n : UInt32} (h : 0 < n.toNat) :
    p.limit n.toNat = .ok { p with cap := minCap p.cap (some n) } := by
  have hlt : n.toNat < UInt32.size := n.toNat_lt_size
  have hback : UInt32.ofNat (n.toNat : Int).toNat = n := by
    rw [Int.toNat_natCast, UInt32.ofNat_toNat]
  rw [limit]
  simp only [if_neg (show ¬(n.toNat : Int) ≤ 0 by omega),
    if_neg (show ¬(UInt32.size : Int) ≤ n.toNat by omega), hback]
  cases p.cap <;> rfl

/-- A valid plan can always be absorbed. -/
theorem absorb_eq_merged (h : inner.IsValid) : p.absorb inner = .ok (p.merged inner) := by
  obtain ⟨filter, columns, cap, steps⟩ := inner
  -- one part after the other
  have hcap (p : Plan) :
      p.absorb ⟨none, none, cap, steps⟩ = .ok (p.merged ⟨none, none, cap, steps⟩) := by
    cases cap with
    | none => simp [absorb, merged, bothFilters_none, bothColumns, minCap_none]
    | some n => simp [absorb, merged, bothFilters_none, bothColumns, limit_of_pos (h.cap n rfl)]
  have hcolumns (p : Plan) :
      p.absorb ⟨none, columns, cap, steps⟩ = .ok (p.merged ⟨none, columns, cap, steps⟩) := by
    cases columns with
    | none => exact hcap p
    | some cs =>
      have hadd := addColumns_of_named (p := p) (h.named cs rfl)
      have hrest := hcap { p with columns := bothColumns p.columns (some cs) }
      rw [absorb] at hrest ⊢
      simp only [ok_bind, hadd] at hrest ⊢
      exact hrest
  cases filter with
  | none => exact hcolumns p
  | some text =>
    have hrest := hcolumns { p with filter := bothFilters p.filter (some text) }
    have hfirst : p.absorb ⟨some text, columns, cap, steps⟩ =
      p.addFilter text >>= (·.absorb ⟨none, columns, cap, steps⟩) := rfl
    rw [hfirst, addFilter_of_isTight (h.filter text rfl), ok_bind, hrest]
    simp [merged, bothFilters_none]

theorem IsValid.merged (hp : p.IsValid) (hq : q.IsValid) : (p.merged q).IsValid where
  filter := forall_bothFilters isTight_conjoin hp.filter hq.filter
  nodup := by
    intro columns hc
    cases hq' : q.columns with
    | none =>
      rw [Plan.merged, hq'] at hc
      exact hp.nodup columns hc
    | some added =>
      rw [Plan.merged, hq'] at hc
      cases hc
      refine nodup_appendNew ?_ added
      cases hp' : p.columns with
      | none => exact List.nodup_nil
      | some present => exact hp.nodup present hp'
  named := by
    intro columns hc c hmem
    cases hq' : q.columns with
    | none =>
      rw [Plan.merged, hq'] at hc
      exact hp.named columns hc c hmem
    | some added =>
      rw [Plan.merged, hq'] at hc
      cases hc
      rcases mem_appendNew.1 hmem with hpresent | hadded
      · cases hp' : p.columns with
        | none =>
          rw [hp'] at hpresent
          cases hpresent
        | some present =>
          rw [hp'] at hpresent
          exact hp.named present hp' c hpresent
      · exact hq.named added hq' c hadded
  cap := (absorbed (absorb_eq_merged hq)).capPositive_absorbed hp.cap

theorem isValid_empty : empty.IsValid :=
  ⟨nofun, nofun, nofun, nofun⟩

/-! ### Merging as an operation -/

theorem merged_empty (p : Plan) : p.merged empty = p := by
  obtain ⟨filter, columns, cap, steps⟩ := p
  simp [merged, empty, bothFilters_none, bothColumns, minCap_none]

theorem empty_merged (h : p.IsValid) : empty.merged p = p := by
  have hcolumns := none_bothColumns h.nodup
  obtain ⟨filter, columns, cap, steps⟩ := p
  simp only [merged, empty, List.append_nil, hcolumns]
  cases filter <;> cases cap <;> rfl

theorem merged_assoc (hp : p.IsBalanced) (hq : q.IsBalanced) (hr : r.IsBalanced) :
    (p.merged q).merged r = p.merged (q.merged r) := by
  simp only [merged, bothFilters_assoc hp hq hr, bothColumns_assoc, minCap_assoc, List.append_assoc]

theorem IsBalanced.merged (hp : p.IsBalanced) (hq : q.IsBalanced) : (p.merged q).IsBalanced :=
  forall_bothFilters isBalanced_conjoin hp hq

theorem isSound_empty : empty.IsSound :=
  ⟨isValid_empty, nofun⟩

theorem IsSound.merged (hp : p.IsSound) (hq : q.IsSound) : (p.merged q).IsSound :=
  ⟨hp.toIsValid.merged hq.toIsValid, hp.balanced.merged hq.balanced⟩

/-- A predicate is required by its text without blanks and parentheses around it. -/
theorem require_of_stripOuter {f : Lambda} {renames : Renames} {whole : String}
    (hwhole : f.toFilter renames = .ok whole)
    (hstrip : Filter.stripOuter whole.toList = text.toList) (h : IsTight text.toList) :
    p.require f renames = .ok { p with filter := bothFilters p.filter (some text) } := by
  have hne : text ≠ "" := by
    rintro rfl
    exact h.ne_nil rfl
  rw [require, hwhole, ok_bind, hstrip, String.ofList_toList]
  simp only [if_neg hne]
  exact addFilter_of_isTight h

/-! ### Plans that have been made -/

/-- Requiring a filter is merging the plan that only has the filter. -/
theorem exists_of_addFilter (h : p.addFilter text = .ok q) :
    ∃ k, k.IsValid ∧ q = p.merged k := by
  simp only [addFilter] at h
  split at h
  · cases h
  next hne =>
    have htight : IsTight (Text.trim text.toList) := by
      apply Text.isTight_trim
      intro hnil
      apply hne
      rw [hnil]
    cases h
    refine ⟨⟨some (String.ofList (Text.trim text.toList)), none, none, []⟩,
      ⟨?_, by rintro _ ⟨⟩, by rintro _ ⟨⟩, by rintro _ ⟨⟩⟩, ?_⟩
    · rintro _ ⟨⟩
      rwa [String.toList_ofList]
    · simp only [merged, bothColumns, minCap_none, List.nil_append]
      cases p.filter <;> rfl

/-- Asking for columns is merging the plan that only has the columns, each once. -/
theorem exists_of_addColumns (p : Plan) (columns : List String) :
    ∃ k, k.IsValid ∧ (p.addColumns columns).1 = p.merged k := by
  have hnamed : ∀ c ∈ columns.takeWhile (!isBlankName ·), ∃ x ∈ c.toList, ¬Text.isBlank x := by
    intro c hc
    have h := List.mem_takeWhile_imp hc
    exact isBlankName_eq_false_iff.1 (by simpa using h)
  refine ⟨⟨none, some (appendNew [] (columns.takeWhile (!isBlankName ·))), none, []⟩,
    ⟨nofun, ?_, ?_, nofun⟩, ?_⟩
  · rintro _ ⟨⟩
    exact nodup_appendNew List.nodup_nil _
  · rintro _ ⟨⟩ c hc
    exact hnamed c ((mem_appendNew.1 hc).resolve_left List.not_mem_nil)
  · have hcolumns := appendNew_assoc (p.columns.getD []) [] (columns.takeWhile (!isBlankName ·))
    simp only [merged, bothFilters_none, bothColumns, minCap_none, List.nil_append, ← hcolumns]
    rw [addColumns]
    split <;> rfl

/-- Limiting is merging the plan that only has the cap. -/
theorem exists_of_limit {count : Int} (h : p.limit count = .ok q) :
    ∃ k, k.IsValid ∧ q = p.merged k := by
  obtain ⟨hpos, hlt, rfl⟩ := limit_eq_ok h
  refine ⟨⟨none, none, some (UInt32.ofNat count.toNat), []⟩, ⟨nofun, nofun, nofun, ?_⟩, ?_⟩
  · rintro _ ⟨⟩
    rw [UInt32.toNat_ofNat_of_lt' hlt]
    omega
  · simp [merged, bothFilters_none, bothColumns]

theorem Built.isValid (h : p.Built) : p.IsValid := by
  induction h with
  | empty => exact isValid_empty
  | addFilter _ hadd ih =>
    obtain ⟨k, hk, rfl⟩ := exists_of_addFilter hadd
    exact ih.merged hk
  | addColumns columns _ ih =>
    obtain ⟨k, hk, heq⟩ := exists_of_addColumns _ columns
    rw [heq]
    exact ih.merged hk
  | limit _ hlimit ih =>
    obtain ⟨k, hk, rfl⟩ := exists_of_limit hlimit
    exact ih.merged hk
  | addStep _ _ ih => exact ⟨ih.filter, ih.nodup, ih.named, ih.cap⟩
  | absorb _ _ habsorb ihp ihinner =>
    rw [absorb_eq_merged ihinner] at habsorb
    cases habsorb
    exact ihp.merged ihinner

end TableClient.Plan
