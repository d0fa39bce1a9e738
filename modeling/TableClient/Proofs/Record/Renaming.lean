import TableClient.Proofs.Record.Names

/-! Tables of renames after any calls, failed ones among them. No two fields are ever renamed to one key
column, so that who holds one can be looked up from either side, and a call is refused exactly if it would
give the column of another field away. -/

namespace TableClient.Renames

variable {r r' : Renames}

/-! ### What every call keeps -/

/-- Each name is there once and is not empty, and a key column has one holder at most. -/
structure IsConsistent (r : Renames) : Prop where
  sorted : Keyed.Sorted r.table
  named : ∀ p ∈ r.table, p.1 ≠ "" ∧ p.2 ≠ ""
  owned : ∀ p ∈ r.table, ∀ q ∈ r.table, SystemColumn.isKey p.2 → p.2 = q.2 → p.1 = q.1

namespace IsConsistent

theorem get?_eq_some_iff (h : r.IsConsistent) {field column : String} :
    r.get? field = some column ↔ (field, column) ∈ r.table :=
  Keyed.find?_eq_some_iff (List.nodup_iff_count_le_one.1 h.sorted.nodup_names field)

/-- The holder of a key column is the field that is renamed to it. -/
theorem fieldFor?_eq_some_iff (h : r.IsConsistent) {column : String} (hkey : SystemColumn.isKey column)
    {field : String} : r.fieldFor? column = some field ↔ r.get? field = some column := by
  have hmem {holder : String} (hholder : r.fieldFor? column = some holder) : (holder, column) ∈ r.table := by
    obtain ⟨p, hp, rfl⟩ := Option.map_eq_some_iff.1 hholder
    obtain rfl : p.2 = column := by simpa using List.find?_some hp
    exact List.mem_of_find?_eq_some hp
  refine ⟨fun hholder => h.get?_eq_some_iff.2 (hmem hholder), fun hget => ?_⟩
  obtain ⟨holder, -, hholder⟩ := exists_fieldFor? hget
  have hsame : holder = field := h.owned _ (hmem hholder) _ (h.get?_eq_some_iff.1 hget) hkey rfl
  rw [hholder, hsame]

/-- A rename that is not refused takes no key column from another field. -/
theorem insert (h : r.IsConsistent) {field column : String} (hinsert : r.insert field column = .ok r') :
    r'.IsConsistent := by
  obtain ⟨hfield, hcolumn, hholder, rfl⟩ := insert_eq_ok_iff.1 hinsert
  have hother {p : String × String} (hp : p ∈ r.table) (hkey : SystemColumn.isKey p.2)
      (hsame : p.2 = column) : p.1 = field := by
    subst hsame
    exact hholder hkey p.1 ((h.fieldFor?_eq_some_iff hkey).2 (h.get?_eq_some_iff.2 hp))
  refine ⟨h.sorted.insert field column, fun p hp => ?_, fun p hp q hq hkey hsame => ?_⟩
  · rcases Keyed.mem_insert hp with rfl | hp
    · exact ⟨hfield, hcolumn⟩
    · exact h.named p hp
  · rcases Keyed.mem_insert hp with rfl | hp <;> rcases Keyed.mem_insert hq with rfl | hq
    · rfl
    · exact (hother hq (hsame ▸ hkey) hsame.symm).symm
    · exact hother hp hkey hsame
    · exact h.owned p hp q hq hkey hsame

theorem length_holders_le (h : r.IsConsistent) {column : String} (hkey : SystemColumn.isKey column) :
    (r.table.filter (·.2 = column)).length ≤ 1 := by
  have hsame {p q : String × String} (hp : p ∈ r.table.filter (·.2 = column))
      (hq : q ∈ r.table.filter (·.2 = column)) : p.1 = q.1 := by
    simp only [List.mem_filter, decide_eq_true_eq] at hp hq
    exact h.owned p hp.1 q hq.1 (hp.2 ▸ hkey) (hp.2.trans hq.2.symm)
  have hsorted : (r.table.filter (·.2 = column)).Pairwise fun p q => p.1 < q.1 := h.sorted.filter _
  generalize r.table.filter (·.2 = column) = holders at hsame hsorted
  match holders with
  | [] => exact Nat.zero_le 1
  | [p] => exact Nat.le_refl 1
  | p :: q :: rest =>
    have hlt := List.rel_of_pairwise_cons hsorted List.mem_cons_self
    exact absurd (hsame List.mem_cons_self (List.mem_cons_of_mem _ List.mem_cons_self)) (ne_of_lt hlt)

theorem insert_eq_error_iff (h : r.IsConsistent) {field column : String} :
    (∃ e, r.insert field column = .error e) ↔ field = "" ∨ column = "" ∨
      SystemColumn.isKey column ∧ ∃ other, other ≠ field ∧ r.get? other = some column := by
  have hrefused : (∃ e, r.insert field column = .error e) ↔ ¬∃ r', r.insert field column = .ok r' := by
    cases r.insert field column <;> simp
  rw [hrefused]
  simp only [insert_eq_ok_iff, exists_and_left, exists_eq, and_true, Classical.not_and_iff_not_or_not,
    not_not, Classical.not_imp, not_forall]
  refine or_congr_right (or_congr_right ?_)
  constructor
  · rintro ⟨hkey, other, hholder, hne⟩
    exact ⟨hkey, other, hne, (h.fieldFor?_eq_some_iff hkey).1 hholder⟩
  · rintro ⟨hkey, other, hne, hget⟩
    exact ⟨hkey, other, (h.fieldFor?_eq_some_iff hkey).2 hget, hne⟩

end IsConsistent

theorem isConsistent_empty : empty.IsConsistent :=
  ⟨Keyed.sorted_nil, by simp [empty], by simp [empty]⟩

/-! ### One call more -/

/-- The table in place changes exactly as the table that is returned. -/
theorem insertInPlace_cases (r : Renames) (field column : String) :
    (∃ r', r.insert field column = .ok r' ∧ r.insertInPlace field column = (r', none)) ∨
      ∃ e, r.insert field column = .error e ∧ r.insertInPlace field column = (r, some e) := by
  unfold Renames.insert insertInPlace
  split
  · exact .inr ⟨_, rfl, rfl⟩
  · cases if SystemColumn.isKey column then r.fieldFor? column else none with
    | none => exact .inl ⟨_, rfl, rfl⟩
    | some holder =>
      by_cases hsame : holder = field
      · exact .inl ⟨_, if_pos hsame, if_pos hsame⟩
      · exact .inr ⟨_, if_neg hsame, if_neg hsame⟩

/-- A call renames its field, or fails and leaves the table as it is. -/
theorem call_cases (r : Renames) (c : Call) :
    (∃ r', r.insert c.field c.column = .ok r' ∧ r.call c = (r', none)) ∨
      ∃ e, r.insert c.field c.column = .error e ∧ r.call c = (r, some e) := by
  cases c with
  | insert field column => exact r.insertInPlace_cases field column
  | extend field column =>
    rw [call, Call.field, Call.column]
    cases r.insert field column with
    | ok r' => exact .inl ⟨r', rfl, rfl⟩
    | error e => exact .inr ⟨e, rfl, rfl⟩

theorem IsConsistent.call (h : r.IsConsistent) (c : Call) : (r.call c).1.IsConsistent := by
  rcases r.call_cases c with ⟨r', hinsert, hcall⟩ | ⟨e, -, hcall⟩
  · rw [hcall]
    exact h.insert hinsert
  · rw [hcall]
    exact h

theorem IsConsistent.isSome_failure_iff (h : r.IsConsistent) (c : Call) :
    (r.call c).2.isSome ↔ c.field = "" ∨ c.column = "" ∨
      SystemColumn.isKey c.column ∧ ∃ other, other ≠ c.field ∧ r.get? other = some c.column := by
  rw [← h.insert_eq_error_iff]
  rcases r.call_cases c with ⟨r', hinsert, hcall⟩ | ⟨e, herror, hcall⟩
  · rw [hcall, hinsert]
    simp
  · rw [hcall]
    exact iff_of_true rfl ⟨e, herror⟩

theorem get?_call (r : Renames) (c : Call) (field : String) : (r.call c).1.get? field =
    if (r.call c).2.isNone ∧ c.field = field then some c.column else r.get? field := by
  rcases r.call_cases c with ⟨r', hinsert, hcall⟩ | ⟨e, -, hcall⟩
  · rw [hcall, get?_insert hinsert]
    simp
  · rw [hcall]
    simp

/-! ### All calls -/

theorem IsConsistent.after (h : r.IsConsistent) (calls : List Call) : (r.after calls).IsConsistent := by
  induction calls generalizing r with
  | nil => exact h
  | cons c calls ih => exact ih (h.call c)

/-- A field has the column of the last call that renamed it, or the one that it had before all calls. -/
theorem get?_after (r : Renames) (calls : List Call) (field : String) :
    (r.after calls).get? field = (lastColumn? field (r.replies calls)).or (r.get? field) := by
  induction calls generalizing r with
  | nil => rfl
  | cons c calls ih =>
    have hrest : (r.after (c :: calls)).get? field =
        (lastColumn? field ((r.call c).1.replies calls)).or ((r.call c).1.get? field) := ih _
    rw [hrest, get?_call, lastColumn?, lastColumn?, replies, List.findRev?]
    cases ((r.call c).1.replies calls).findRev? fun reply => reply.2.isNone && reply.1.field = field with
    | some last => rfl
    | none =>
      cases (r.call c).2 with
      | some e => simp
      | none => by_cases hfield : c.field = field <;> simp [hfield]

/-- After any calls, failed ones among them, no name in the table is empty, and a key column has one holder
at most, which is the field that is renamed to it. A field has the column of the last call that renamed it
and did not fail, or one of its own name. A call fails exactly if it has an empty name, or a key column that
another field holds now; then the table stays as it is, and else the field has this column. -/
theorem keys_after_calls (calls : List Call) :
    (∀ p ∈ (empty.after calls).table, p.1 ≠ "" ∧ p.2 ≠ "") ∧
      (∀ column, column = "PartitionKey" ∨ column = "RowKey" →
        ((empty.after calls).table.filter (·.2 = column)).length ≤ 1 ∧
        ∀ field, (empty.after calls).fieldFor? column = some field ↔
          (empty.after calls).get? field = some column) ∧
      (∀ field, (empty.after calls).get? field = lastColumn? field (empty.replies calls) ∧
        (empty.after calls).column field = (lastColumn? field (empty.replies calls)).getD field) ∧
      ∀ c : Call, (((empty.after calls).call c).2.isSome ↔ c.field = "" ∨ c.column = "" ∨
          (c.column = "PartitionKey" ∨ c.column = "RowKey") ∧
            ∃ other, other ≠ c.field ∧ (empty.after calls).get? other = some c.column) ∧
        (((empty.after calls).call c).2.isSome → ((empty.after calls).call c).1 = empty.after calls) ∧
        (((empty.after calls).call c).2.isNone → ∀ field, ((empty.after calls).call c).1.get? field =
          if c.field = field then some c.column else (empty.after calls).get? field) := by
  have h := isConsistent_empty.after calls
  have hget (field : String) :
      (empty.after calls).get? field = lastColumn? field (empty.replies calls) := by
    rw [get?_after]
    exact Option.or_none
  simp only [← SystemColumn.isKey_iff]
  refine ⟨h.named, fun column hkey => ⟨h.length_holders_le hkey, fun field => h.fieldFor?_eq_some_iff hkey⟩,
    fun field => ⟨hget field, by rw [column, hget]⟩, fun c => ⟨h.isSome_failure_iff c, fun hfailed => ?_,
      fun hdone field => by simp [get?_call, hdone]⟩⟩
  rcases (empty.after calls).call_cases c with ⟨r', -, hcall⟩ | ⟨e, -, hcall⟩
  · rw [hcall] at hfailed
    cases hfailed
  · rw [hcall]

/-- A field that is renamed once more gives its key column back. -/
example : (empty.replies [.insert "A" "RowKey", .extend "B" "RowKey", .insert "A" "Area",
    .extend "B" "RowKey"]).map (·.2.isNone) = [true, false, true, true] := by decide +kernel

end TableClient.Renames
