import Mathlib.Data.List.Nodup
import Mathlib.Data.String.Basic
import TableClient.Log.Line
import TableClient.Proofs.Json.Spelling

/-! Log lines read back. A line is one JSON object in which the event, the severity and the fields stand
with just the texts that were logged, whatever characters these have; so nothing that is logged ends the
line or adds a member. Fields stand in the order of their keys, and in that in which they were given
where they have one key. -/

namespace TableClient

namespace LogEntry

open Json (Escaped Lexes Reads Tree)

/-! ### Members of the object -/

theorem escaped_escapeChar (c : Char) : Escaped c (escapeChar c) := by
  unfold escapeChar
  split
  next h => exact .short (by decide) (by rw [h]; rfl)
  next hquote =>
    split
    next h => exact .short (by decide) (by rw [h]; rfl)
    next hbackslash =>
      split
      next h => exact .short (by decide) (by rw [h]; rfl)
      split
      next h => exact .short (by decide) (by rw [h]; rfl)
      split
      next h => exact .short (by decide) (by rw [h]; rfl)
      split
      next hcontrol =>
        simp only [Text.isControl, Bool.or_eq_true, Bool.and_eq_true, decide_eq_true_eq] at hcontrol
        exact .number (by omega)
      next hprints =>
        refine .plain hquote hbackslash fun hbelow => hprints ?_
        simp [Text.isControl, hbelow]

theorem lexes_quoted (text : String) : Lexes (quoted text) [.string (some text)] :=
  Json.lexes_string escaped_escapeChar text

theorem reads_member (p : String × String) :
    Reads Json.readMember (member p) (some p.1, .string (some p.2)) :=
  Json.reads_member (lexes_quoted p.1)
    (Json.reads_token (lexes_quoted p.2) fun fuel rest => by cases fuel <;> rfl)

/-- The line is read as the members that it was made of. -/
theorem read?_render_eq (e : LogEntry) :
    Tree.read? e.render = some (.object (e.members.map fun p => (some p.1, .string (some p.2)))) := by
  have hmembers : ∀ m ∈ e.members.map fun p => (member p, some p.1, Tree.string (some p.2)),
      Reads Json.readMember m.1 m.2 := by
    intro _ hm
    obtain ⟨p, -, rfl⟩ := List.mem_map.1 hm
    exact reads_member p
  have hobject := Json.reads_object hmembers
  rw [List.map_map, List.map_map] at hobject
  exact hobject.read?_eq (List.forall_mem_singleton.2 rfl)

/-! ### One line -/

theorem newline_not_mem_quoted (text : String) : '\n' ∉ quoted text := by
  have hescape (c : Char) : '\n' ∉ escapeChar c := by
    unfold escapeChar
    split
    · decide
    split
    · decide
    split
    · decide
    next hne =>
      split
      · decide
      split
      · decide
      split
      · intro h
        rcases List.mem_cons.1 h with h | h
        · cases h
        rcases List.mem_cons.1 h with h | h
        · cases h
        · exact Text.ne_of_mem_hex (Text.mem_hexFixed h) rfl rfl
      · exact fun h => hne (List.mem_singleton.1 h).symm
  simp [quoted, hescape]

theorem newline_not_mem_line (e : LogEntry) : '\n' ∉ e.line := by
  have hmember : ∀ cs ∈ e.members.map member, '\n' ∉ cs := by
    intro _ hcs
    obtain ⟨p, -, rfl⟩ := List.mem_map.1 hcs
    simp [member, newline_not_mem_quoted]
  have hjoined (lists : List (List Char)) (h : ∀ cs ∈ lists, '\n' ∉ cs) :
      '\n' ∉ [','].intercalate lists := by
    induction lists with
    | nil => exact List.not_mem_nil
    | cons cs rest ih =>
      obtain ⟨hfirst, hrest⟩ := List.forall_mem_cons.1 h
      cases rest with
      | nil => rwa [List.intercalate_singleton]
      | cons ds rest =>
        rw [List.intercalate_cons_cons]
        simp [hfirst, ih hrest]
  simp [line, hjoined _ hmember]

/-! ### Order of fields -/

theorem le_trans_key (p q r : String × String) (hpq : decide (p.1 ≤ q.1)) (hqr : decide (q.1 ≤ r.1)) :
    decide (p.1 ≤ r.1) :=
  decide_eq_true ((of_decide_eq_true hpq).trans (of_decide_eq_true hqr))

theorem le_total_key (p q : String × String) : (decide (p.1 ≤ q.1) || decide (q.1 ≤ p.1)) = true := by
  simpa using le_total p.1 q.1

theorem perm_sortedFields (e : LogEntry) : e.sortedFields.Perm e.fields := List.mergeSort_perm _ _

theorem pairwise_sortedFields (e : LogEntry) : e.sortedFields.Pairwise fun p q => p.1 ≤ q.1 :=
  (List.pairwise_mergeSort le_trans_key le_total_key e.fields).imp of_decide_eq_true

/-- Fields of one key keep their order. -/
theorem filter_sortedFields (e : LogEntry) (key : String) :
    e.sortedFields.filter (·.1 = key) = e.fields.filter (·.1 = key) := by
  have htied : (e.fields.filter (·.1 = key)).Pairwise fun p q => decide (p.1 ≤ q.1) = true := by
    refine List.pairwise_of_forall_mem_list fun p hp q hq => decide_eq_true ?_
    have hp := of_decide_eq_true (List.mem_filter.1 hp).2
    have hq := of_decide_eq_true (List.mem_filter.1 hq).2
    exact (hp.trans hq.symm).le
  have hsub := (List.sublist_mergeSort le_trans_key le_total_key htied List.filter_sublist).filter
    (·.1 = key)
  rw [List.filter_filter] at hsub
  simp only [Bool.and_self] at hsub
  exact (hsub.eq_of_length (e.perm_sortedFields.filter _).length_eq.symm).symm

/-- With distinct keys there is one order. -/
theorem sortedFields_perm {e e' : LogEntry} (h : e'.fields.Perm e.fields)
    (hkeys : (e.fields.map Prod.fst).Nodup) : e'.sortedFields = e.sortedFields := by
  have hperm : e'.sortedFields.Perm e.sortedFields :=
    e'.perm_sortedFields.trans (h.trans e.perm_sortedFields.symm)
  refine hperm.eq_of_pairwise (fun p q hp hq hpq hqp => ?_) e'.pairwise_sortedFields
    e.pairwise_sortedFields
  have hp := h.mem_iff.1 (e'.perm_sortedFields.mem_iff.1 hp)
  have hq := e.perm_sortedFields.mem_iff.1 hq
  exact List.inj_on_of_nodup_map hkeys hp hq (hpq.antisymm hqp)

/-- A line ends at its only newline. It is read as the object of the event, the severity and the fields in
the order of their keys, each with the very text that was logged; fields of one key keep their order.
With distinct keys the order in which the fields were given does not matter. -/
theorem render_faithful (e : LogEntry) :
    (e.render.toList.count '\n' = 1 ∧ e.render.toList.getLast? = some '\n') ∧
    Tree.read? e.render = some (.object ((some "event", .string (some e.event)) ::
      (some "severity", .string (some e.severity.name)) ::
      e.sortedFields.map fun p => (some p.1, .string (some p.2)))) ∧
    (e.sortedFields.Perm e.fields ∧ (e.sortedFields.Pairwise fun p q => p.1 ≤ q.1) ∧
      ∀ key, e.sortedFields.filter (·.1 = key) = e.fields.filter (·.1 = key)) ∧
    ∀ fields : List (String × String), fields.Perm e.fields → (e.fields.map Prod.fst).Nodup →
      { e with fields }.render = e.render := by
  refine ⟨⟨?_, ?_⟩, e.read?_render_eq,
    ⟨e.perm_sortedFields, e.pairwise_sortedFields, e.filter_sortedFields⟩, fun fields h hkeys => ?_⟩
  · rw [render, String.toList_ofList, List.count_append, List.count_eq_zero.2 e.newline_not_mem_line]
    rfl
  · rw [render, String.toList_ofList, List.getLast?_concat]
  · have hsorted : ({ e with fields } : LogEntry).sortedFields = e.sortedFields :=
      sortedFields_perm h hkeys
    simp only [render, line, members, hsorted]

/-- An event with two fields, of which one has a text that looks like the end of a line and another member. -/
theorem render_faithful_quoted :
    [("filter", "a\"\n\",\"b"), ("code", "1")].Perm [("code", "1"), ("filter", "a\"\n\",\"b")] ∧
    (["code", "filter"].Nodup) ∧
    render ⟨.warn, "REJECTED", [("filter", "a\"\n\",\"b"), ("code", "1")]⟩ =
      render ⟨.warn, "REJECTED", [("code", "1"), ("filter", "a\"\n\",\"b")]⟩ := by
  have hperm : [("filter", "a\"\n\",\"b"), ("code", "1")].Perm
    [("code", "1"), ("filter", "a\"\n\",\"b")] := .swap _ _ _
  have hkeys : (["code", "filter"].Nodup) := by decide
  obtain ⟨-, -, -, hsame⟩ :=
    render_faithful ⟨.warn, "REJECTED", [("code", "1"), ("filter", "a\"\n\",\"b")]⟩
  exact ⟨hperm, hkeys, hsame _ hperm hkeys⟩

end LogEntry

end TableClient
