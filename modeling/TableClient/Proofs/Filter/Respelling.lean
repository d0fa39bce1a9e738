import TableClient.Proofs.Filter.LiteralForm
import TableClient.Proofs.Instant.Years

/-! Literals written anew. A literal may be spelled in many ways, and a value is always written in one of
them, which is read as the same value. The exception are moments that their offset takes out of the years
of four digits: these are read and written, but what is written is not read. -/

namespace TableClient.Literal

/-- A literal of a moment that its offset takes out of the years 0 to 9999. -/
def LeavesYears (text : String) : Prop :=
  ∃ body fields, text = marked "datetime" body ∧ Instant.Fields.read? body = some fields ∧
    fields.LeavesYears

theorem Form.hasLiteral {text : String} {v : Value} (h : Form text v) : v.kind.hasLiteral := by
  cases h <;> rfl

/-- The year of the moment is the one that decides whether its text is read. -/
theorem isRemote_iff_leavesYears {body : List Char} {fields : Instant.Fields} {t : Instant}
    (hread : Instant.Fields.read? body = some fields) (ht : Instant.ofFields? fields = some t) :
    (Value.dateTime t).isRemote ↔ fields.LeavesYears := by
  obtain ⟨h0, h1⟩ := Instant.year_of_read? hread
  rw [Instant.leavesYears_iff (Instant.names_of_ofFields? ht) h0 h1]
  simp only [Value.isRemote, Bool.not_eq_true', Bool.and_eq_false_iff, decide_eq_false_iff_not]
  omega

theorem isRemote_iff_of_read {text : String} {v : Value} (h : read text = .ok v) :
    v.isRemote ↔ LeavesYears text := by
  constructor
  · intro hremote
    obtain ⟨t, rfl, -⟩ := exists_of_isRemote hremote
    cases (read_eq_ok_iff (by rintro ⟨⟩)).1 h with
    | @dateTime body _ htext ht =>
      obtain ⟨fields, hfields, hnamed⟩ := Option.bind_eq_some_iff.1 ht
      exact ⟨body, fields, htext, hfields, (isRemote_iff_leavesYears hfields hnamed).1 hremote⟩
  · rintro ⟨body, fields, rfl, hfields, hleaves⟩
    rw [read_eq_ok_iff_read?, read?_marked_datetime, Instant.read?, hfields, Option.bind_some] at h
    obtain ⟨t, hnamed, rfl⟩ := Option.map_eq_some_iff.1 h
    exact (isRemote_iff_leavesYears hfields hnamed).2 hleaves

/-- A moment that a text is read as is one that a clock shows. -/
theorem carried_of_read {text : String} {v : Value} (h : read text = .ok v) (hv : v.kind ≠ .double) :
    v.carried = v := by
  rw [Value.carried_eq_iff]
  rintro t rfl
  cases (read_eq_ok_iff hv).1 h with
  | dateTime _ ht =>
    obtain ⟨fields, -, hnamed⟩ := Option.bind_eq_some_iff.1 ht
    exact (Instant.names_of_ofFields? hnamed).isOnClock

/-- Every value other than a double that a text is read as is written as some text, which is read as the
same value, whatever way the first text spelled it. The exception is a moment that its offset took out of
the years of four digits. -/
theorem rendered_of_read {text : String} {v : Value} (h : read text = .ok v) (hv : v.kind ≠ .double) :
    ∃ rendered, render v = .ok rendered ∧
      (¬LeavesYears text → read rendered = .ok v) ∧
      (LeavesYears text → read rendered = .error (.malformedLiteral rendered)) := by
  obtain ⟨rendered, hrender, hread⟩ := exists_render ((read_eq_ok_iff hv).1 h).hasLiteral
  rw [carried_of_read h hv] at hread
  refine ⟨rendered, hrender, fun hstays => ?_, fun hleaves => ?_⟩
  · rw [hread, if_neg (mt (isRemote_iff_of_read h).1 hstays)]
  · rw [hread, if_pos ((isRemote_iff_of_read h).2 hleaves)]

/-- A small letter between date and time, a tenth digit of the fraction and an offset past midnight. -/
theorem rendered_of_read_offset : ∃ v,
    (read "datetime\x272024-05-01t00:30:00.1234567895+01:00\x27" = .ok v ∧ v.kind ≠ .double ∧
      ¬LeavesYears "datetime\x272024-05-01t00:30:00.1234567895+01:00\x27") ∧
    ∃ rendered, render v = .ok rendered ∧ read rendered = .ok v := by
  obtain ⟨t, hread, hremote⟩ : ∃ t,
      read "datetime\x272024-05-01t00:30:00.1234567895+01:00\x27" = .ok (.dateTime t) ∧
        (Value.dateTime t).isRemote = false := ⟨_, rfl, rfl⟩
  have hstays : ¬LeavesYears "datetime\x272024-05-01t00:30:00.1234567895+01:00\x27" := by
    rw [← isRemote_iff_of_read hread, hremote]
    exact Bool.false_ne_true
  have hkind : (Value.dateTime t).kind ≠ .double := by rintro ⟨⟩
  obtain ⟨rendered, hrender, hback, -⟩ := rendered_of_read hread hkind
  exact ⟨_, ⟨hread, hkind, hstays⟩, rendered, hrender, hback hstays⟩

/-- The first hour of year 0 east of Greenwich is read, but what is written for it is not. -/
theorem rendered_not_read : ∃ t : Instant,
    read "datetime\x270000-01-01T00:00:00+01:00\x27" = .ok (.dateTime t) ∧
      render (.dateTime t) = .ok "datetime\x27-0001-12-31T23:00:00Z\x27" ∧
      read "datetime\x27-0001-12-31T23:00:00Z\x27" =
        .error (.malformedLiteral "datetime\x27-0001-12-31T23:00:00Z\x27") :=
  ⟨_, rfl, rfl, rfl⟩

end TableClient.Literal
