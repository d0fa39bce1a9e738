import TableClient.Proofs.Record.Entity
import TableClient.Record.Schema

/-! Names of columns. A layout holds each system column once, and of two fields that are renamed to
one key column the second is refused. Nothing keeps other columns apart: properties may share a name
with each other, and then the entity has the property of the last one. -/

namespace TableClient

variable {R : Type}

/-! ### Renames -/

namespace Renames

theorem insert_eq_ok_iff {r r' : Renames} {field column : String} :
    r.insert field column = .ok r' ↔ field ≠ "" ∧ column ≠ "" ∧
      (SystemColumn.isKey column → ∀ holder, r.fieldFor? column = some holder → holder = field) ∧
      r' = ⟨Keyed.insert field column r.table⟩ := by
  unfold insert
  split
  next hempty =>
    refine iff_of_false (by simp) fun ⟨hfield, hcolumn, _⟩ => ?_
    rcases hempty with h | h
    · exact hfield h
    · exact hcolumn h
  next hne =>
    obtain ⟨hfield, hcolumn⟩ := not_or.1 hne
    rw [← and_assoc, and_iff_right ⟨hfield, hcolumn⟩]
    cases hkey : SystemColumn.isKey column with
    | false => simp [eq_comm]
    | true =>
      cases hholder : r.fieldFor? column with
      | none => simp [eq_comm]
      | some holder =>
        by_cases hsame : holder = field
        · simp [hsame, eq_comm]
        · exact iff_of_false (by simp [hsame]) fun h => hsame (h.1 rfl holder rfl)

theorem get?_insert {r r' : Renames} {field column : String} (h : r.insert field column = .ok r')
    (name : String) : r'.get? name = if field = name then some column else r.get? name := by
  obtain ⟨-, -, -, rfl⟩ := insert_eq_ok_iff.1 h
  exact Keyed.find?_insert field name column r.table

theorem mem_names_insert {r r' : Renames} {field column : String}
    (h : r.insert field column = .ok r') {name : String} (hname : name ∈ Keyed.names r'.table) :
    name = field ∨ name ∈ Keyed.names r.table := by
  obtain ⟨-, -, -, rfl⟩ := insert_eq_ok_iff.1 h
  obtain ⟨p, hp, rfl⟩ := List.mem_map.1 hname
  rcases Keyed.mem_insert hp with rfl | hp
  · exact .inl rfl
  · exact .inr (List.mem_map_of_mem hp)

/-- Some field holds a column that a field is renamed to. -/
theorem exists_fieldFor? {r : Renames} {field column : String} (h : r.get? field = some column) :
    ∃ holder ∈ Keyed.names r.table, r.fieldFor? column = some holder := by
  have hmem := Keyed.mem_of_find? h
  have hsome : (r.table.find? fun p => p.2 == column).isSome :=
    List.find?_isSome.2 ⟨_, hmem, by simp⟩
  obtain ⟨p, hp⟩ := Option.isSome_iff_exists.1 hsome
  refine ⟨p.1, List.mem_map_of_mem (List.mem_of_find?_eq_some hp), ?_⟩
  rw [fieldFor?, Keyed.nameFor?, hp, Option.map_some]

/-! A note leaves the table as it is, or is an insertion. -/

section Note

variable {r r' : Renames} {field column : String}

theorem get?_note_self (h : r.note field column = .ok r') (hne : field ≠ column) :
    r'.get? field = some column := by
  rw [note, if_neg hne] at h
  rw [get?_insert h, if_pos rfl]

theorem get?_note_of_ne (h : r.note field column = .ok r') {name : String} (hne : field ≠ name) :
    r'.get? name = r.get? name := by
  unfold note at h
  split at h
  · cases h
    rfl
  · rw [get?_insert h, if_neg hne]

theorem mem_names_note (h : r.note field column = .ok r') {name : String}
    (hname : name ∈ Keyed.names r'.table) : name = field ∨ name ∈ Keyed.names r.table := by
  unfold note at h
  split at h
  · cases h
    exact .inr hname
  · exact mem_names_insert h hname

/-- A key column that is held is noted again only for its holder. -/
theorem mem_names_of_note (h : r.note field column = .ok r') (hne : field ≠ column)
    (hkey : SystemColumn.isKey column) {other : String} (hother : r.get? other = some column) :
    field ∈ Keyed.names r.table := by
  rw [note, if_neg hne] at h
  obtain ⟨-, -, hkeep, -⟩ := insert_eq_ok_iff.1 h
  obtain ⟨holder, hmem, hholder⟩ := exists_fieldFor? hother
  rwa [hkeep hkey holder hholder] at hmem

end Note

end Renames

/-- The name of the system column that stands at a place. -/
def Place.columnName? : Place → Option String
  | .partitionKey => some SystemColumn.partitionKey
  | .rowKey => some SystemColumn.rowKey
  | .etag => some SystemColumn.etag
  | .timestamp => some SystemColumn.timestamp
  | .property => none

namespace Layout

def systemColumns (l : Layout R) : List (Column R) :=
  l.partitionKey.toList ++ l.rowKey.toList ++ l.etag.toList ++ l.timestamp.toList

/-! ### Renamed fields -/

/-- Two columns stand apart: if they are one key column, one of the fields has its very name. -/
def Apart (c d : Column R) : Prop :=
  c.name = d.name → SystemColumn.isKey c.name → c.field = c.name ∨ d.field = d.name

theorem Apart.symm {c d : Column R} (h : Apart c d) : Apart d c := fun hname hkey =>
  (h hname.symm (hname ▸ hkey)).symm

/-- The renames of a layout are those of its columns, which belong to given fields. -/
structure Noted (fields : List (Field R)) (l : Layout R) : Prop where
  declared : ∀ c ∈ l.columns, c.field ∈ fields.map Field.name
  renamed : ∀ name ∈ Keyed.names l.renames.table, name ∈ fields.map Field.name
  noted : ∀ c ∈ l.columns, c.field ≠ c.name → l.renames.get? c.field = some c.name
  apart : l.columns.Pairwise Apart

theorem Noted.adds {fields : List (Field R)} {l l' : Layout R} (h : Noted fields l) {s : Scheme}
    {f : Field R} (hfresh : f.name ∉ fields.map Field.name) (hadds : Adds s f l l') :
    Noted (fields ++ [f]) l' := by
  have hmore {name : String} (hname : name = f.name ∨ name ∈ fields.map Field.name) :
      name ∈ (fields ++ [f]).map Field.name := by
    rw [List.map_append, List.mem_append, List.map_singleton, List.mem_singleton]
    exact hname.symm
  cases hadds with
  | ignored =>
    exact ⟨fun c hc => hmore (.inr (h.declared c hc)),
      fun name hname => hmore (.inr (h.renamed name hname)), h.noted, h.apart⟩
  | @column role place c renames _ _ hc hfree hnote =>
    have hfield : c.field = f.name := (Column.names_of_ofRole hc).1
    have hperm : (columns { l.put c place with
        renames, roles := l.roles ++ [(f.name, role)] }).Perm (c :: l.columns) := columns_put hfree c
    have hold {d : Column R} (hd : d ∈ l.columns) : f.name ≠ d.field := fun hsame =>
      hfresh (hsame ▸ h.declared d hd)
    refine ⟨fun d hd => ?_, fun name hname => ?_, fun d hd hne => ?_, ?_⟩
    · rcases List.mem_cons.1 (hperm.mem_iff.1 hd) with rfl | hd
      · exact hmore (.inl hfield)
      · exact hmore (.inr (h.declared d hd))
    · exact hmore ((Renames.mem_names_note hnote hname).imp_right (h.renamed name))
    · rcases List.mem_cons.1 (hperm.mem_iff.1 hd) with rfl | hd
      · rw [hfield] at hne ⊢
        exact Renames.get?_note_self hnote hne
      · exact (Renames.get?_note_of_ne hnote (hold hd)).trans (h.noted d hd hne)
    · refine (hperm.pairwise_iff Apart.symm).2 (List.pairwise_cons.2 ⟨fun d hd hsame hkey => ?_, h.apart⟩)
      -- were both fields renamed, the new one would be among the old
      by_contra hneither
      obtain ⟨hc', hd'⟩ := not_or.1 hneither
      have hmem := Renames.mem_names_of_note hnote (hfield ▸ hc') hkey (hsame ▸ h.noted d hd hd')
      exact hfresh (h.renamed f.name hmem)

/-! ### Built layouts -/

section Build

variable {config : LayoutConfig} {mapping : Option Renames} {type : RecordType R} {l : Layout R}

theorem noted_build (hfields : (type.fields.map Field.name).Nodup)
    (h : build config mapping type = .ok l) : Noted type.fields l := by
  refine build_induction (motive := fun fields l => (fields.map Field.name).Nodup → Noted fields l)
    h (fun _ => ⟨by simp [columns, start], by simp [start, Renames.empty, Keyed.names],
      by simp [columns, start], by simp [columns, start]⟩) ?_ hfields
  intro fields l f l' hnoted hadds hnodup
  rw [List.map_append, List.map_singleton, List.nodup_append] at hnodup
  refine (hnoted hnodup.1).adds (fun hmem => ?_) hadds
  exact hnodup.2.2 f.name hmem f.name (List.mem_singleton_self _) rfl

/-- The columns at the places of the system have the names of the system. -/
theorem name_of_mem_columnsAt (h : build config mapping type = .ok l) (place : Place)
    {c : Column R} (hc : c ∈ l.columnsAt place) {name : String}
    (hname : place.columnName? = some name) : c.name = name := by
  rw [(covers_build h).columnsAt_eq, List.mem_filterMap] at hc
  obtain ⟨f, -, hc⟩ := hc
  obtain ⟨role, -, hplace, hc⟩ :=
    Scheme.column?_eq_ok_some_iff.1 (Scheme.columnAt?_eq_some_iff.1 hc)
  rw [(Column.names_of_ofRole hc).2]
  cases role <;> cases hplace <;> cases hname <;> rfl

theorem names_toList_sublist {held : Option (Column R)} {name : String}
    (h : ∀ c ∈ held.toList, c.name = name) : (held.toList.map Column.name).Sublist [name] := by
  cases held with
  | none => exact List.nil_sublist _
  | some c =>
    rw [Option.toList_some, List.map_singleton, h c (List.mem_singleton_self c)]

theorem nodup_systemColumns (h : build config mapping type = .ok l) :
    (l.systemColumns.map Column.name).Nodup := by
  have hall : (l.systemColumns.map Column.name).Sublist ([SystemColumn.partitionKey] ++
      [SystemColumn.rowKey] ++ [SystemColumn.etag] ++ [SystemColumn.timestamp]) := by
    simp only [systemColumns, List.map_append]
    refine ((List.Sublist.append ?_ ?_).append ?_).append ?_
    · exact names_toList_sublist fun c hc => name_of_mem_columnsAt h .partitionKey hc rfl
    · exact names_toList_sublist fun c hc => name_of_mem_columnsAt h .rowKey hc rfl
    · exact names_toList_sublist fun c hc => name_of_mem_columnsAt h .etag hc rfl
    · exact names_toList_sublist fun c hc => name_of_mem_columnsAt h .timestamp hc rfl
  exact hall.nodup (by decide)

/-- A layout that was built has at most one column of each system name, and no two fields are renamed
to one key column. The entity of a record has one property for each name of the properties, which is
that of the last of them, so each has its own where the names are distinct. -/
theorem distinct_columns_of_build (hfields : (type.fields.map Field.name).Nodup)
    (h : build config mapping type = .ok l) :
    (l.systemColumns.map Column.name).Nodup ∧ l.columns.Pairwise Apart ∧
      ∀ r e, l.toEntity r = .ok e →
        (Keyed.names e.properties).Nodup ∧
        (∀ name, name ∈ Keyed.names e.properties ↔ name ∈ l.properties.map Column.name) ∧
        (∀ c ∈ l.properties, ∃ d p, lastNamed? c.name l.properties = some d ∧ d.read r = .ok p ∧
          e.property? c.name = some p) ∧
        ((l.properties.map Column.name).Nodup → e.properties.length = l.properties.length ∧
          ∀ c ∈ l.properties, ∃ p, c.read r = .ok p ∧ e.property? c.name = some p) := by
  refine ⟨nodup_systemColumns h, (noted_build hfields h).apart, fun r e hentity => ?_⟩
  have hstores := (represents_of_toEntity hentity).stores
  refine ⟨hstores.sorted.nodup_names, fun name => hstores.mem_names_iff, fun c hc => ?_,
    fun hnames => ⟨?_, fun c hc => hstores.find?_of_nodup hnames hc⟩⟩
  · obtain ⟨d, hd⟩ := Option.isSome_iff_exists.1
      (lastNamed?_isSome_iff.2 (List.mem_map_of_mem hc))
    obtain ⟨p, hp⟩ := hstores.readable d (mem_of_lastNamed? hd).1
    refine ⟨d, p, hd, hp, ?_⟩
    rw [Entity.property?, hstores.find?_eq, hd, Option.bind_some, hp]
    rfl
  · have hperm : (Keyed.names e.properties).Perm (l.properties.map Column.name) :=
      (List.perm_ext_iff_of_nodup hstores.sorted.nodup_names hnames).2 fun _ =>
        hstores.mem_names_iff
    simpa [Keyed.names] using hperm.length_eq

end Build

/-- Two fields that are marked with one name. -/
def sharedColumn : Schema :=
  ⟨"Shared", [⟨"A", .value (.scalar .string), [.partitionKey], .value (.string "")⟩,
    ⟨"B", .value (.scalar .int32), [.named "X"], .value (.int32 0)⟩,
    ⟨"C", .value (.scalar .int32), [.named "X"], .value (.int32 0)⟩]⟩

theorem distinct_columns_of_build_shared :
    (sharedColumn.recordType.fields.map Field.name).Nodup ∧
      ∃ l e, build .standard none sharedColumn.recordType = .ok l ∧
        l.toEntity [.value (.string "a"), .value (.int32 1), .value (.int32 2)] = .ok e ∧
        (l.systemColumns.map Column.name).Nodup ∧ l.columns.Pairwise Apart ∧
        (Keyed.names e.properties).Nodup ∧
        (∀ name, name ∈ Keyed.names e.properties ↔ name ∈ l.properties.map Column.name) ∧
        e.properties.map (fun p => (p.1, p.2.value)) = [("X", .int32 2)] := by
  have hfields : (sharedColumn.recordType.fields.map Field.name).Nodup := by decide
  have hentity : (do
      let l ← build .standard none sharedColumn.recordType
      let e ← l.toEntity [.value (.string "a"), .value (.int32 1), .value (.int32 2)]
      .ok (e.properties.map (fun p => (p.1, p.2.value)))) = Except.ok [("X", .int32 2)] := rfl
  obtain ⟨l, hl, hentity⟩ := bind_eq_ok_iff.1 hentity
  obtain ⟨e, he, hvalues⟩ := bind_eq_ok_iff.1 hentity
  obtain ⟨hsystem, hapart, hproperties⟩ := distinct_columns_of_build hfields hl
  obtain ⟨hnodup, hnames, -⟩ := hproperties _ e he
  exact ⟨hfields, l, e, hl, he, hsystem, hapart, hnodup, hnames, Except.ok.inj hvalues⟩

/-- A key of the name of its column, and another field that is marked with that name. -/
def ownColumn : Schema :=
  ⟨"Own", [⟨"PartitionKey", .value (.scalar .string), [.partitionKey], .value (.string "")⟩,
    ⟨"B", .value (.scalar .int32), [.named "PartitionKey"], .value (.int32 0)⟩]⟩

/-- Layouts of such types are built although two columns have one name; of two properties the entity
of a record has the second value only. -/
theorem shared_column_loses_value :
    (sharedColumn.recordType.fields.map Field.name).Nodup ∧
      (∃ l e, build .standard none sharedColumn.recordType = .ok l ∧
        l.toEntity [.value (.string "a"), .value (.int32 1), .value (.int32 2)] = .ok e ∧
        l.columns.map (fun c => (c.field, c.name)) =
          [("A", "PartitionKey"), ("B", "X"), ("C", "X")] ∧
        ¬(l.columns.map Column.name).Nodup ∧
        e.properties.map (fun p => (p.1, p.2.value)) = [("X", .int32 2)]) ∧
      (ownColumn.recordType.fields.map Field.name).Nodup ∧
      ∃ l, build .standard none ownColumn.recordType = .ok l ∧
        l.columns.map (fun c => (c.field, c.name)) =
          [("PartitionKey", "PartitionKey"), ("B", "PartitionKey")] := by
  have hshared : (do
      let l ← build .standard none sharedColumn.recordType
      let e ← l.toEntity [.value (.string "a"), .value (.int32 1), .value (.int32 2)]
      .ok (l.columns.map (fun c => (c.field, c.name)), l.columns.map Column.name,
        e.properties.map (fun p => (p.1, p.2.value)))) =
      Except.ok ([("A", "PartitionKey"), ("B", "X"), ("C", "X")], ["PartitionKey", "X", "X"],
        [("X", .int32 2)]) := rfl
  have hown : (do
      let l ← build .standard none ownColumn.recordType
      .ok (l.columns.map (fun c => (c.field, c.name)))) =
      Except.ok [("PartitionKey", "PartitionKey"), ("B", "PartitionKey")] := rfl
  obtain ⟨l, hl, hshared⟩ := bind_eq_ok_iff.1 hshared
  obtain ⟨e, he, hshared⟩ := bind_eq_ok_iff.1 hshared
  obtain ⟨hcolumns, hrest⟩ := Prod.mk.inj (Except.ok.inj hshared)
  obtain ⟨hnames, hvalues⟩ := Prod.mk.inj hrest
  obtain ⟨l', hl', hown⟩ := bind_eq_ok_iff.1 hown
  exact ⟨by decide, ⟨l, e, hl, he, hcolumns, by rw [hnames]; decide, hvalues⟩, by decide,
    l', hl', Except.ok.inj hown⟩

end Layout

end TableClient
