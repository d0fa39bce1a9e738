import TableClient.Proofs.Record.Names

/-! Rows and columns. A row has what the columns of a layout read off a record, under the names of
their fields; the columns of an entity are its keys and its entity tag, and its properties where these
have other names. The renames of a layout lead from the one to the other. -/

namespace TableClient

variable {R : Type}

/-! ### Columns of an entity -/

namespace Entity

/-- The key that a column of an entity holds. -/
def key? (e : Entity) (column : String) : Option String :=
  if column = SystemColumn.partitionKey then some e.partitionKey
  else if column = SystemColumn.rowKey then some e.rowKey
  else none

/-- A filter sees the entity tag and the keys before it sees properties of their names. -/
theorem member?_columns {e : Entity} (h : Keyed.Sorted e.properties) (name : String) :
    e.columns.member? name =
      (if name = SystemColumn.etag then e.etag.map .string else none).or
        (((e.key? name).map .string).or ((e.property? name).map Property.value)) := by
  have hproperties : Keyed.find? name (Keyed.ofList (e.properties.map fun entry =>
      (entry.1, entry.2.value))) = (e.property? name).map Property.value := by
    have honce : (Keyed.names e.properties).count name ≤ 1 :=
      List.nodup_iff_count_le_one.1 h.nodup_names name
    rw [Keyed.find?_ofList (by rwa [Keyed.names_map_value]), Keyed.find?_map_value]
    rfl
  have hkeys : Keyed.find? name (Keyed.ofList [("PartitionKey", Value.string e.partitionKey),
      ("RowKey", .string e.rowKey)]) = (e.key? name).map .string := by
    have honce : ["PartitionKey", "RowKey"].count name ≤ 1 :=
      List.nodup_iff_count_le_one.1 (by decide) name
    rw [Keyed.find?_ofList honce, key?, Keyed.find?, Keyed.find?]
    simp only [SystemColumn.partitionKey, SystemColumn.rowKey, eq_comm (a := name)]
    split
    · rfl
    · split <;> rfl
  have hetag : Keyed.find? name (Keyed.ofList (e.etag.map fun t => ("ETag", Value.string t)).toList) =
      if name = SystemColumn.etag then e.etag.map .string else none := by
    cases e.etag with
    | none => simp [Keyed.ofList, Keyed.find?]
    | some tag =>
      simp only [SystemColumn.etag, eq_comm (a := name)]
      rfl
  show Keyed.find? name (Keyed.ofList (e.properties.map (fun entry => (entry.1, entry.2.value)) ++
    [("PartitionKey", .string e.partitionKey), ("RowKey", .string e.rowKey)] ++
    (e.etag.map fun t => ("ETag", Value.string t)).toList)) = _
  rw [Keyed.find?_ofList_append, Keyed.find?_ofList_append, hproperties, hkeys, hetag]

end Entity

namespace Layout

/-! ### Names of columns -/

/-- One column has the field, and no other does. -/
def HasOnce (l : Layout R) (field : String) : Prop := (l.columns.map Column.field).count field = 1

/-- The renames of a layout lead from the field of each column to the column, where no other column has
the field, and from no field that has no column. -/
structure Renamed (l : Layout R) : Prop where
  column : ∀ c ∈ l.columns, l.HasOnce c.field → l.renames.column c.field = c.name
  field : ∀ name, (l.renames.get? name).isSome → name ∈ l.columns.map Column.field

theorem Renamed.adds {s : Scheme} {f : Field R} {l l' : Layout R} (h : l.Renamed)
    (hadds : Adds s f l l') : l'.Renamed := by
  cases hadds with
  | ignored => exact ⟨h.column, h.field⟩
  | @column role place c renames _ _ hc hfree hnote =>
    have hfield : c.field = f.name := (Column.names_of_ofRole hc).1
    have hperm : (columns { l.put c place with
        renames, roles := l.roles ++ [(f.name, role)] }).Perm (c :: l.columns) := columns_put hfree c
    have hcount (name : String) : ((columns { l.put c place with
        renames, roles := l.roles ++ [(f.name, role)] }).map Column.field).count name =
          (l.columns.map Column.field).count name + if f.name == name then 1 else 0 := by
      rw [(hperm.map Column.field).count_eq, List.map_cons, List.count_cons, hfield]
    have hmem {name : String} : name ∈ (columns { l.put c place with
        renames, roles := l.roles ++ [(f.name, role)] }).map Column.field ↔
          name = f.name ∨ name ∈ l.columns.map Column.field := by
      rw [(hperm.map Column.field).mem_iff, List.map_cons, List.mem_cons, hfield]
    refine ⟨fun d hd honce => ?_, fun name hname => ?_⟩
    · rw [HasOnce, hcount] at honce
      rcases List.mem_cons.1 (hperm.mem_iff.1 hd) with rfl | hd
      · rw [hfield] at honce ⊢
        by_cases hsame : f.name = d.name
        · -- a field of the very name of its column is not renamed, and was not before
          rw [Renames.note, if_pos hsame] at hnote
          cases hnote
          rw [if_pos (beq_self_eq_true _)] at honce
          have hfresh : f.name ∉ l.columns.map Column.field := List.count_eq_zero.1 (by omega)
          have hnone : l.renames.get? f.name = none :=
            Option.not_isSome_iff_eq_none.1 fun hsome => hfresh (h.field f.name hsome)
          rw [Renames.column, hnone, Option.getD_none, hsame]
        · rw [Renames.column, Renames.get?_note_self hnote hsame, Option.getD_some]
      · have hpos : 0 < (l.columns.map Column.field).count d.field :=
          List.count_pos_iff.2 (List.mem_map_of_mem hd)
        have hne : f.name ≠ d.field := by
          intro hsame
          rw [if_pos (beq_iff_eq.2 hsame)] at honce
          omega
        rw [if_neg (by simpa using hne)] at honce
        rw [Renames.column, Renames.get?_note_of_ne hnote hne]
        exact h.column d hd honce
    · by_cases hne : f.name = name
      · exact hmem.2 (.inl hne.symm)
      · rw [Renames.get?_note_of_ne hnote hne] at hname
        exact hmem.2 (.inr (h.field name hname))

/-! ### Rows -/

theorem columns_eq (l : Layout R) : l.columns = l.placed.map Prod.snd := by
  simp [columns, placed, Place.all, columnsAt, List.map_append]

theorem mem_columns_iff {l : Layout R} {c : Column R} :
    c ∈ l.columns ↔ ∃ place, (place, c) ∈ l.placed := by
  simp [columns_eq]

/-- The members of a row, one for each column that it is read through. -/
theorem exists_members {r : R} {columns : List (Column R)}
    (h : ∀ c ∈ columns, ∃ v, c.row r = .ok v) :
    ∃ members, (columns.mapM fun c => do .ok (c.field, ← c.row r)) = Except.ok members ∧
      Keyed.names members = columns.map Column.field ∧
      ∀ c ∈ columns, ∃ v, c.row r = .ok v ∧ (c.field, v) ∈ members := by
  induction columns with
  | nil => exact ⟨[], rfl, rfl, nofun⟩
  | cons c rest ih =>
    obtain ⟨⟨v, hv⟩, hrest⟩ := List.forall_mem_cons.1 h
    obtain ⟨members, hmembers, hnames, hmem⟩ := ih hrest
    refine ⟨(c.field, v) :: members, ?_, ?_, List.forall_mem_cons.2 ⟨⟨v, hv, List.mem_cons_self⟩, ?_⟩⟩
    · rw [List.mapM_cons, hv, ok_bind, ok_bind, hmembers]
      rfl
    · rw [Keyed.names, List.map_cons, ← Keyed.names, hnames, List.map_cons]
    · intro d hd
      obtain ⟨w, hw, hin⟩ := hmem d hd
      exact ⟨w, hw, List.mem_cons_of_mem _ hin⟩

/-- A row has under each field what its column reads, where no other column has the field. -/
theorem exists_toRow {l : Layout R} {r : R} (h : ∀ c ∈ l.columns, ∃ v, c.row r = .ok v) :
    ∃ row, l.toRow r = .ok row ∧ ∀ c ∈ l.columns, l.HasOnce c.field → ∃ v, c.row r = .ok v ∧
      row.member? c.field = some v := by
  obtain ⟨members, hmembers, hnames, hmem⟩ := exists_members h
  refine ⟨.ofMembers members, by rw [toRow, hmembers, ok_bind], fun c hc honce => ?_⟩
  obtain ⟨v, hv, hin⟩ := hmem c hc
  refine ⟨v, hv, ?_⟩
  have hle : (Keyed.names members).count c.field ≤ 1 := by
    rw [hnames]
    exact honce.le
  show Keyed.find? c.field (Keyed.ofList members) = some v
  rw [Keyed.find?_ofList hle, Keyed.find?_eq_some_iff hle]
  exact hin

/-! ### Built layouts -/

theorem renamed_build {config : LayoutConfig} {mapping : Option Renames} {type : RecordType R}
    {l : Layout R} (h : build config mapping type = .ok l) : l.Renamed :=
  build_induction (motive := fun _ l => l.Renamed) h
    ⟨by simp [columns, start], by simp [start, Renames.empty, Renames.get?, Keyed.find?]⟩
    fun _ _ _ _ hrenamed hadds => hrenamed.adds hadds

end Layout

end TableClient
