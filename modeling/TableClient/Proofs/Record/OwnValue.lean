import TableClient.Proofs.Query.Selection
import TableClient.Proofs.Record.Column
import TableClient.Proofs.Record.Rows
import TableClient.Proofs.Value.Slot
import TableClient.Record.Schema

/-! Records found by their own values. The filter on a field names the column of the field and spells the
value as it stands in the record, while the column holds what its slot made of the value, which is loosely
equal to it. Only keys are held as texts: they are found by their text alone. -/

namespace TableClient

open TableClient.Filter

variable {R : Type}

/-- A text is loosely equal to itself only. -/
theorem Value.string_looselyEquals_iff {s : String} {v : Value} :
    (string s).looselyEquals v ↔ v = string s := by
  cases v with
  | string t =>
    rw [looselyEquals_of_compare (o := Ord.compare s t) rfl, Ordering.isEq_iff_eq_eq,
      Std.LawfulEqOrd.compare_eq_iff_eq, string.injEq, eq_comm]
  | _ => simp [looselyEquals, isNull, compare, integer?, BEq.beq, equal]

/-! ### Bindings -/

/-- How the columns at a place are bound. -/
def Place.Binds (place : Place) (binding : Binding R) : Prop :=
  match place, binding with
  | .partitionKey, .key .. | .rowKey, .key .. => True
  | .etag, .property slot .. => slot = .string
  | .timestamp, .property slot .. => slot = .dateTime
  | .property, .property .. | .property, .payload .. => True
  | _, _ => False

namespace Column

theorem binds_of_ofRole {typeName : String} {format : PayloadFormat} {f : Field R} {role : Role}
    {place : Place} (hplace : role.place? = some place) {c : Column R}
    (h : ofRole typeName format f role = .ok c) : place.Binds c.binding := by
  cases role with
  | partitionKey | rowKey =>
    cases hplace
    obtain ⟨_, _, _, -, -, rfl⟩ := ofKey_eq_ok_iff.1 h
    trivial
  | etag | timestamp =>
    cases hplace
    obtain ⟨hslot, h⟩ := ofSlot_eq_ok_iff.1 h
    obtain ⟨_, _, slot, -, hslot', rfl⟩ := ofProperty_eq_ok_iff.1 h
    exact Option.some.inj (hslot'.symm.trans hslot)
  | named | regular =>
    cases hplace
    obtain ⟨_, _, _, -, -, rfl⟩ := ofProperty_eq_ok_iff.1 h
    trivial
  | serialized =>
    cases hplace
    obtain ⟨_, _, -, rfl⟩ := ofPayload_eq_ok_iff.1 h
    trivial
  | ignored => cases hplace

variable {c : Column R} {r : R} {p : Property} {v : Value}

/-- A column that can be read has its part of the row. -/
theorem exists_row_of_read (h : c.read r = .ok p) : ∃ v, c.row r = .ok v := by
  obtain ⟨field, name, binding⟩ := c
  cases binding with
  | property slot nullable get set => exact ⟨get r, rfl⟩
  | key type get set => exact ⟨get r, rfl⟩
  | payload format get set =>
    obtain ⟨text, htext, -⟩ := map_eq_ok_iff.1 h
    exact ⟨.string text, map_eq_ok_iff.2 ⟨text, htext, rfl⟩⟩

theorem ofString_of_read {place : Place} (hkey : place = .partitionKey ∨ place = .rowKey)
    (hbinds : place.Binds c.binding) (h : c.read r = .ok p) : ∃ text, p = .ofString text ∧
      ∃ v, c.row r = .ok v ∧ KeyType.textOf c.field v = .ok text := by
  obtain ⟨field, name, binding⟩ := c
  cases binding with
  | key type get set =>
    obtain ⟨text, htext, rfl⟩ := map_eq_ok_iff.1 h
    exact ⟨text, rfl, get r, rfl, htext⟩
  | property | payload => rcases hkey with rfl | rfl <;> cases hbinds

theorem string_of_read_etag (hbinds : Place.etag.Binds c.binding) (h : c.read r = .ok p) :
    p.slot = .string := by
  obtain ⟨field, name, binding⟩ := c
  cases binding with
  | property slot nullable get set =>
    obtain rfl : slot = .string := hbinds
    exact Property.slot_of_coerce h
  | key | payload => cases hbinds

/-- What any other column reads is loosely equal to what the row has. -/
theorem looselyEquals_of_read {place : Place} (hkey : ¬(place = .partitionKey ∨ place = .rowKey))
    (hbinds : place.Binds c.binding) (hread : c.read r = .ok p) (hrow : c.row r = .ok v)
    (hv : v.IsLiteral) : p.value.looselyEquals v := by
  obtain ⟨field, name, binding⟩ := c
  cases binding with
  | property slot nullable get set =>
    cases hrow
    exact Property.looselyEquals_of_coerce hv hread
  | payload format get set =>
    obtain ⟨text, htext, rfl⟩ := map_eq_ok_iff.1 hread
    obtain ⟨text', htext', rfl⟩ := map_eq_ok_iff.1 hrow
    obtain rfl := Except.ok.inj (htext.symm.trans htext')
    exact Value.string_looselyEquals_iff.2 rfl
  | key type get set =>
    cases place with
    | partitionKey => exact absurd (.inl rfl) hkey
    | rowKey => exact absurd (.inr rfl) hkey
    | etag | timestamp | property => cases hbinds

end Column

namespace Layout

section Build

variable {config : LayoutConfig} {mapping : Option Renames} {type : RecordType R} {l : Layout R}
  {r : R} {e : Entity} {place : Place} {c : Column R} {v : Value}

theorem binds_of_placed (h : build config mapping type = .ok l) (hw : (place, c) ∈ l.placed) :
    place.Binds c.binding := by
  obtain ⟨f, -, hcolumn⟩ := (covers_build h).exists_field hw
  obtain ⟨role, -, hplace, hc⟩ := Scheme.column?_eq_ok_some_iff.1 hcolumn
  exact Column.binds_of_ofRole hplace hc

/-! ### What the entity has of a record -/

theorem read_of_keyText {key : Option (Column R)} {text : String}
    (hkey : place = .partitionKey ∨ place = .rowKey) (hbinds : place.Binds c.binding)
    (hheld : c ∈ key.toList) (h : keyText key r = .ok text) : c.read r = .ok (.ofString text) := by
  rw [Option.mem_toList.1 hheld] at h
  obtain ⟨p, hp, heq⟩ := bind_eq_ok_iff.1 h
  obtain ⟨text', rfl, -⟩ := Column.ofString_of_read hkey hbinds hp
  cases heq
  exact hp

/-- The entity has for a column what the column reads off the record. -/
theorem Represents.received_eq (h : l.Represents r e) (hnames : (l.properties.map Column.name).Nodup)
    (hw : (place, c) ∈ l.placed) (hne : place ≠ .timestamp) (hbinds : place.Binds c.binding) :
    ∃ p, c.read r = .ok p ∧ (received e c place).elim .null Property.value = p.value := by
  rw [mem_placed_iff] at hw
  cases place with
  | partitionKey => exact ⟨_, read_of_keyText (.inl rfl) hbinds hw h.partitionKey, rfl⟩
  | rowKey => exact ⟨_, read_of_keyText (.inr rfl) hbinds hw h.rowKey, rfl⟩
  | etag =>
    have htag := h.etag
    rw [etagOf, Option.mem_toList.1 hw] at htag
    obtain ⟨p, hp, -⟩ := bind_eq_ok_iff.1 htag
    exact ⟨p, hp, h.received_etag hw hp (Column.string_of_read_etag hbinds hp)⟩
  | timestamp => exact absurd rfl hne
  | property =>
    obtain ⟨p, hp⟩ := h.stores.readable c hw
    refine ⟨p, hp, ?_⟩
    rw [h.received_property hnames hw hp]
    rfl

/-- Where column names are distinct, a name stands at one place. -/
theorem placed_inj (hcolumns : (l.columns.map Column.name).Nodup) {v w : Place × Column R}
    (hv : v ∈ l.placed) (hw : w ∈ l.placed) (hname : v.2.name = w.2.name) : v = w := by
  rw [columns_eq, List.map_map] at hcolumns
  exact List.inj_on_of_nodup_map hcolumns hv hw hname

/-- The entity has no property of the name of a column that is no property. -/
theorem Represents.property?_eq_none (h : l.Represents r e)
    (hcolumns : (l.columns.map Column.name).Nodup) (hw : (place, c) ∈ l.placed)
    (hne : place ≠ .property) : e.property? c.name = none := by
  refine Option.not_isSome_iff_eq_none.1 fun hsome => ?_
  rw [Entity.property?, Keyed.find?_isSome_iff, h.stores.mem_names_iff] at hsome
  obtain ⟨d, hd, hsame⟩ := List.mem_map.1 hsome
  have hd : (Place.property, d) ∈ l.placed := mem_placed_iff.2 hd
  exact hne (congrArg Prod.fst (placed_inj hcolumns hw hd hsame.symm))

/-- The entity has no tag if the name of the tag is that of another column. -/
theorem Represents.etag_eq_none (h : l.Represents r e) (hbuild : build config mapping type = .ok l)
    (hcolumns : (l.columns.map Column.name).Nodup) (hw : (place, c) ∈ l.placed)
    (hne : place ≠ .etag) (hname : c.name = SystemColumn.etag) : e.etag = none := by
  have hnone : l.etag = none := by
    refine Option.eq_none_iff_forall_ne_some.2 fun d hd => ?_
    have hd : d ∈ l.columnsAt .etag := by simp [columnsAt, hd]
    have hsame : d.name = c.name := (name_of_mem_columnsAt hbuild .etag hd rfl).trans hname.symm
    have hd : (Place.etag, d) ∈ l.placed := mem_placed_iff.2 hd
    exact hne (congrArg Prod.fst (placed_inj hcolumns hw hd hsame.symm))
  have htag := h.etag
  rw [etagOf, hnone] at htag
  exact (Except.ok.inj htag).symm

/-- A filter sees the keys of an entity under their names, and under any other name of a column what the
entity has for the column. -/
theorem Represents.getD_member?_columns (h : l.Represents r e)
    (hbuild : build config mapping type = .ok l) (hcolumns : (l.columns.map Column.name).Nodup)
    (hw : (place, c) ∈ l.placed) (hne : place ≠ .timestamp) :
    (e.columns.member? c.name).getD .null = ((e.key? c.name).map .string).getD
      ((received e c place).elim .null Property.value) := by
  rw [Entity.member?_columns h.stores.sorted]
  have hc := mem_placed_iff.1 hw
  cases place with
  | partitionKey =>
    rw [name_of_mem_columnsAt hbuild .partitionKey hc rfl]
    rfl
  | rowKey =>
    rw [name_of_mem_columnsAt hbuild .rowKey hc rfl]
    rfl
  | etag =>
    have hkey : e.key? SystemColumn.etag = none := rfl
    rw [h.property?_eq_none hcolumns hw (by decide), name_of_mem_columnsAt hbuild .etag hc rfl, hkey,
      if_pos rfl, received]
    cases e.etag <;> rfl
  | timestamp => exact absurd rfl hne
  | property =>
    have hseen : (if c.name = SystemColumn.etag then e.etag.map Value.string else none) = none := by
      split
      next hname => rw [h.etag_eq_none hbuild hcolumns hw (by decide) hname, Option.map_none]
      next => rfl
    rw [hseen, Option.none_or, received]
    cases e.key? c.name <;> cases e.property? c.name <;> rfl

theorem nodup_properties (hcolumns : (l.columns.map Column.name).Nodup) :
    (l.properties.map Column.name).Nodup :=
  hcolumns.sublist ((List.sublist_append_right _ _).map Column.name)

/-- A record that has an entity has a row. -/
theorem exists_row (h : build config mapping type = .ok l)
    (hcolumns : (l.columns.map Column.name).Nodup) (hentity : l.Represents r e) (hc : c ∈ l.columns) :
    ∃ v, c.row r = .ok v := by
  obtain ⟨place, hw⟩ := mem_columns_iff.1 hc
  have hbinds := binds_of_placed h hw
  by_cases hne : place = .timestamp
  · subst hne
    obtain ⟨field, name, binding⟩ := c
    cases binding with
    | property slot nullable get set => exact ⟨get r, rfl⟩
    | key | payload => cases hbinds
  · obtain ⟨p, hread, -⟩ := hentity.received_eq (nodup_properties hcolumns) hw hne hbinds
    exact Column.exists_row_of_read hread

/-! ### Filters on own values -/

/-- What a filter sees under the name of a column is loosely equal to what the row has, unless the name
is that of a key, whose text is equal to itself only. -/
theorem looselyEquals_iff (h : build config mapping type = .ok l)
    (hcolumns : (l.columns.map Column.name).Nodup) (hentity : l.Represents r e)
    (hw : (place, c) ∈ l.placed) (hne : place ≠ .timestamp) (hrow : c.row r = .ok v)
    (hv : v.IsLiteral) : ((e.columns.member? c.name).getD .null).looselyEquals v ↔
      ∀ key, e.key? c.name = some key → v = .string key := by
  have hbinds := binds_of_placed h hw
  obtain ⟨p, hread, hreceived⟩ := hentity.received_eq (nodup_properties hcolumns) hw hne hbinds
  rw [hentity.getD_member?_columns h hcolumns hw hne, hreceived]
  cases hkey : e.key? c.name with
  | some key => simp [Value.string_looselyEquals_iff]
  | none =>
    have hplace : ¬(place = .partitionKey ∨ place = .rowKey) := by
      rintro (rfl | rfl)
      · rw [name_of_mem_columnsAt h .partitionKey (mem_placed_iff.1 hw) rfl] at hkey
        cases hkey
      · rw [name_of_mem_columnsAt h .rowKey (mem_placed_iff.1 hw) rfl] at hkey
        cases hkey
    simpa using Column.looselyEquals_of_read hplace hbinds hread hrow hv

/-- A key is held as the text that it has, which a string is itself and nothing else. -/
theorem eq_key_iff (h : build config mapping type = .ok l) (hentity : l.Represents r e)
    (hplace : place = .partitionKey ∨ place = .rowKey) (hw : (place, c) ∈ l.placed)
    (hrow : c.row r = .ok v) :
    (∀ key, e.key? c.name = some key → v = .string key) ↔ v.kind = .string := by
  have hbinds := binds_of_placed h hw
  have hc := mem_placed_iff.1 hw
  obtain ⟨key, hkey, hread⟩ : ∃ key, e.key? c.name = some key ∧ c.read r = .ok (.ofString key) := by
    rcases hplace with rfl | rfl
    · rw [name_of_mem_columnsAt h .partitionKey hc rfl]
      exact ⟨_, rfl, read_of_keyText (.inl rfl) hbinds hc hentity.partitionKey⟩
    · rw [name_of_mem_columnsAt h .rowKey hc rfl]
      exact ⟨_, rfl, read_of_keyText (.inr rfl) hbinds hc hentity.rowKey⟩
  obtain ⟨text, htext, w, hw, htextOf⟩ := Column.ofString_of_read hplace hbinds hread
  obtain rfl : key = text := Value.string.inj (congrArg Property.value htext)
  obtain rfl := Except.ok.inj (hrow.symm.trans hw)
  rw [hkey]
  constructor
  · intro hv
    rw [hv key rfl]
    rfl
  · rintro hkind _ ⟨⟩
    cases v with
    | string s => exact congrArg Value.string (Except.ok.inj htextOf)
    | _ => cases hkind

/-- The query for the rows of a table that have a value in a field. -/
theorem exists_compile_equality {renames : Renames} {field : String}
    (hname : IsColumn (renames.column field)) (hv : v.IsLiteral) (table param : String) :
    ∃ plan text, Compiler.standard.compile renames ((Expr.source table).filtered
        (.lambda param (.binary .eq (.field param field) (.constant v)))) = .ok plan ∧
      plan.filter = some text ∧ ∀ wire, accepts text wire =
        ((wire.member? (renames.column field)).getD .null).looselyEquals v := by
  let f : Formula := .test (.compare .eq .left field (.literal v))
  have hf : f.Translatable renames := by
    intro t ht
    rw [List.mem_singleton.1 ht]
    exact ⟨hname, rfl, hv⟩
  exact Formula.exists_compile_query hf rfl table param

/-- A stored record is found by a filter on the value that it has in a field, by whatever name and in
whatever slot the field is stored, as long as no other column has a field of that name, and unless the
name of the column is that of a key. Then it is found exactly if the value is the key text itself; of a
field that is a key, exactly if the value is a string. -/
theorem found_by_own_value (h : build config mapping type = .ok l)
    (hcolumns : (l.columns.map Column.name).Nodup) (hentity : l.toEntity r = .ok e) :
    ∃ row, l.toRow r = .ok row ∧ ∀ place c v, (place, c) ∈ l.placed → place ≠ .timestamp →
      l.HasOnce c.field → IsColumn c.name → row.member? c.field = some v → v.IsLiteral →
      ∀ table param, ∃ plan text,
        Compiler.standard.compile l.renames ((Expr.source table).filtered
          (.lambda param (.binary .eq (.field param c.field) (.constant v)))) = .ok plan ∧
        plan.filter = some text ∧
        (accepts text e.columns ↔ ∀ key, e.key? c.name = some key → v = .string key) ∧
        (place = .partitionKey ∨ place = .rowKey →
          (accepts text e.columns ↔ v.kind = .string)) := by
  have hrepresents := represents_of_toEntity hentity
  obtain ⟨row, hrow, hmembers⟩ :=
    exists_toRow fun c hc => exists_row h hcolumns hrepresents hc
  refine ⟨row, hrow, fun place c v hw hne honce hname hmember hv table param => ?_⟩
  have hc : c ∈ l.columns := mem_columns_iff.2 ⟨place, hw⟩
  have hcolumn : l.renames.column c.field = c.name := (renamed_build h).column c hc honce
  obtain ⟨w, hread, hw'⟩ := hmembers c hc honce
  obtain rfl : w = v := Option.some.inj (hw'.symm.trans hmember)
  rw [← hcolumn] at hname
  obtain ⟨plan, text, hplan, hfilter, haccepts⟩ := exists_compile_equality hname hv table param
  have hiff : accepts text e.columns ↔ ∀ key, e.key? c.name = some key → w = .string key := by
    rw [haccepts, hcolumn]
    exact looselyEquals_iff h hcolumns hrepresents hw hne hread hv
  exact ⟨plan, text, hplan, hfilter, hiff, fun hplace =>
    hiff.trans (eq_key_iff h hrepresents hplace hw hread)⟩

end Build

/-! ### Records that are not found -/

/-- A lot with a number for a key, and a size that is stored as a double under another name. -/
def lot : Schema :=
  ⟨"Lot", [⟨"Id", .value (.scalar .int32), [.partitionKey], .value (.int32 0)⟩,
    ⟨"Name", .value (.scalar .string), [.rowKey], .value (.string "")⟩,
    ⟨"Size", .value (.scalar .double), [.named "Amount"], .value (.double ⟨0⟩)⟩]⟩

def twice : Schema :=
  ⟨"Twice", [⟨"Id", .value (.scalar .string), [.partitionKey], .value (.string "")⟩,
    ⟨"A", .value (.scalar .int32), [.named "B"], .value (.int32 0)⟩,
    ⟨"A", .value (.scalar .int32), [], .value (.int32 0)⟩]⟩

/-- A column with the name of a key that no field is. -/
def unkeyed : Schema :=
  ⟨"Unkeyed", [⟨"Name", .value (.scalar .string), [.rowKey], .value (.string "")⟩,
    ⟨"A", .value (.scalar .int32), [.named "PartitionKey"], .value (.int32 0)⟩]⟩

theorem found_by_own_value_lot : ∃ l e row plan text,
    build .standard none lot.recordType = .ok l ∧
    l.toEntity [.value (.int32 5), .value (.string "a"), .value (.int64 2)] = .ok e ∧
    l.toRow [.value (.int32 5), .value (.string "a"), .value (.int64 2)] = .ok row ∧
    Compiler.standard.compile l.renames ((Expr.source "T").filtered
      (.lambda "e" (.binary .eq (.field "e" "Size") (.constant (.int64 2))))) = .ok plan ∧
    plan.filter = some text ∧ accepts text e.columns := by
  have hrun : (do
      let l ← build .standard none lot.recordType
      let _ ← l.toEntity [.value (.int32 5), .value (.string "a"), .value (.int64 2)]
      let row ← l.toRow [.value (.int32 5), .value (.string "a"), .value (.int64 2)]
      .ok (l.columns.map Column.field, l.columns.map Column.name, row.member? "Size",
        l.properties.map fun c => (c.field, c.name))) =
      Except.ok (["Id", "Name", "Size"], ["PartitionKey", "RowKey", "Amount"], some (.int64 2),
        [("Size", "Amount")]) := rfl
  obtain ⟨l, hl, hrun⟩ := bind_eq_ok_iff.1 hrun
  obtain ⟨e, he, hrun⟩ := bind_eq_ok_iff.1 hrun
  obtain ⟨row, hrow, hrun⟩ := bind_eq_ok_iff.1 hrun
  obtain ⟨hfields, hresult⟩ := Prod.mk.inj (Except.ok.inj hrun)
  obtain ⟨hnames, hvalues⟩ := Prod.mk.inj hresult
  obtain ⟨hmember, hproperties⟩ := Prod.mk.inj hvalues
  have hsize : ∃ c ∈ l.properties, (c.field, c.name) = ("Size", "Amount") :=
    List.mem_map.1 (by rw [hproperties]; exact List.mem_singleton_self _)
  obtain ⟨c, hc, hcnames⟩ := hsize
  obtain ⟨hfield, hname⟩ := Prod.mk.inj hcnames
  have hw : (Place.property, c) ∈ l.placed := mem_placed_iff.2 hc
  obtain ⟨row', hrow', hfound⟩ := found_by_own_value hl (by rw [hnames]; decide) he
  obtain rfl := Except.ok.inj (hrow.symm.trans hrow')
  have honce : l.HasOnce c.field := by
    rw [HasOnce, hfields, hfield]
    decide
  obtain ⟨plan, text, hplan, hfilter, haccepts, -⟩ := hfound .property c (.int64 2) hw (by decide)
    honce (by rw [hname]; decide) (by rw [hfield]; exact hmember) (.int64 2) "T" "e"
  rw [hfield] at hplan
  exact ⟨l, e, row, plan, text, hl, he, hrow, hplan, hfilter,
    haccepts.2 (by rw [hname]; rintro _ ⟨⟩)⟩

/-- The names of the columns are distinct words, and yet the filter on the value that the row of a record
has in a field does not accept the entity of the record. -/
def Misses (l : Layout R) (r : R) (field : String) (v : Value) : Prop :=
  (l.columns.map Column.name).Nodup ∧ (∀ c ∈ l.columns, IsColumn c.name) ∧
    ∃ e row plan text, l.toEntity r = .ok e ∧ l.toRow r = .ok row ∧ row.member? field = some v ∧
      Compiler.standard.compile l.renames ((Expr.source "T").filtered
        (.lambda "e" (.binary .eq (.field "e" field) (.constant v)))) = .ok plan ∧
      plan.filter = some text ∧ accepts text e.columns = false

theorem misses_of_run {type : RecordType R} {r : R} {field : String} {v : Value}
    (names : List String) (column : String) (w : Value) (hrun : (do
      let l ← build .standard none type
      let e ← l.toEntity r
      let row ← l.toRow r
      .ok (l.columns.map Column.name, l.renames.column field, row.member? field,
        (e.columns.member? (l.renames.column field)).getD .null)) =
      Except.ok (names, column, some v, w))
    (hnodup : names.Nodup) (hnames : ∀ name ∈ names, IsColumn name) (hcolumn : column ∈ names)
    (hv : v.IsLiteral) (hne : w.looselyEquals v = false) :
    ∃ l, build .standard none type = .ok l ∧ l.Misses r field v := by
  obtain ⟨l, hl, hrun⟩ := bind_eq_ok_iff.1 hrun
  obtain ⟨e, he, hrun⟩ := bind_eq_ok_iff.1 hrun
  obtain ⟨row, hrow, hrun⟩ := bind_eq_ok_iff.1 hrun
  obtain ⟨rfl, hresult⟩ := Prod.mk.inj (Except.ok.inj hrun)
  obtain ⟨rfl, hvalues⟩ := Prod.mk.inj hresult
  obtain ⟨hmember, rfl⟩ := Prod.mk.inj hvalues
  obtain ⟨plan, text, hplan, hfilter, haccepts⟩ :=
    exists_compile_equality (hnames _ hcolumn) hv "T" "e"
  exact ⟨l, hl, hnodup, fun c hc => hnames c.name (List.mem_map_of_mem hc), e, row, plan, text, he,
    hrow, hmember, hplan, hfilter, by rw [haccepts, hne]⟩

/-- A key that is a number is asked for as a number, and held as a text. Of two fields of one name the
filter asks for the first column and the row has the second value. And a column named as a key that no
field is gives way to the empty key. -/
theorem own_value_missed :
    (∃ l, build .standard none lot.recordType = .ok l ∧
      l.Misses [.value (.int32 5), .value (.string "a"), .value (.int64 2)] "Id" (.int32 5)) ∧
    (∃ l, build .standard none twice.recordType = .ok l ∧
      l.Misses [.value (.string "a"), .value (.int32 1), .value (.int32 2)] "A" (.int32 2)) ∧
    ∃ l, build .standard none unkeyed.recordType = .ok l ∧
      l.Misses [.value (.string "a"), .value (.int32 3)] "A" (.int32 3) :=
  ⟨misses_of_run ["PartitionKey", "RowKey", "Amount"] "PartitionKey" (.string "5") rfl (by decide)
      (by decide) (by decide) (.int32 5) rfl,
    misses_of_run ["PartitionKey", "B", "A"] "B" (.int32 1) rfl (by decide) (by decide) (by decide)
      (.int32 2) rfl,
    misses_of_run ["RowKey", "PartitionKey"] "PartitionKey" (.string "") rfl (by decide) (by decide)
      (by decide) (.int32 3) rfl⟩

end Layout

end TableClient
