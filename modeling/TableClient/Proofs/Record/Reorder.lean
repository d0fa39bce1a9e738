import TableClient.Proofs.Record.Acceptance

/-! Fields declared in another order. Which types have a layout does not depend on the order of their
fields, and neither do the roles, the system columns and the renames of a layout; its properties are the
same up to their order, which no entity shows where their names are distinct. -/

namespace TableClient

variable {R : Type}

/-- The entry of a field in the list of roles. -/
def Scheme.entry? (s : Scheme) (f : Field R) : Option (String × Role) :=
  (s.role f).toOption.map (f.name, ·)

namespace Layout

/-! ### Two layouts of the same fields -/

/-- Two layouts with the same columns, of which the properties may come in another order. -/
structure Reordered (l l' : Layout R) : Prop where
  partitionKey : l'.partitionKey = l.partitionKey
  rowKey : l'.rowKey = l.rowKey
  etag : l'.etag = l.etag
  timestamp : l'.timestamp = l.timestamp
  properties : l'.properties.Perm l.properties

section Reordered

variable {l l' : Layout R}

theorem Reordered.symm (h : Reordered l l') : Reordered l' l :=
  ⟨h.partitionKey.symm, h.rowKey.symm, h.etag.symm, h.timestamp.symm, h.properties.symm⟩

theorem Reordered.columns (h : Reordered l l') : l'.columns.Perm l.columns := by
  rw [Layout.columns, h.partitionKey, h.rowKey, h.etag, h.timestamp]
  exact h.properties.append_left _

theorem toList_inj_of_perm {held other : Option (Column R)}
    (h : held.toList.Perm other.toList) : held = other := by
  cases held <;> cases other <;> simp_all

/-- Layouts that cover the same fields have the same columns. -/
theorem reordered_of_covers {s : Scheme} {fields others : List (Field R)} (h : Covers s fields l)
    (h' : Covers s others l') (hperm : others.Perm fields) : Reordered l l' := by
  have hplace (place : Place) : (l'.columnsAt place).Perm (l.columnsAt place) := by
    rw [h.columnsAt_eq, h'.columnsAt_eq]
    exact hperm.filterMap _
  exact ⟨toList_inj_of_perm (hplace .partitionKey), toList_inj_of_perm (hplace .rowKey),
    toList_inj_of_perm (hplace .etag), toList_inj_of_perm (hplace .timestamp), hplace .property⟩

/-- The table of renames is one of the columns, whatever their order. -/
theorem Reordered.renames (h : Reordered l l') (htabled : l.Tabled) (htabled' : l'.Tabled) :
    l'.renames = l.renames := by
  have hpairs : (renamedPairs l'.columns).Perm (renamedPairs l.columns) :=
    (h.columns.map _).filter _
  have htable := htabled'.sorted.eq_of_perm htabled.sorted
    (htabled'.perm.trans (hpairs.trans htabled.perm.symm))
  exact congrArg Renames.mk htable

/-! ### Entities -/

theorem lastNamed?_eq_some_iff {columns : List (Column R)}
    (hnames : (columns.map Column.name).Nodup) {name : String} {c : Column R} :
    lastNamed? name columns = some c ↔ c ∈ columns ∧ c.name = name := by
  constructor
  · exact mem_of_lastNamed?
  · rintro ⟨hc, rfl⟩
    exact lastNamed?_of_nodup hnames hc

theorem lastNamed?_perm {columns others : List (Column R)} (h : others.Perm columns)
    (hnames : (columns.map Column.name).Nodup) (name : String) :
    lastNamed? name others = lastNamed? name columns := by
  ext c
  rw [lastNamed?_eq_some_iff hnames,
    lastNamed?_eq_some_iff ((h.map Column.name).nodup_iff.2 hnames), h.mem_iff]

theorem Reordered.toEntity (h : Reordered l l') (hnames : (l.properties.map Column.name).Nodup)
    {r : R} {e : Entity} (hentity : l.toEntity r = .ok e) : l'.toEntity r = .ok e := by
  have hrepresents := represents_of_toEntity hentity
  have hetag : l'.etagOf r = .ok e.etag := by
    rw [etagOf, h.etag]
    exact hrepresents.etag
  obtain ⟨e', hentity'⟩ : ∃ e', l'.toEntity r = .ok e' := by
    refine exists_toEntity ⟨e.partitionKey, ?_⟩ ⟨e.rowKey, ?_⟩ ⟨e.etag, hetag⟩ fun c hc =>
      hrepresents.stores.readable c (h.properties.mem_iff.1 hc)
    · rw [h.partitionKey]
      exact hrepresents.partitionKey
    · rw [h.rowKey]
      exact hrepresents.rowKey
  have hrepresents' := represents_of_toEntity hentity'
  -- both entities have what the same columns read off the record
  have hpartition := hrepresents'.partitionKey
  have hrow := hrepresents'.rowKey
  rw [h.partitionKey, hrepresents.partitionKey] at hpartition
  rw [h.rowKey, hrepresents.rowKey] at hrow
  have htag := hetag.symm.trans hrepresents'.etag
  have hproperties : e.properties = e'.properties :=
    hrepresents.stores.sorted.ext hrepresents'.stores.sorted fun name => by
      rw [hrepresents.stores.find?_eq, hrepresents'.stores.find?_eq,
        lastNamed?_perm h.properties hnames]
  have hsame : e = e' := by
    obtain ⟨partitionKey, rowKey, etag, timestamp, properties⟩ := e
    obtain ⟨partitionKey', rowKey', etag', timestamp', properties'⟩ := e'
    rw [Entity.mk.injEq]
    exact ⟨Except.ok.inj hpartition, Except.ok.inj hrow, Except.ok.inj htag,
      hrepresents.timestamp.trans hrepresents'.timestamp.symm, hproperties⟩
  rw [hsame, hentity']

end Reordered

/-! ### Roles -/

theorem Assigned.roles_eq {s : Scheme} {fields : List (Field R)} {l : Layout R}
    (h : Assigned s fields l) :
    l.roles = fields.filterMap s.entry? := by
  have hlisted := h.listed
  clear h
  generalize l.roles = entries at hlisted ⊢
  induction hlisted with
  | nil => rfl
  | @cons f entry rest entries hhead _ ih =>
    have hentry : s.entry? f = some entry := by
      rw [Scheme.entry?, hhead.2, ← hhead.1]
      rfl
    rw [List.filterMap_cons_some hentry, ih]

theorem roleOf?_eq (l : Layout R) (field : String) : l.roleOf? field = Keyed.find? field l.roles := by
  rw [roleOf?]
  induction l.roles with
  | nil => rfl
  | cons entry rest ih =>
    rw [List.find?_cons, Keyed.find?, ← ih]
    split <;> simp_all

/-! ### Built layouts -/

section Build

variable {config : LayoutConfig} {mapping : Option Renames} {type : RecordType R}
  {others : List (Field R)}

theorem schemeOf_perm (h : others.Perm type.fields) :
    Scheme.of config mapping { type with fields := others } = .of config mapping type := by
  rw [Scheme.of, Scheme.of, usesConventions, usesConventions, h.any_eq]

/-- Whether a type has a layout does not depend on the order in which its fields are declared, and neither
do the roles of the fields, the system columns and the renames of the layout. Where the names of the
properties are distinct, a record has the same entity. -/
theorem build_perm (h : others.Perm type.fields) (hnames : (type.fields.map Field.name).Nodup) :
    ((∃ l, build config mapping { type with fields := others } = .ok l) ↔
      ∃ l, build config mapping type = .ok l) ∧
    ∀ l l', build config mapping type = .ok l →
      build config mapping { type with fields := others } = .ok l' →
      (∀ field, l'.roleOf? field = l.roleOf? field) ∧ l'.roles.Perm l.roles ∧
      l'.renames = l.renames ∧ l'.partitionKey = l.partitionKey ∧ l'.rowKey = l.rowKey ∧
      l'.etag = l.etag ∧ l'.timestamp = l.timestamp ∧ l'.properties.Perm l.properties ∧
      ((l.properties.map Column.name).Nodup →
        ∀ r e, l'.toEntity r = .ok e ↔ l.toEntity r = .ok e) := by
  have hnames' : (others.map Field.name).Nodup := (h.map Field.name).nodup_iff.2 hnames
  refine ⟨?_, fun l l' hl hl' => ?_⟩
  · rw [exists_build_iff hnames, exists_build_iff hnames', schemeOf_perm h]
    exact ⟨fun haccepts => haccepts.perm h, fun haccepts => haccepts.perm h.symm⟩
  · have hcoherent := coherent_build hnames hl
    have hcoherent' := coherent_build hnames' hl'
    have hassigned' := assigned_build hl'
    rw [schemeOf_perm h] at hcoherent' hassigned'
    have hreordered := reordered_of_covers hcoherent.covers hcoherent'.covers h
    have hroles : l'.roles.Perm l.roles := by
      rw [hassigned'.roles_eq, (assigned_build hl).roles_eq]
      exact h.filterMap _
    have honce : (l'.roles.map Prod.fst).Nodup := hassigned'.names_roles.symm ▸ hnames'
    refine ⟨fun field => ?_, hroles, hreordered.renames hcoherent.tabled hcoherent'.tabled,
      hreordered.partitionKey, hreordered.rowKey, hreordered.etag, hreordered.timestamp,
      hreordered.properties, fun hdistinct r e => ?_⟩
    · rw [roleOf?_eq, roleOf?_eq, Keyed.find?_perm honce hroles]
    · have hdistinct' := (hreordered.properties.map Column.name).nodup_iff.2 hdistinct
      exact ⟨hreordered.symm.toEntity hdistinct', hreordered.toEntity hdistinct⟩

end Build

/-- Parcels with their fields in the opposite order. -/
def reversedParcel : RecordType Schema.Record :=
  { parcel.recordType with fields := parcel.recordType.fields.reverse }

theorem build_perm_parcel :
    reversedParcel.fields.Perm parcel.recordType.fields ∧
    (parcel.recordType.fields.map Field.name).Nodup ∧
    ∃ l l', build .standard (some ⟨[("Id", "RowKey")]⟩) parcel.recordType = .ok l ∧
      build .standard (some ⟨[("Id", "RowKey")]⟩) reversedParcel = .ok l' ∧
      l'.roleOf? "Tags" = l.roleOf? "Tags" ∧ l'.renames = l.renames ∧ l'.rowKey = l.rowKey ∧
      (l.properties.map Column.name).Nodup ∧ ∀ r e, l'.toEntity r = .ok e ↔ l.toEntity r = .ok e := by
  have hperm : parcel.recordType.fields.reverse.Perm parcel.recordType.fields := List.reverse_perm _
  have hfields : (parcel.recordType.fields.map Field.name).Nodup := by decide
  have hnames : (do
      let l ← build .standard (some ⟨[("Id", "RowKey")]⟩) parcel.recordType
      .ok (l.properties.map Column.name)) = Except.ok ["Amount", "Labels", "Color"] := rfl
  obtain ⟨l, hl, hnames⟩ := bind_eq_ok_iff.1 hnames
  have hdistinct : (l.properties.map Column.name).Nodup := by
    rw [Except.ok.inj hnames]
    decide
  obtain ⟨hbuilds, hsame⟩ := @build_perm _ .standard (some ⟨[("Id", "RowKey")]⟩) _ _ hperm hfields
  obtain ⟨l', hl'⟩ := hbuilds.2 ⟨l, hl⟩
  obtain ⟨hrole, -, hrenames, -, hrow, -, -, -, hentity⟩ := hsame l l' hl hl'
  exact ⟨hperm, hfields, l, l', hl, hl', hrole "Tags", hrenames, hrow, hdistinct, hentity hdistinct⟩

end Layout

end TableClient
