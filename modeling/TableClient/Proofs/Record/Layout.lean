import TableClient.Proofs.Outcome
import TableClient.Record.Layout

/-! What a layout consists of. A role that is kept has a place in the layout: one of the four system
columns, or the list of properties. Adding a field puts the column that its role asks for into that
place and notes its name; so the layout of a list of fields has at each place the columns of the
fields of that place, in the order of the fields. -/

namespace TableClient

variable {R : Type}

inductive Place where
  | partitionKey | rowKey | etag | timestamp | property
  deriving DecidableEq

/-- All places, in the order in which the columns of a layout are listed. -/
def Place.all : List Place := [.partitionKey, .rowKey, .etag, .timestamp, .property]

def Role.place? : Role → Option Place
  | .partitionKey => some .partitionKey
  | .rowKey => some .rowKey
  | .etag => some .etag
  | .timestamp => some .timestamp
  | .named _ | .serialized _ | .regular => some .property
  | .ignored => none

/-! ### The column of a field -/

/-- A column of a field whose type has to have a given slot. -/
def Column.ofSlot (typeName : String) (f : Field R) (slot : Scalar) (name : String) :
    Except MappingError (Column R) :=
  if f.type.slot? = some slot then ofProperty typeName f name
  else .error (.unsupportedFieldType typeName f.name f.type.text)

/-- The column of a field in a role that is kept. -/
def Column.ofRole (typeName : String) (format : PayloadFormat) (f : Field R) :
    Role → Except MappingError (Column R)
  | .partitionKey => ofKey typeName f SystemColumn.partitionKey
  | .rowKey => ofKey typeName f SystemColumn.rowKey
  | .etag => ofSlot typeName f .string SystemColumn.etag
  | .timestamp => ofSlot typeName f .dateTime SystemColumn.timestamp
  | .named column => ofProperty typeName f column
  | .serialized column => ofPayload typeName f column format
  | .regular | .ignored => ofProperty typeName f f.name

def Role.columnName (field : String) : Role → String
  | .partitionKey => SystemColumn.partitionKey
  | .rowKey => SystemColumn.rowKey
  | .etag => SystemColumn.etag
  | .timestamp => SystemColumn.timestamp
  | .named column | .serialized column => column
  | .regular | .ignored => field

namespace Column

theorem valueLens_eq_ok_iff {typeName : String} {f : Field R}
    {lens : (R → Value) × (R → Value → Except MappingError R)} :
    valueLens typeName f = .ok lens ↔ f.lens = .value lens.1 lens.2 := by
  unfold valueLens
  split
  next get set h =>
    rw [h, Lens.value.injEq, Except.ok.injEq]
    exact Prod.ext_iff
  next h => exact iff_of_false (by simp) (by simp [h])

theorem ofProperty_eq_ok_iff {typeName name : String} {f : Field R} {c : Column R} :
    ofProperty typeName f name = .ok c ↔ ∃ get set slot, f.lens = .value get set ∧
      f.type.slot? = some slot ∧ c = ⟨f.name, name, .property slot f.type.isNullable get set⟩ := by
  unfold ofProperty
  simp only [bind_eq_ok_iff, valueLens_eq_ok_iff, Prod.exists]
  refine exists_congr fun get => exists_congr fun set => ?_
  cases f.type.slot? <;> simp [eq_comm]

theorem ofKey_eq_ok_iff {typeName name : String} {f : Field R} {c : Column R} :
    ofKey typeName f name = .ok c ↔ ∃ get set type, f.lens = .value get set ∧
      f.type.slot?.bind KeyType.ofScalar? = some type ∧ c = ⟨f.name, name, .key type get set⟩ := by
  unfold ofKey
  simp only [bind_eq_ok_iff, valueLens_eq_ok_iff, Prod.exists]
  refine exists_congr fun get => exists_congr fun set => ?_
  cases f.type.slot?.bind KeyType.ofScalar? <;> simp [eq_comm]

theorem ofPayload_eq_ok_iff {typeName name : String} {f : Field R} {format : PayloadFormat}
    {c : Column R} : ofPayload typeName f name format = .ok c ↔ ∃ get set,
      f.lens = .document get set ∧ c = ⟨f.name, name, .payload format get set⟩ := by
  unfold ofPayload
  split
  next get set h =>
    constructor
    · intro hc
      exact ⟨get, set, h, (Except.ok.inj hc).symm⟩
    · rintro ⟨_, _, hlens, rfl⟩
      cases h.symm.trans hlens
      rfl
  next h => exact iff_of_false (by simp) (by simp [h])

theorem ofSlot_eq_ok_iff {typeName name : String} {f : Field R} {slot : Scalar} {c : Column R} :
    ofSlot typeName f slot name = .ok c ↔
      f.type.slot? = some slot ∧ ofProperty typeName f name = .ok c := by
  unfold ofSlot
  split
  next h => exact (and_iff_right h).symm
  next h => exact iff_of_false (by simp) fun hc => h hc.1

theorem names_of_ofRole {typeName : String} {format : PayloadFormat} {f : Field R} {role : Role}
    {c : Column R} (h : ofRole typeName format f role = .ok c) :
    c.field = f.name ∧ c.name = role.columnName f.name := by
  cases role with
  | partitionKey | rowKey =>
    obtain ⟨_, _, _, -, -, rfl⟩ := ofKey_eq_ok_iff.1 h
    exact ⟨rfl, rfl⟩
  | etag | timestamp =>
    obtain ⟨_, _, _, -, -, rfl⟩ := ofProperty_eq_ok_iff.1 (ofSlot_eq_ok_iff.1 h).2
    exact ⟨rfl, rfl⟩
  | named | regular | ignored =>
    obtain ⟨_, _, _, -, -, rfl⟩ := ofProperty_eq_ok_iff.1 h
    exact ⟨rfl, rfl⟩
  | serialized =>
    obtain ⟨_, _, -, rfl⟩ := ofPayload_eq_ok_iff.1 h
    exact ⟨rfl, rfl⟩

end Column

/-- What decides on the columns of a record type, besides its fields. -/
structure Scheme where
  typeName : String
  mapping : Option Renames
  conventions : Bool
  format : PayloadFormat

namespace Scheme

def of (config : LayoutConfig) (mapping : Option Renames) (type : RecordType R) : Scheme :=
  ⟨type.name, mapping, Layout.usesConventions config mapping type, config.format⟩

def role (s : Scheme) (f : Field R) : Except MappingError Role :=
  Role.ofField s.typeName s.mapping s.conventions f

/-- The column of a field and its place, if the role of the field is kept. -/
def column? (s : Scheme) (f : Field R) : Except MappingError (Option (Place × Column R)) := do
  let role ← s.role f
  match role.place? with
  | some place => do .ok (some (place, ← Column.ofRole s.typeName s.format f role))
  | none => .ok none

/-- The column of a field, if it stands at a place. -/
def columnAt? (s : Scheme) (place : Place) (f : Field R) : Option (Column R) :=
  match s.column? f with
  | .ok (some (q, c)) => if q = place then some c else none
  | _ => none

theorem column?_eq_ok_some_iff {s : Scheme} {f : Field R} {place : Place} {c : Column R} :
    s.column? f = .ok (some (place, c)) ↔ ∃ role, s.role f = .ok role ∧
      role.place? = some place ∧ Column.ofRole s.typeName s.format f role = .ok c := by
  simp only [column?, bind_eq_ok_iff]
  refine exists_congr fun role => and_congr_right fun _ => ?_
  cases role.place? with
  | none => simp
  | some q => cases Column.ofRole s.typeName s.format f role <;> simp [and_comm, eq_comm]

theorem column?_eq_ok_none {s : Scheme} {f : Field R} {role : Role} (h : s.role f = .ok role)
    (hplace : role.place? = none) : s.column? f = .ok none := by
  rw [column?, h, ok_bind, hplace]

/-- Only an ignored field has no column. -/
theorem ignored_of_column? {s : Scheme} {f : Field R} (h : s.column? f = .ok none) :
    s.role f = .ok .ignored := by
  obtain ⟨role, hrole, hplace⟩ := bind_eq_ok_iff.1 h
  cases role with
  | ignored => exact hrole
  | _ =>
    obtain ⟨_, -, hc⟩ := bind_eq_ok_iff.1 hplace
    cases hc

theorem columnAt?_eq_some_iff {s : Scheme} {f : Field R} {place : Place} {c : Column R} :
    s.columnAt? place f = some c ↔ s.column? f = .ok (some (place, c)) := by
  unfold columnAt?
  split
  next q d h =>
    rw [h]
    split
    next same => simp [same]
    next hne => simp [hne]
  next hno => exact iff_of_false (by simp) fun h => hno place c h

end Scheme

/-- Notes the column of a field, where it is not the field's own name. -/
def Renames.note (r : Renames) (field column : String) : Except MappingError Renames :=
  if field = column then .ok r else r.insert field column

namespace Layout

/-! ### Places -/

def columnsAt (l : Layout R) : Place → List (Column R)
  | .partitionKey => l.partitionKey.toList
  | .rowKey => l.rowKey.toList
  | .etag => l.etag.toList
  | .timestamp => l.timestamp.toList
  | .property => l.properties

def put (l : Layout R) (c : Column R) : Place → Layout R
  | .partitionKey => { l with partitionKey := some c }
  | .rowKey => { l with rowKey := some c }
  | .etag => { l with etag := some c }
  | .timestamp => { l with timestamp := some c }
  | .property => { l with properties := l.properties ++ [c] }

/-- There is room at a place: a system column is held once. -/
def IsFree (l : Layout R) (place : Place) : Prop := place ≠ .property → l.columnsAt place = []

@[simp] theorem type_put (l : Layout R) (c : Column R) (place : Place) :
    (l.put c place).type = l.type := by
  cases place <;> rfl

@[simp] theorem roles_put (l : Layout R) (c : Column R) (place : Place) :
    (l.put c place).roles = l.roles := by
  cases place <;> rfl

@[simp] theorem renames_put (l : Layout R) (c : Column R) (place : Place) :
    (l.put c place).renames = l.renames := by
  cases place <;> rfl

theorem columnsAt_put_self {l : Layout R} {place : Place} (h : l.IsFree place) (c : Column R) :
    (l.put c place).columnsAt place = l.columnsAt place ++ [c] := by
  cases place with
  | property => rfl
  | _ =>
    rw [h (by simp)]
    rfl

theorem columnsAt_put_of_ne {place q : Place} (h : place ≠ q) (l : Layout R) (c : Column R) :
    (l.put c place).columnsAt q = l.columnsAt q := by
  cases place <;> cases q <;> first | rfl | exact absurd rfl h

/-- The columns of a layout are one more when a column was put. -/
theorem columns_put {l : Layout R} {place : Place} (h : l.IsFree place) (c : Column R) :
    (l.put c place).columns.Perm (c :: l.columns) := by
  have hmiddle (before after : List (Column R)) :
      (before ++ c :: after).Perm (c :: (before ++ after)) := List.perm_middle
  unfold IsFree columnsAt at h
  cases place with
  | property =>
    simpa [columns, put] using hmiddle (l.partitionKey.toList ++ l.rowKey.toList ++ l.etag.toList ++
      l.timestamp.toList ++ l.properties) []
  | partitionKey => simp [columns, put, h]
  | rowKey => simp [columns, put, h]
  | etag =>
    simpa [columns, put, h] using hmiddle (l.partitionKey.toList ++ l.rowKey.toList)
      (l.timestamp.toList ++ l.properties)
  | timestamp =>
    simpa [columns, put, h] using hmiddle (l.partitionKey.toList ++ l.rowKey.toList ++
      l.etag.toList) l.properties

/-! ### Adding a field -/

theorem requireFree_eq_ok_iff {l : Layout R} {role : String} {held : Option (Column R)}
    {c : Column R} : l.requireFree role held c = .ok () ↔ held = none := by
  cases held <;> simp [requireFree]

theorem rename_eq_ok_iff {l l' : Layout R} {field column : String} :
    l.rename field column = .ok l' ↔
      ∃ renames, l.renames.note field column = .ok renames ∧ l' = { l with renames } := by
  unfold rename Renames.note
  split
  · constructor
    · intro h
      cases h
      exact ⟨_, rfl, rfl⟩
    · rintro ⟨_, h, rfl⟩
      cases h
      rfl
  · rw [bind_eq_ok_iff]
    exact exists_congr fun renames => and_congr_right fun _ => by rw [Except.ok.injEq, eq_comm]

/-- Fails if a place is a system column and taken. -/
def requirePlace (l : Layout R) (c : Column R) : Place → Except MappingError Unit
  | .partitionKey => l.requireFree SystemColumn.partitionKey l.partitionKey c
  | .rowKey => l.requireFree SystemColumn.rowKey l.rowKey c
  | .etag => l.requireFree SystemColumn.etag l.etag c
  | .timestamp => l.requireFree SystemColumn.timestamp l.timestamp c
  | .property => .ok ()

theorem requirePlace_eq_ok_iff {l : Layout R} {c : Column R} {place : Place} :
    l.requirePlace c place = .ok () ↔ l.IsFree place := by
  cases place with
  | property => simp [requirePlace, IsFree]
  | _ => simp [requirePlace, requireFree_eq_ok_iff, IsFree, columnsAt]

/-- Whatever the role, a field is installed by making its column, putting it at its place, and
noting its name. -/
theorem install_eq (l : Layout R) (format : PayloadFormat) (f : Field R) {role : Role}
    {place : Place} (h : role.place? = some place) :
    l.install format f role = (do
      let c ← Column.ofRole l.type.name format f role
      l.requirePlace c place
      (l.put c place).rename f.name (role.columnName f.name)) := by
  cases role with
  | ignored => cases h
  | partitionKey | rowKey | named | serialized =>
    cases h
    rfl
  | etag | timestamp =>
    cases h
    simp only [install, requireSlot, Column.ofRole, Column.ofSlot]
    split <;> rfl
  | regular =>
    cases h
    simp only [install, rename, Role.columnName, if_true]
    rfl

theorem install_ignored (l : Layout R) (format : PayloadFormat) (f : Field R) {role : Role}
    (h : role.place? = none) : l.install format f role = .ok l := by
  cases role with
  | ignored => rfl
  | _ => cases h

/-- What adding a field makes of a layout. An ignored field is only listed with its role; the column
of any other goes to a place with room for it, under a name that can be noted. -/
inductive Adds (s : Scheme) (f : Field R) (l : Layout R) : Layout R → Prop
  | ignored {role : Role} : s.role f = .ok role → role.place? = none →
      Adds s f l { l with roles := l.roles ++ [(f.name, role)] }
  | column {role : Role} {place : Place} {c : Column R} {renames : Renames} :
      s.role f = .ok role → role.place? = some place →
      Column.ofRole s.typeName s.format f role = .ok c → l.IsFree place →
      l.renames.note f.name c.name = .ok renames →
      Adds s f l { l.put c place with renames, roles := l.roles ++ [(f.name, role)] }

theorem addField_eq_ok_iff {s : Scheme} {l l' : Layout R} {f : Field R}
    (hname : l.type.name = s.typeName) :
    l.addField s.mapping s.conventions s.format f = .ok l' ↔ Adds s f l l' := by
  rw [addField, bind_eq_ok_iff, hname]
  constructor
  · rintro ⟨role, hrole, h⟩
    obtain ⟨l₁, hinstall, h⟩ := bind_eq_ok_iff.1 h
    cases h
    cases hplace : role.place? with
    | none =>
      rw [install_ignored l s.format f hplace] at hinstall
      cases hinstall
      exact .ignored hrole hplace
    | some place =>
      rw [install_eq l s.format f hplace, hname] at hinstall
      obtain ⟨c, hc, hinstall⟩ := bind_eq_ok_iff.1 hinstall
      obtain ⟨_, hfree, hinstall⟩ := bind_eq_ok_iff.1 hinstall
      obtain ⟨renames, hnote, rfl⟩ := rename_eq_ok_iff.1 hinstall
      rw [← (Column.names_of_ofRole hc).2] at hnote
      have hadds := Adds.column hrole hplace hc (requirePlace_eq_ok_iff.1 hfree)
        (by rwa [renames_put] at hnote)
      rwa [← roles_put l c place] at hadds
  · intro hadds
    cases hadds with
    | @ignored role hrole hplace =>
      exact ⟨role, hrole, by rw [install_ignored l s.format f hplace, ok_bind]⟩
    | @column role place c renames hrole hplace hc hfree hnote =>
      refine ⟨role, hrole, ?_⟩
      rw [← renames_put l c place, (Column.names_of_ofRole hc).2] at hnote
      rw [install_eq l s.format f hplace, hname, hc, ok_bind, requirePlace_eq_ok_iff.2 hfree, ok_bind,
        rename_eq_ok_iff.2 ⟨renames, hnote, rfl⟩, ok_bind, ← roles_put l c place]

theorem type_of_adds {s : Scheme} {f : Field R} {l l' : Layout R} (h : Adds s f l l') :
    l'.type = l.type := by
  cases h with
  | ignored => rfl
  | column => exact type_put l _ _

/-! ### The layout of all fields -/

section Build

variable {config : LayoutConfig} {mapping : Option Renames} {type : RecordType R} {l : Layout R}

/-- What holds of the layout of no fields, and is kept by each field that is added, holds of a layout
that was built. -/
theorem build_induction {motive : List (Field R) → Layout R → Prop}
    (h : build config mapping type = .ok l) (start : motive [] (start type))
    (step : ∀ fields l f l', motive fields l → Adds (.of config mapping type) f l l' →
      motive (fields ++ [f]) l') : motive type.fields l := by
  have hrun (rest : List (Field R)) : ∀ fields l₀, l₀.type = type → motive fields l₀ →
      rest.foldlM (addField mapping (usesConventions config mapping type) config.format) l₀ = .ok l →
      motive (fields ++ rest) l := by
    induction rest with
    | nil =>
      intro fields l₀ _ hfields hl
      cases hl
      rwa [List.append_nil]
    | cons f rest ih =>
      intro fields l₀ htype hfields hl
      rw [List.foldlM_cons] at hl
      obtain ⟨l₁, hadd, hl⟩ := bind_eq_ok_iff.1 hl
      have hadds : Adds (.of config mapping type) f l₀ l₁ :=
        (addField_eq_ok_iff (congrArg RecordType.name htype)).1 hadd
      have hrest := ih _ l₁ ((type_of_adds hadds).trans htype) (step fields l₀ f l₁ hfields hadds) hl
      rwa [List.append_assoc] at hrest
  obtain ⟨l₁, hfold, h⟩ := bind_eq_ok_iff.1 h
  split at h
  · cases h
  · cases h
    exact hrun type.fields [] _ rfl start hfold

theorem type_of_build (h : build config mapping type = .ok l) : l.type = type :=
  build_induction (motive := fun _ l => l.type = type) h rfl fun _ _ _ _ htype hadds =>
    (type_of_adds hadds).trans htype

/-- A layout that covers a list of fields: each field has its column, if its role is kept, and at
each place stand the columns of the fields of that place. -/
structure Covers (s : Scheme) (fields : List (Field R)) (l : Layout R) : Prop where
  column : ∀ f ∈ fields, ∃ c, s.column? f = .ok c
  columnsAt_eq : ∀ place, l.columnsAt place = fields.filterMap (s.columnAt? place)

theorem Covers.adds {s : Scheme} {fields : List (Field R)} {f : Field R} {l l' : Layout R}
    (h : Covers s fields l) (hadds : Adds s f l l') : Covers s (fields ++ [f]) l' := by
  have hcolumn (hf : ∃ c, s.column? f = .ok c) : ∀ g ∈ fields ++ [f], ∃ c, s.column? g = .ok c := by
    intro g hg
    rcases List.mem_append.1 hg with hg | hg
    · exact h.column g hg
    · exact List.mem_singleton.1 hg ▸ hf
  cases hadds with
  | ignored hrole hplace =>
    have hf := Scheme.column?_eq_ok_none hrole hplace
    refine ⟨hcolumn ⟨none, hf⟩, fun q => ?_⟩
    have hnone : s.columnAt? q f = none := by rw [Scheme.columnAt?, hf]
    rw [List.filterMap_append, List.filterMap_cons_none hnone, List.filterMap_nil, List.append_nil,
      ← h.columnsAt_eq]
    cases q <;> rfl
  | @column role place c renames hrole hplace hc hfree hnote =>
    have hf : s.column? f = .ok (some (place, c)) :=
      Scheme.column?_eq_ok_some_iff.2 ⟨role, hrole, hplace, hc⟩
    refine ⟨hcolumn ⟨_, hf⟩, fun q => ?_⟩
    have hput : columnsAt { l.put c place with
        renames, roles := l.roles ++ [(f.name, role)] } q = (l.put c place).columnsAt q := by
      cases q <;> rfl
    rw [hput, List.filterMap_append, ← h.columnsAt_eq]
    by_cases hq : place = q
    · subst hq
      have hsome := Scheme.columnAt?_eq_some_iff.2 hf
      rw [columnsAt_put_self hfree, List.filterMap_cons_some hsome, List.filterMap_nil]
    · have hnone : s.columnAt? q f = none := by
        rw [Scheme.columnAt?, hf]
        exact if_neg hq
      rw [columnsAt_put_of_ne hq, List.filterMap_cons_none hnone, List.filterMap_nil, List.append_nil]

theorem covers_build (h : build config mapping type = .ok l) :
    Covers (.of config mapping type) type.fields l :=
  build_induction h ⟨by simp, fun place => by cases place <;> rfl⟩ fun _ _ _ _ hcovers =>
    hcovers.adds

end Build

end Layout

end TableClient
