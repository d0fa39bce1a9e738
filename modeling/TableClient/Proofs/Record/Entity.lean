import Mathlib.Data.List.Nodup
import TableClient.Proofs.Keyed
import TableClient.Proofs.Record.Column
import TableClient.Proofs.Record.Layout

/-! The entity of a record. Its properties are written one after another under the names of their
columns, so a name is there once, with the property of the last column that has it. -/

namespace TableClient

variable {R : Type}

namespace Layout

def lastNamed? (name : String) (columns : List (Column R)) : Option (Column R) :=
  columns.reverse.find? (·.name = name)

theorem lastNamed?_append_singleton (name : String) (columns : List (Column R)) (c : Column R) :
    lastNamed? name (columns ++ [c]) =
      if c.name = name then some c else lastNamed? name columns := by
  simp only [lastNamed?, List.reverse_append, List.reverse_singleton, List.singleton_append,
    List.find?_cons]
  split <;> simp_all

theorem mem_of_lastNamed? {name : String} {columns : List (Column R)} {c : Column R}
    (h : lastNamed? name columns = some c) : c ∈ columns ∧ c.name = name :=
  ⟨List.mem_reverse.1 (List.mem_of_find?_eq_some h), by simpa using List.find?_some h⟩

theorem lastNamed?_isSome_iff {name : String} {columns : List (Column R)} :
    (lastNamed? name columns).isSome ↔ name ∈ columns.map Column.name := by
  simp [lastNamed?, List.find?_isSome]

/-- Where no two columns have one name, each is the last of its name. -/
theorem lastNamed?_of_nodup {columns : List (Column R)} (h : (columns.map Column.name).Nodup)
    {c : Column R} (hc : c ∈ columns) : lastNamed? c.name columns = some c := by
  have hsome : (lastNamed? c.name columns).isSome :=
    lastNamed?_isSome_iff.2 (List.mem_map_of_mem hc)
  obtain ⟨d, hd⟩ := Option.isSome_iff_exists.1 hsome
  obtain ⟨hmem, hname⟩ := mem_of_lastNamed? hd
  rw [hd, List.inj_on_of_nodup_map h hmem hc hname]

/-! ### Properties -/

/-- A table that has been written from the properties of a record, column by column. -/
structure Stores (r : R) (columns : List (Column R)) (table : List (String × Property)) : Prop where
  readable : ∀ c ∈ columns, ∃ p, c.read r = .ok p
  sorted : Keyed.Sorted table
  find?_eq : ∀ name, Keyed.find? name table =
    (lastNamed? name columns).bind fun c => (c.read r).toOption

theorem stores_nil (r : R) : Stores r [] [] := ⟨by simp, Keyed.sorted_nil, fun _ => rfl⟩

theorem Stores.insert {r : R} {columns : List (Column R)} {table : List (String × Property)}
    (h : Stores r columns table) {c : Column R} {p : Property} (hread : c.read r = .ok p) :
    Stores r (columns ++ [c]) (Keyed.insert c.name p table) where
  readable d hd := by
    rcases List.mem_append.1 hd with hd | hd
    · exact h.readable d hd
    · exact ⟨p, List.mem_singleton.1 hd ▸ hread⟩
  sorted := h.sorted.insert c.name p
  find?_eq name := by
    rw [Keyed.find?_insert, lastNamed?_append_singleton, h.find?_eq]
    split
    · rw [Option.bind_some, hread]
      rfl
    · rfl

/-- The names of the table are those of the columns. -/
theorem Stores.mem_names_iff {r : R} {columns : List (Column R)} {table : List (String × Property)}
    (h : Stores r columns table) {name : String} :
    name ∈ Keyed.names table ↔ name ∈ columns.map Column.name := by
  rw [← Keyed.find?_isSome_iff, ← lastNamed?_isSome_iff, h.find?_eq]
  cases hlast : lastNamed? name columns with
  | none => rfl
  | some c =>
    obtain ⟨p, hp⟩ := h.readable c (mem_of_lastNamed? hlast).1
    simp [hp, Except.toOption]

theorem Stores.find?_of_nodup {r : R} {columns : List (Column R)}
    {table : List (String × Property)} (h : Stores r columns table)
    (hnames : (columns.map Column.name).Nodup) {c : Column R} (hc : c ∈ columns) :
    ∃ p, c.read r = .ok p ∧ Keyed.find? c.name table = some p := by
  obtain ⟨p, hp⟩ := h.readable c hc
  refine ⟨p, hp, ?_⟩
  rw [h.find?_eq, lastNamed?_of_nodup hnames hc, Option.bind_some, hp]
  rfl

def addProperty (r : R) (e : Entity) (c : Column R) : Except MappingError Entity := do
  .ok (e.insert c.name (← c.read r))

theorem stores_of_foldlM {r : R} {rest : List (Column R)} {e e' : Entity}
    (h : rest.foldlM (addProperty r) e = .ok e') {columns : List (Column R)}
    (hstores : Stores r columns e.properties) :
    Stores r (columns ++ rest) e'.properties ∧ e' = { e with properties := e'.properties } := by
  induction rest generalizing e columns with
  | nil =>
    cases h
    exact ⟨by rwa [List.append_nil], rfl⟩
  | cons c rest ih =>
    rw [List.foldlM_cons] at h
    obtain ⟨e₁, hstep, h⟩ := bind_eq_ok_iff.1 h
    obtain ⟨p, hread, hstep⟩ := bind_eq_ok_iff.1 hstep
    cases hstep
    obtain ⟨hrest, hsame⟩ := ih h (hstores.insert hread)
    rw [List.append_assoc] at hrest
    exact ⟨hrest, hsame⟩

theorem exists_foldlM_addProperty {r : R} {columns : List (Column R)}
    (h : ∀ c ∈ columns, ∃ p, c.read r = .ok p) (e : Entity) :
    ∃ e', columns.foldlM (addProperty r) e = .ok e' := by
  induction columns generalizing e with
  | nil => exact ⟨e, rfl⟩
  | cons c rest ih =>
    obtain ⟨p, hp⟩ := h c List.mem_cons_self
    obtain ⟨e', he'⟩ := ih (fun d hd => h d (List.mem_cons_of_mem c hd)) (e.insert c.name p)
    refine ⟨e', ?_⟩
    rw [List.foldlM_cons, addProperty, hp, ok_bind, ok_bind, he']

/-! ### The whole entity -/

/-- An entity that has what a layout keeps of a record. -/
structure Represents (l : Layout R) (r : R) (e : Entity) : Prop where
  partitionKey : keyText l.partitionKey r = .ok e.partitionKey
  rowKey : keyText l.rowKey r = .ok e.rowKey
  etag : l.etagOf r = .ok e.etag
  timestamp : e.timestamp = none
  stores : Stores r l.properties e.properties

theorem represents_of_toEntity {l : Layout R} {r : R} {e : Entity} (h : l.toEntity r = .ok e) :
    l.Represents r e := by
  obtain ⟨partitionKey, hpartition, h⟩ := bind_eq_ok_iff.1 h
  obtain ⟨rowKey, hrow, h⟩ := bind_eq_ok_iff.1 h
  obtain ⟨etag, hetag, h⟩ := bind_eq_ok_iff.1 h
  obtain ⟨hstores, hsame⟩ := stores_of_foldlM h (stores_nil r)
  rw [hsame]
  exact ⟨hpartition, hrow, hetag, rfl, hstores⟩

/-- A record has an entity if its keys and its entity tag have texts and its columns can be read. -/
theorem exists_toEntity {l : Layout R} {r : R} (hpartition : ∃ text, keyText l.partitionKey r = .ok text)
    (hrow : ∃ text, keyText l.rowKey r = .ok text) (hetag : ∃ tag, l.etagOf r = .ok tag)
    (hproperties : ∀ c ∈ l.properties, ∃ p, c.read r = .ok p) : ∃ e, l.toEntity r = .ok e := by
  obtain ⟨partitionKey, hpartition⟩ := hpartition
  obtain ⟨rowKey, hrow⟩ := hrow
  obtain ⟨etag, hetag⟩ := hetag
  simp only [toEntity, hpartition, hrow, hetag, ok_bind]
  exact exists_foldlM_addProperty hproperties _

/-! ### Back to a record -/

/-- What an entity has for a column at a place. -/
def received (e : Entity) (c : Column R) : Place → Option Property
  | .partitionKey => some (.ofString e.partitionKey)
  | .rowKey => some (.ofString e.rowKey)
  | .etag => e.etag.map .ofString
  | .timestamp => e.timestamp.map .ofInstant
  | .property => e.property? c.name

def placed (l : Layout R) : List (Place × Column R) :=
  Place.all.flatMap fun place => (l.columnsAt place).map (place, ·)

theorem mem_placed_iff {l : Layout R} {w : Place × Column R} :
    w ∈ l.placed ↔ w.2 ∈ l.columnsAt w.1 := by
  have hall : w.1 ∈ Place.all := by cases w.1 <;> decide
  simp only [placed, List.mem_flatMap, List.mem_map]
  constructor
  · rintro ⟨place, -, c, hc, rfl⟩
    exact hc
  · intro hw
    exact ⟨w.1, hall, w.2, hw, rfl⟩

theorem keyText_of_read {r : R} {c : Column R} {text : String} (h : c.read r = .ok (.ofString text)) :
    keyText (some c) r = .ok text := by
  rw [keyText, h]
  rfl

section Received

variable {l : Layout R} {r : R} {e : Entity} {c : Column R} {p : Property}

/-- The entity of a record has for a key the text that the column reads off the record. -/
theorem Represents.received_key (h : l.Represents r e) {place : Place}
    (hkey : place = .partitionKey ∨ place = .rowKey) (hc : c ∈ l.columnsAt place) {text : String}
    (hread : c.read r = .ok (.ofString text)) : received e c place = some (.ofString text) := by
  rcases hkey with rfl | rfl
  · have hsent := h.partitionKey
    rw [Option.mem_toList.1 hc, keyText_of_read hread] at hsent
    rw [received, ← Except.ok.inj hsent]
  · have hsent := h.rowKey
    rw [Option.mem_toList.1 hc, keyText_of_read hread] at hsent
    rw [received, ← Except.ok.inj hsent]

/-- A tag that is null is left out. -/
theorem Represents.received_etag (h : l.Represents r e) (hc : c ∈ l.columnsAt .etag)
    (hread : c.read r = .ok p) (hstring : p.slot = .string) :
    (received e c .etag).elim .null Property.value = p.value := by
  have hsent := h.etag
  rw [etagOf, Option.mem_toList.1 hc] at hsent
  simp only [hread, ok_bind, Except.ok.injEq] at hsent
  rw [received, ← hsent]
  exact Property.elim_string? hstring

theorem Represents.received_property (h : l.Represents r e)
    (hnames : (l.properties.map Column.name).Nodup) (hc : c ∈ l.properties)
    (hread : c.read r = .ok p) : received e c .property = some p := by
  obtain ⟨q, hq, hfind⟩ := h.stores.find?_of_nodup hnames hc
  obtain rfl := Except.ok.inj (hread.symm.trans hq)
  exact hfind

end Received

theorem Covers.exists_field {s : Scheme} {fields : List (Field R)} {l : Layout R}
    (h : Covers s fields l) {w : Place × Column R} (hw : w ∈ l.placed) :
    ∃ f ∈ fields, s.column? f = .ok (some w) := by
  rw [mem_placed_iff, h.columnsAt_eq, List.mem_filterMap] at hw
  obtain ⟨f, hf, hc⟩ := hw
  exact ⟨f, hf, Scheme.columnAt?_eq_some_iff.1 hc⟩

theorem Covers.mem_placed {s : Scheme} {fields : List (Field R)} {l : Layout R}
    (h : Covers s fields l) {w : Place × Column R} {f : Field R} (hf : f ∈ fields)
    (hw : s.column? f = .ok (some w)) : w ∈ l.placed := by
  rw [mem_placed_iff, h.columnsAt_eq, List.mem_filterMap]
  exact ⟨f, hf, Scheme.columnAt?_eq_some_iff.2 hw⟩

def writeFrom (e : Entity) (r : R) (w : Place × Column R) : Except MappingError R :=
  w.2.write r (received e w.2 w.1)

theorem writeTo_eq (e : Entity) (place : Place) (p : Option Property)
    (hp : ∀ c : Column R, received e c place = p) (held : Option (Column R)) (r : R) :
    writeTo held p r = (held.toList.map (place, ·)).foldlM (writeFrom e) r := by
  cases held with
  | none => rfl
  | some c => simp [writeTo, writeFrom, hp]

/-- The record of an entity is the blank one after all columns have been written, one by one. -/
theorem fromEntity_eq (l : Layout R) (e : Entity) :
    l.fromEntity e = l.placed.foldlM (writeFrom e) l.type.blank := by
  have hproperties (r : R) : l.properties.foldlM (fun r c => c.write r (e.property? c.name)) r =
      (l.properties.map (Place.property, ·)).foldlM (writeFrom e) r := by
    rw [List.foldlM_map]
    rfl
  simp only [fromEntity, placed, Place.all, List.flatMap_cons, List.flatMap_nil, List.append_nil,
    List.foldlM_append, columnsAt, hproperties,
    writeTo_eq e .partitionKey (some (.ofString e.partitionKey)) fun _ => rfl,
    writeTo_eq e .rowKey (some (.ofString e.rowKey)) fun _ => rfl,
    writeTo_eq e .etag (e.etag.map .ofString) fun _ => rfl,
    writeTo_eq e .timestamp (e.timestamp.map .ofInstant) fun _ => rfl]

end Layout

end TableClient
