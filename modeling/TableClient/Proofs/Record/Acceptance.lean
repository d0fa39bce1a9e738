import TableClient.Proofs.Record.Roles

/-! Record types that have a layout. Building goes over the fields in their order and refuses one by what
those before it have left behind, but the verdict is one on the fields alone, one by one and two by
two: each has its column, no two have one system column or are both renamed to one key column, and one
of them is a key. The renames of a layout are those of its columns, each once. -/

namespace TableClient

variable {R : Type}

/-! ### Fields that go together -/

namespace Scheme

/-- A field alone has its column, and no empty name if the column has another name than the field. -/
def Admits (s : Scheme) (f : Field R) : Prop :=
  ∃ kept, s.column? f = .ok kept ∧
    ∀ w ∈ kept, w.2.field ≠ w.2.name → w.2.field ≠ "" ∧ w.2.name ≠ ""

/-- Two fields do not have one system column, and are not both renamed to one key column. -/
def Compatible (s : Scheme) (f g : Field R) : Prop :=
  ∀ v w, s.column? f = .ok (some v) → s.column? g = .ok (some w) →
    (v.1 = w.1 → v.1 = .property) ∧ Layout.Apart v.2 w.2

/-- The column of a field is one of the two keys. -/
def KeepsKey (s : Scheme) (f : Field R) : Prop :=
  ∃ place c, (place = .partitionKey ∨ place = .rowKey) ∧ s.column? f = .ok (some (place, c))

/-- Fields of which a layout can be built. -/
structure Accepts (s : Scheme) (fields : List (Field R)) : Prop where
  admits : ∀ f ∈ fields, s.Admits f
  compatible : fields.Pairwise s.Compatible
  key : ∃ f ∈ fields, s.KeepsKey f

theorem Compatible.symm {s : Scheme} {f g : Field R} (h : s.Compatible f g) : s.Compatible g f :=
  fun v w hv hw => ⟨fun hsame => hsame ▸ (h w v hw hv).1 hsame.symm, (h w v hw hv).2.symm⟩

theorem Accepts.perm {s : Scheme} {fields others : List (Field R)} (h : s.Accepts fields)
    (hperm : fields.Perm others) : s.Accepts others where
  admits f hf := h.admits f (hperm.mem_iff.2 hf)
  compatible := (hperm.pairwise_iff Compatible.symm).1 h.compatible
  key := by
    obtain ⟨f, hf, hkey⟩ := h.key
    exact ⟨f, hperm.mem_iff.1 hf, hkey⟩

end Scheme

namespace Layout

/-! ### The table of renames -/

/-- The columns that do not have the names of their fields, as entries of a table of renames. -/
def renamedPairs (columns : List (Column R)) : List (String × String) :=
  (columns.map fun c => (c.field, c.name)).filter fun p => p.1 ≠ p.2

theorem mem_renamedPairs_iff {columns : List (Column R)} {p : String × String} :
    p ∈ renamedPairs columns ↔ ∃ c ∈ columns, c.field ≠ c.name ∧ (c.field, c.name) = p := by
  rw [renamedPairs, List.mem_filter, List.mem_map]
  constructor
  · rintro ⟨⟨c, hc, rfl⟩, hne⟩
    exact ⟨c, hc, by simpa using hne, rfl⟩
  · rintro ⟨c, hc, hne, rfl⟩
    exact ⟨⟨c, hc, rfl⟩, by simpa using hne⟩

/-- The renames of a layout are those of its columns, each once. -/
structure Tabled (l : Layout R) : Prop where
  sorted : Keyed.Sorted l.renames.table
  perm : l.renames.table.Perm (renamedPairs l.columns)

theorem tabled_start (type : RecordType R) : (start type).Tabled :=
  ⟨Keyed.sorted_nil, .refl _⟩

theorem covers_start (s : Scheme) (type : RecordType R) : Covers s [] (start type) :=
  ⟨nofun, fun place => by cases place <;> rfl⟩

theorem Tabled.names_subset {l : Layout R} (h : l.Tabled) {name : String}
    (hname : name ∈ Keyed.names l.renames.table) : name ∈ l.columns.map Column.field := by
  obtain ⟨p, hp, rfl⟩ := List.mem_map.1 hname
  obtain ⟨c, hc, -, rfl⟩ := mem_renamedPairs_iff.1 (h.perm.mem_iff.1 hp)
  exact List.mem_map_of_mem hc

theorem Tabled.adds {l l' : Layout R} (h : l.Tabled) {s : Scheme} {f : Field R}
    (hfresh : f.name ∉ l.columns.map Column.field) (hadds : Adds s f l l') : l'.Tabled := by
  cases hadds with
  | ignored => exact ⟨h.sorted, h.perm⟩
  | @column role place c renames _ _ hc hfree hnote =>
    have hfield : c.field = f.name := (Column.names_of_ofRole hc).1
    have hperm : (columns { l.put c place with
        renames, roles := l.roles ++ [(f.name, role)] }).Perm (c :: l.columns) := columns_put hfree c
    have hpairs := (hperm.map fun c => (c.field, c.name)).filter fun p => p.1 ≠ p.2
    rw [List.map_cons, hfield] at hpairs
    by_cases hsame : f.name = c.name
    · rw [Renames.note, if_pos hsame] at hnote
      cases hnote
      rw [List.filter_cons_of_neg (by simpa using hsame)] at hpairs
      exact ⟨h.sorted, h.perm.trans hpairs.symm⟩
    · rw [Renames.note, if_neg hsame] at hnote
      obtain ⟨-, -, -, rfl⟩ := Renames.insert_eq_ok_iff.1 hnote
      rw [List.filter_cons_of_pos (by simpa using hsame)] at hpairs
      have hnew : f.name ∉ Keyed.names l.renames.table := mt h.names_subset hfresh
      exact ⟨h.sorted.insert _ _,
        (Keyed.perm_insert hnew).trans ((h.perm.cons _).trans hpairs.symm)⟩

/-- Some field holds a key column only if it is renamed to it. -/
theorem Tabled.exists_of_fieldFor? {l : Layout R} (h : l.Tabled) {column holder : String}
    (hholder : l.renames.fieldFor? column = some holder) :
    ∃ c ∈ l.columns, c.field = holder ∧ c.name = column ∧ c.field ≠ c.name := by
  obtain ⟨p, hp, rfl⟩ := Option.map_eq_some_iff.1 hholder
  obtain ⟨c, hc, hne, rfl⟩ :=
    mem_renamedPairs_iff.1 (h.perm.mem_iff.1 (List.mem_of_find?_eq_some hp))
  exact ⟨c, hc, rfl, by simpa using List.find?_some hp, hne⟩

theorem Tabled.get?_eq {l : Layout R} (h : l.Tabled) {c : Column R} (hc : c ∈ l.columns)
    (hne : c.field ≠ c.name) : l.renames.get? c.field = some c.name := by
  have honce := List.nodup_iff_count_le_one.1 h.sorted.nodup_names c.field
  rw [Renames.get?, Keyed.find?_eq_some_iff honce, h.perm.mem_iff]
  exact mem_renamedPairs_iff.2 ⟨c, hc, hne, rfl⟩

/-! ### Adding a field to those before it -/

theorem Covers.exists_column {s : Scheme} {fields : List (Field R)} {l : Layout R}
    (h : Covers s fields l) {c : Column R} (hc : c ∈ l.columns) :
    ∃ f ∈ fields, ∃ place, c ∈ l.columnsAt place ∧ s.column? f = .ok (some (place, c)) ∧
      c.field = f.name := by
  obtain ⟨place, hplaced⟩ := mem_columns_iff.1 hc
  obtain ⟨f, hf, hcolumn⟩ := h.exists_field hplaced
  obtain ⟨role, -, -, hrole⟩ := Scheme.column?_eq_ok_some_iff.1 hcolumn
  exact ⟨f, hf, place, mem_placed_iff.1 hplaced, hcolumn, (Column.names_of_ofRole hrole).1⟩

section Step

variable {s : Scheme} {fields : List (Field R)} {l l' : Layout R} {f : Field R}

theorem Covers.not_mem_fields (h : Covers s fields l) (hfresh : f.name ∉ fields.map Field.name) :
    f.name ∉ l.columns.map Column.field := by
  intro hmem
  obtain ⟨c, hc, hname⟩ := List.mem_map.1 hmem
  obtain ⟨g, hg, -, -, -, hfield⟩ := h.exists_column hc
  exact hfresh (List.mem_map.2 ⟨g, hg, hfield.symm.trans hname⟩)

/-- A field that goes together with those before it can be added to their layout. -/
theorem exists_adds (hcovers : Covers s fields l) (htabled : l.Tabled) (hadmits : s.Admits f)
    (hcompatible : ∀ g ∈ fields, s.Compatible g f) : ∃ l', Adds s f l l' := by
  obtain ⟨kept, hcolumn, hnames⟩ := hadmits
  cases kept with
  | none =>
    have hignored := Scheme.ignored_of_column? hcolumn
    exact ⟨_, .ignored hignored rfl⟩
  | some w =>
    obtain ⟨place, c⟩ := w
    obtain ⟨role, hrole, hplace, hc⟩ := Scheme.column?_eq_ok_some_iff.1 hcolumn
    have hfree : l.IsFree place := by
      intro hsystem
      refine List.eq_nil_iff_forall_not_mem.2 fun d hd => hsystem ?_
      have hplaced : (place, d) ∈ l.placed := mem_placed_iff.2 hd
      obtain ⟨g, hg, hother⟩ := hcovers.exists_field hplaced
      exact (hcompatible g hg _ _ hother hcolumn).1 rfl
    have hnote : ∃ renames, l.renames.note f.name c.name = .ok renames := by
      rw [← (Column.names_of_ofRole hc).1]
      by_cases hsame : c.field = c.name
      · exact ⟨_, if_pos hsame⟩
      · obtain ⟨hfield, hname⟩ := hnames (place, c) rfl hsame
        refine ⟨_, (if_neg hsame).trans (Renames.insert_eq_ok_iff.2 ⟨hfield, hname, ?_, rfl⟩)⟩
        -- whoever holds the key column would be renamed to it as well
        intro hkey holder hholder
        obtain ⟨d, hd, -, hshared, hrenamed⟩ := htabled.exists_of_fieldFor? hholder
        obtain ⟨g, hg, q, -, hother, -⟩ := hcovers.exists_column hd
        rcases (hcompatible g hg _ _ hother hcolumn).2 hshared (hshared ▸ hkey) with h | h
        · exact absurd h hrenamed
        · exact absurd h hsame
    obtain ⟨renames, hnote⟩ := hnote
    exact ⟨_, .column hrole hplace hc hfree hnote⟩

theorem admits_of_adds (hadds : Adds s f l l') : s.Admits f := by
  cases hadds with
  | ignored hrole hplace => exact ⟨none, Scheme.column?_eq_ok_none hrole hplace, nofun⟩
  | @column role place c renames hrole hplace hc hfree hnote =>
    refine ⟨some (place, c), Scheme.column?_eq_ok_some_iff.2 ⟨role, hrole, hplace, hc⟩, ?_⟩
    rintro _ ⟨⟩ hne
    rw [← (Column.names_of_ofRole hc).1, Renames.note, if_neg hne] at hnote
    obtain ⟨hfield, hname, -⟩ := Renames.insert_eq_ok_iff.1 hnote
    exact ⟨hfield, hname⟩

theorem compatible_of_adds (hcovers : Covers s fields l) (htabled : l.Tabled)
    (hfresh : f.name ∉ fields.map Field.name) (hadds : Adds s f l l') :
    ∀ g ∈ fields, s.Compatible g f := by
  intro g hg v w hv hw
  have hplaced := hcovers.mem_placed hg hv
  cases hadds with
  | ignored hrole hplace =>
    rw [Scheme.column?_eq_ok_none hrole hplace] at hw
    cases hw
  | @column role place c renames hrole hplace hc hfree hnote =>
    rw [Scheme.column?_eq_ok_some_iff.2 ⟨role, hrole, hplace, hc⟩] at hw
    cases hw
    refine ⟨fun hsame => ?_, fun hshared hkey => ?_⟩
    · by_contra hsystem
      have hempty := hfree fun hproperty => hsystem (hsame.trans hproperty)
      have hheld := mem_placed_iff.1 hplaced
      rw [hsame, hempty] at hheld
      cases hheld
    · by_contra hneither
      obtain ⟨hold, hnew⟩ := not_or.1 hneither
      have hfield : c.field = f.name := (Column.names_of_ofRole hc).1
      have hin : v.2 ∈ l.columns := mem_columns_iff.2 ⟨v.1, hplaced⟩
      have hholds := htabled.get?_eq hin hold
      rw [hshared] at hholds hkey
      have hmem := Renames.mem_names_of_note hnote (hfield ▸ hnew) hkey hholds
      exact hcovers.not_mem_fields hfresh (htabled.names_subset hmem)

end Step

/-! ### Types that have a layout -/

section Build

variable {config : LayoutConfig} {mapping : Option Renames} {type : RecordType R}

/-- Fields that go together have a layout before it is asked for a key. -/
theorem exists_foldlM_addField {s : Scheme} (rest : List (Field R)) :
    ∀ {fields : List (Field R)} {l : Layout R}, l.type.name = s.typeName → Covers s fields l →
      l.Tabled → ((fields ++ rest).map Field.name).Nodup → (∀ f ∈ rest, s.Admits f) →
      (fields ++ rest).Pairwise s.Compatible →
      ∃ l', rest.foldlM (addField s.mapping s.conventions s.format) l = .ok l' ∧
        Covers s (fields ++ rest) l' := by
  induction rest with
  | nil =>
    intro fields l _ hcovers _ _ _ _
    exact ⟨l, rfl, by rwa [List.append_nil]⟩
  | cons f rest ih =>
    intro fields l htype hcovers htabled hnames hadmits hpairs
    rw [← List.singleton_append, ← List.append_assoc] at hnames hpairs
    have hbefore := List.pairwise_append.1 (List.pairwise_append.1 hpairs).1
    obtain ⟨l₁, hadds⟩ := exists_adds hcovers htabled (hadmits f List.mem_cons_self)
      fun g hg => hbefore.2.2 g hg f (List.mem_singleton_self f)
    have hfresh : f.name ∉ fields.map Field.name := by
      rw [List.map_append, List.map_append, List.map_singleton] at hnames
      intro hmem
      exact (List.nodup_append.1 (List.nodup_append.1 hnames).1).2.2 _ hmem _
        (List.mem_singleton_self _) rfl
    obtain ⟨l', hrun, hall⟩ := ih ((congrArg RecordType.name (type_of_adds hadds)).trans htype)
      (hcovers.adds hadds) (htabled.adds (hcovers.not_mem_fields hfresh) hadds) hnames
      (fun g hg => hadmits g (List.mem_cons_of_mem f hg)) hpairs
    refine ⟨l', ?_, by rwa [List.append_assoc] at hall⟩
    rw [List.foldlM_cons, (addField_eq_ok_iff htype).2 hadds, ok_bind, hrun]

/-- A column of a key is what a layout is asked for at the end. -/
theorem keepsKey_iff {s : Scheme} {fields : List (Field R)} {l : Layout R} (h : Covers s fields l) :
    (∃ f ∈ fields, s.KeepsKey f) ↔ l.partitionKey.isSome ∨ l.rowKey.isSome := by
  constructor
  · rintro ⟨f, hf, place, c, hplace, hcolumn⟩
    have hheld := mem_placed_iff.1 (h.mem_placed hf hcolumn)
    rcases hplace with rfl | rfl
    · exact .inl (Option.isSome_iff_exists.2 ⟨c, Option.mem_toList.1 hheld⟩)
    · exact .inr (Option.isSome_iff_exists.2 ⟨c, Option.mem_toList.1 hheld⟩)
  · rintro (hkey | hkey)
    · obtain ⟨c, hc⟩ := Option.isSome_iff_exists.1 hkey
      have hplaced : (Place.partitionKey, c) ∈ l.placed :=
        mem_placed_iff.2 (Option.mem_toList.2 hc)
      obtain ⟨f, hf, hcolumn⟩ := h.exists_field hplaced
      exact ⟨f, hf, .partitionKey, c, .inl rfl, hcolumn⟩
    · obtain ⟨c, hc⟩ := Option.isSome_iff_exists.1 hkey
      have hplaced : (Place.rowKey, c) ∈ l.placed := mem_placed_iff.2 (Option.mem_toList.2 hc)
      obtain ⟨f, hf, hcolumn⟩ := h.exists_field hplaced
      exact ⟨f, hf, .rowKey, c, .inr rfl, hcolumn⟩

/-- What building leaves behind fits the fields that were added, and these fit together. -/
structure Coherent (s : Scheme) (fields : List (Field R)) (l : Layout R) : Prop where
  covers : Covers s fields l
  tabled : l.Tabled
  admits : ∀ f ∈ fields, s.Admits f
  compatible : fields.Pairwise s.Compatible

theorem Coherent.adds {s : Scheme} {fields : List (Field R)} {f : Field R} {l l' : Layout R}
    (h : Coherent s fields l) (hfresh : f.name ∉ fields.map Field.name) (hadds : Adds s f l l') :
    Coherent s (fields ++ [f]) l' where
  covers := h.covers.adds hadds
  tabled := h.tabled.adds (h.covers.not_mem_fields hfresh) hadds
  admits := List.forall_mem_append.2 ⟨h.admits, List.forall_mem_singleton.2 (admits_of_adds hadds)⟩
  compatible := List.pairwise_append.2 ⟨h.compatible, List.pairwise_singleton _ _, fun g hg _ hf' =>
    List.mem_singleton.1 hf' ▸ compatible_of_adds h.covers h.tabled hfresh hadds g hg⟩

theorem coherent_build {l : Layout R} (hnames : (type.fields.map Field.name).Nodup)
    (h : build config mapping type = .ok l) : Coherent (.of config mapping type) type.fields l := by
  refine build_induction (motive := fun fields l => (fields.map Field.name).Nodup →
    Coherent (.of config mapping type) fields l) h (fun _ => ?_) ?_ hnames
  · exact ⟨covers_start _ type, tabled_start type, nofun, .nil⟩
  · intro fields l f l' hbefore hadds hnodup
    rw [List.map_append, List.map_singleton, List.nodup_append] at hnodup
    refine (hbefore hnodup.1).adds (fun hmem => ?_) hadds
    exact hnodup.2.2 f.name hmem f.name (List.mem_singleton_self _) rfl

/-- A type has a layout exactly if its fields go together and one of them is a key. -/
theorem exists_build_iff (hnames : (type.fields.map Field.name).Nodup) :
    (∃ l, build config mapping type = .ok l) ↔
      (Scheme.of config mapping type).Accepts type.fields := by
  constructor
  · rintro ⟨l, h⟩
    have hcoherent := coherent_build hnames h
    exact ⟨hcoherent.admits, hcoherent.compatible,
      (keepsKey_iff hcoherent.covers).2 (isSome_key_of_build h)⟩
  · intro haccepts
    obtain ⟨l, hrun, hcovers⟩ := exists_foldlM_addField (s := .of config mapping type) type.fields
      rfl (covers_start _ type) (tabled_start type) hnames haccepts.admits haccepts.compatible
    have hkey := (keepsKey_iff hcovers).1 haccepts.key
    have hheld : (l.partitionKey.isNone && l.rowKey.isNone) = false := by
      rw [Bool.and_eq_false_iff]
      exact hkey.imp (by simp [Option.isSome_iff_ne_none]) (by simp [Option.isSome_iff_ne_none])
    refine ⟨l, bind_eq_ok_iff.2 ⟨l, hrun, ?_⟩⟩
    rw [hheld, if_neg Bool.false_ne_true]

end Build

end Layout

end TableClient
