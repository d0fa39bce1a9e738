import TableClient.Proofs.Record.Rows

/-! Roles, columns and renames of a layout. The three are kept apart from each other while the fields are
added one after another, and still say the same: every field is listed with its role, has one column
unless it is ignored, and is renamed to that column and to no other. A query that goes by the renames
therefore asks for the columns that the fields are kept in. -/

namespace TableClient

variable {R : Type}

/-- The roles that stand for a column of the store itself. -/
def Role.system : List Role := [.partitionKey, .rowKey, .etag, .timestamp]

/-- The name that a marker, or without one a registered name, chooses for the column of a field. -/
def Field.chosenName? (mapping : Option Renames) (f : Field R) : Option String :=
  match f.markers with
  | [.named column] | [.serialized column] => some column
  | [] => mapping.bind (·.get? f.name)
  | _ => none

theorem Role.columnName_ofRegistered (field column : String) :
    (ofRegistered column).columnName field = column := by
  unfold ofRegistered
  split
  next h => exact h.symm
  next =>
    split
    next h => exact h.symm
    next => rfl

/-- A chosen name is the name of the column. -/
theorem Scheme.columnName_of_chosenName? {s : Scheme} {f : Field R} {role : Role}
    (h : s.role f = .ok role) {column : String} (hchosen : f.chosenName? s.mapping = some column) :
    role.columnName f.name = column := by
  unfold Scheme.role Role.ofField at h
  unfold Field.chosenName? at hchosen
  split at h
  next hmarkers =>
    cases h
    simp only [hmarkers] at hchosen
    rw [Role.ofName, hchosen]
    exact Role.columnName_ofRegistered f.name column
  next marker hmarkers =>
    cases h
    simp only [hmarkers] at hchosen
    cases marker <;> cases hchosen <;> rfl
  next => cases h

theorem Role.place?_eq_none_iff {role : Role} : role.place? = none ↔ role = .ignored := by
  cases role <;> simp [place?]

/-- A system role has a place of its own. -/
theorem Role.eq_of_place? {role other : Role} (hsystem : role ∈ system) {place : Place}
    (hrole : role.place? = some place) (hother : other.place? = some place) : other = role := by
  simp only [system, List.mem_cons, List.not_mem_nil, or_false] at hsystem
  rcases hsystem with rfl | rfl | rfl | rfl <;> cases hrole <;> cases other <;> cases hother <;> rfl

namespace Layout

/-- What a layout says of a list of fields: each is listed with its role, those that are not ignored have
the columns, and a system role is listed as often as its place is taken. -/
structure Assigned (s : Scheme) (fields : List (Field R)) (l : Layout R) : Prop where
  listed : List.Forall₂ (fun f entry => entry.1 = f.name ∧ s.role f = .ok entry.2) fields l.roles
  kept : (l.columns.map Column.field).Perm ((l.roles.filter (·.2 ≠ .ignored)).map Prod.fst)
  taken : ∀ role ∈ Role.system, ∀ place, role.place? = some place →
    (l.roles.map Prod.snd).count role = (l.columnsAt place).length

variable {s : Scheme} {fields : List (Field R)} {l l' : Layout R} {f : Field R}

theorem Assigned.adds (h : Assigned s fields l) (hadds : Adds s f l l') :
    Assigned s (fields ++ [f]) l' := by
  have hlisted {role : Role} (hrole : s.role f = .ok role) :
      List.Forall₂ (fun f entry => entry.1 = f.name ∧ s.role f = .ok entry.2) (fields ++ [f])
        (l.roles ++ [(f.name, role)]) :=
    List.rel_append h.listed (.cons ⟨rfl, hrole⟩ .nil)
  cases hadds with
  | @ignored role hrole hplace =>
    obtain rfl := Role.place?_eq_none_iff.1 hplace
    refine ⟨hlisted hrole, ?_, fun role hsystem place hp => ?_⟩
    · rw [List.filter_append, List.filter_cons_of_neg (by simp), List.filter_nil, List.append_nil]
      exact h.kept
    · have hne : Role.ignored ≠ role := by
        rintro rfl
        cases hp
      rw [List.map_append, List.count_append, List.map_singleton, List.count_singleton,
        if_neg (by simpa using hne), h.taken role hsystem place hp]
      cases place <;> rfl
  | @column role place c renames hrole hplace hc hfree hnote =>
    have hkept : role ≠ .ignored := by
      rintro rfl
      cases hplace
    refine ⟨hlisted hrole, ?_, fun other hsystem q hq => ?_⟩
    · have hperm : (columns { l.put c place with
          renames, roles := l.roles ++ [(f.name, role)] }).Perm (c :: l.columns) := columns_put hfree c
      rw [List.filter_append, List.filter_cons_of_pos (by simpa using hkept), List.filter_nil,
        List.map_append, List.map_singleton]
      refine (hperm.map Column.field).trans ?_
      rw [List.map_cons, (Column.names_of_ofRole hc).1]
      exact (h.kept.cons f.name).trans (List.perm_append_singleton _ _).symm
    · have hput : columnsAt { l.put c place with
          renames, roles := l.roles ++ [(f.name, role)] } q = (l.put c place).columnsAt q := by
        cases q <;> rfl
      rw [hput, List.map_append, List.count_append, h.taken other hsystem q hq, List.map_singleton]
      by_cases hsame : place = q
      · subst hsame
        rw [Role.eq_of_place? hsystem hq hplace, columnsAt_put_self hfree, List.length_append]
        simp
      · have hne : role ≠ other := by
          rintro rfl
          exact hsame (Option.some_inj.1 (hplace.symm.trans hq))
        rw [columnsAt_put_of_ne hsame, List.count_singleton, if_neg (by simpa using hne)]
        rfl

/-- The fields are listed by their names. -/
theorem Assigned.names_roles (h : Assigned s fields l) :
    l.roles.map Prod.fst = fields.map Field.name := by
  have hsame : List.Forall₂ (· = ·) (fields.map Field.name) (l.roles.map Prod.fst) :=
    List.forall₂_map_left_iff.2 (List.forall₂_map_right_iff.2 (h.listed.imp fun _ _ hf => hf.1.symm))
  exact (List.forall₂_eq_eq_eq ▸ hsame : _ = _).symm

theorem Assigned.exists_role (h : Assigned s fields l) (hf : f ∈ fields) :
    ∃ role, s.role f = .ok role ∧ (f.name, role) ∈ l.roles := by
  have hlisted := h.listed
  clear h
  generalize l.roles = entries at hlisted ⊢
  induction hlisted with
  | nil => cases hf
  | @cons g entry rest entries hhead _ ih =>
    rcases List.mem_cons.1 hf with rfl | hf
    · exact ⟨entry.2, hhead.2, by rw [← hhead.1]; exact List.mem_cons_self⟩
    · obtain ⟨role, hrole, hmem⟩ := ih hf
      exact ⟨role, hrole, List.mem_cons_of_mem _ hmem⟩

section Columns

variable {role : Role} (hnames : (fields.map Field.name).Nodup) (h : Assigned s fields l)
  (hmem : (f.name, role) ∈ l.roles)
include hnames h hmem

theorem Assigned.not_mem_fields (hignored : role = .ignored) :
    f.name ∉ l.columns.map Column.field := by
  intro hcolumn
  rw [h.kept.mem_iff, List.mem_map] at hcolumn
  obtain ⟨entry, hentry, hname⟩ := hcolumn
  obtain ⟨hlisted, hkept⟩ := List.mem_filter.1 hentry
  rw [← h.names_roles] at hnames
  rw [List.inj_on_of_nodup_map hnames hlisted hmem hname, hignored] at hkept
  simp at hkept

theorem Assigned.hasOnce (hkept : role ≠ .ignored) : l.HasOnce f.name := by
  have hin : f.name ∈ (l.roles.filter (·.2 ≠ .ignored)).map Prod.fst :=
    List.mem_map_of_mem (f := Prod.fst) (List.mem_filter.2 ⟨hmem, by simpa using hkept⟩)
  rw [← h.names_roles] at hnames
  rw [HasOnce, h.kept.count_eq]
  exact List.count_eq_one_of_mem (hnames.sublist (List.filter_sublist.map _)) hin

end Columns

/-! ### Built layouts -/

variable {config : LayoutConfig} {mapping : Option Renames} {type : RecordType R}

theorem assigned_build (h : build config mapping type = .ok l) :
    Assigned (.of config mapping type) type.fields l :=
  build_induction h ⟨.nil, .refl _, fun role hsystem place hplace => by cases place <;> rfl⟩
    fun _ _ _ _ hassigned => hassigned.adds

/-- Every layout has a key. -/
theorem isSome_key_of_build (h : build config mapping type = .ok l) :
    l.partitionKey.isSome ∨ l.rowKey.isSome := by
  obtain ⟨l₁, -, h⟩ := bind_eq_ok_iff.1 h
  split at h
  · cases h
  next hkey =>
    cases h
    simpa [Option.isSome_iff_ne_none, or_iff_not_imp_left] using hkey

/-- A system column is held at most once. -/
theorem length_columnsAt_le (l : Layout R) {place : Place} (h : place ≠ .property) :
    (l.columnsAt place).length ≤ 1 := by
  have hheld (held : Option (Column R)) : held.toList.length ≤ 1 := by
    cases held <;> simp
  cases place with
  | property => exact absurd rfl h
  | _ => exact hheld _

/-- A layout lists every field once, in the order of declaration, with its role. A field that is ignored
has no column; any other has one, at the place and of the name that its role says, which is the chosen
name where one was chosen, and the renames lead from the field to just that name. No system role is
listed twice, and one of the two keys is there. -/
theorem renames_lead_to_columns (hfields : (type.fields.map Field.name).Nodup)
    (h : build config mapping type = .ok l) :
    l.roles.map Prod.fst = type.fields.map Field.name ∧
    (∀ f ∈ type.fields, ∃ role, (Scheme.of config mapping type).role f = .ok role ∧
      (f.name, role) ∈ l.roles ∧
      (role = .ignored → f.name ∉ l.columns.map Column.field) ∧
      (role ≠ .ignored → l.HasOnce f.name ∧ ∃ place, role.place? = some place ∧
        ∃ c ∈ l.columnsAt place, c.field = f.name ∧ c.name = role.columnName f.name ∧
          (∀ column, f.chosenName? mapping = some column → c.name = column) ∧
          l.renames.column f.name = c.name)) ∧
    (∀ role ∈ Role.system, (l.roles.map Prod.snd).count role ≤ 1) ∧
    (l.partitionKey.isSome ∨ l.rowKey.isSome) := by
  have hassigned := assigned_build h
  refine ⟨hassigned.names_roles, fun f hf => ?_, fun role hsystem => ?_, isSome_key_of_build h⟩
  · obtain ⟨role, hrole, hmem⟩ := hassigned.exists_role hf
    refine ⟨role, hrole, hmem, hassigned.not_mem_fields hfields hmem, fun hkept => ?_⟩
    have honce := hassigned.hasOnce hfields hmem hkept
    obtain ⟨place, hplace⟩ : ∃ place, role.place? = some place :=
      Option.ne_none_iff_exists'.1 (mt Role.place?_eq_none_iff.1 hkept)
    obtain ⟨kept, hcolumn⟩ := (covers_build h).column f hf
    cases kept with
    | none =>
      rw [Scheme.ignored_of_column? hcolumn] at hrole
      exact absurd (Except.ok.inj hrole).symm hkept
    | some w =>
      obtain ⟨q, c⟩ := w
      obtain ⟨role', hrole', hq, hc⟩ := Scheme.column?_eq_ok_some_iff.1 hcolumn
      obtain rfl := Except.ok.inj (hrole.symm.trans hrole')
      obtain rfl := Option.some_inj.1 (hplace.symm.trans hq)
      obtain ⟨hfield, hname⟩ := Column.names_of_ofRole hc
      have hplaced := (covers_build h).mem_placed hf hcolumn
      have hin : c ∈ l.columns := mem_columns_iff.2 ⟨_, hplaced⟩
      refine ⟨honce, place, hplace, c, mem_placed_iff.1 hplaced, hfield, hname, ?_, ?_⟩
      · exact fun column hchosen => hname.trans (Scheme.columnName_of_chosenName? hrole hchosen)
      · rw [← hfield] at honce ⊢
        exact (renamed_build h).column c hin honce
  · obtain ⟨place, hplace, hne⟩ : ∃ place, role.place? = some place ∧ place ≠ .property := by
      simp only [Role.system, List.mem_cons, List.not_mem_nil, or_false] at hsystem
      rcases hsystem with rfl | rfl | rfl | rfl <;> exact ⟨_, rfl, by decide⟩
    rw [hassigned.taken role hsystem place hplace]
    exact length_columnsAt_le l hne

/-- A type whose key is registered under its name, with a renamed, an ignored and a structured field. -/
def parcel : Schema :=
  ⟨"Parcel", [⟨"Id", .value (.scalar .guid), [], .value (.guid .zero)⟩,
    ⟨"Size", .value (.scalar .int32), [.named "Amount"], .value (.int32 0)⟩,
    ⟨"Note", .value (.scalar .string), [.ignore], .value (.string "")⟩,
    ⟨"Tags", .payload .tags, [.serialized "Labels"], .payload (.tags [])⟩,
    ⟨"Color", .value (.scalar .string), [], .value (.string "")⟩]⟩

theorem renames_lead_to_columns_parcel :
    (parcel.recordType.fields.map Field.name).Nodup ∧
      ∃ l, build .standard (some ⟨[("Id", "RowKey")]⟩) parcel.recordType = .ok l ∧
        l.roles.map Prod.fst = ["Id", "Size", "Note", "Tags", "Color"] ∧
        l.renames.column "Id" = "RowKey" ∧ l.renames.column "Tags" = "Labels" ∧
        l.renames.column "Color" = "Color" ∧ "Note" ∉ l.columns.map Column.field := by
  have hfields : (parcel.recordType.fields.map Field.name).Nodup := by decide
  have hbuilt : ∃ l, build .standard (some ⟨[("Id", "RowKey")]⟩) parcel.recordType = .ok l := ⟨_, rfl⟩
  obtain ⟨l, hl⟩ := hbuilt
  obtain ⟨hroles, hall, -, -⟩ := renames_lead_to_columns hfields hl
  -- the column of a field whose role is known
  have hcolumn (f : Field Schema.Record) (hf : f ∈ parcel.recordType.fields) (role : Role)
      (hrole : (Scheme.of .standard (some ⟨[("Id", "RowKey")]⟩) parcel.recordType).role f = .ok role)
      (hkept : role ≠ .ignored) : l.renames.column f.name = role.columnName f.name := by
    obtain ⟨role', hrole', -, -, hnamed⟩ := hall f hf
    obtain rfl := Except.ok.inj (hrole.symm.trans hrole')
    obtain ⟨-, _, -, c, -, -, hname, -, hrenamed⟩ := hnamed hkept
    exact hrenamed.trans hname
  obtain ⟨role, hrole, -, hignored, -⟩ :=
    hall (Schema.fieldAt 2 (parcel.fields[2])) (.tail _ (.tail _ (.head _)))
  refine ⟨hfields, l, hl, hroles, ?_, ?_, ?_, hignored (Except.ok.inj hrole).symm⟩
  · exact hcolumn (Schema.fieldAt 0 parcel.fields[0]) (.head _) .rowKey rfl (by decide)
  · exact hcolumn (Schema.fieldAt 3 parcel.fields[3]) (.tail _ (.tail _ (.tail _ (.head _))))
      (.serialized "Labels") rfl (by decide)
  · exact hcolumn (Schema.fieldAt 4 parcel.fields[4])
      (.tail _ (.tail _ (.tail _ (.tail _ (.head _))))) .regular rfl (by decide)

end Layout

end TableClient
