import TableClient.Proofs.Record.Column
import TableClient.Proofs.Record.Entity

/-! Entities read and written back. A key text is read as the value that it stands for, and written
again as the one text that the value has. So the row is addressed again exactly if its key texts are
ones that values are written as, which not every text is that stands for an identifier or an integer. -/

namespace TableClient

variable {R : Type}

/-! ### Key texts -/

namespace KeyType

/-- The text is the one that some value of the key's type is written as. -/
def Writes (type : KeyType) (field text : String) : Prop :=
  ∃ v : Value, v.kind = type.scalar.kind ∧ textOf field v = .ok text

theorem writes_string (field text : String) : Writes string field text := ⟨.string text, rfl, rfl⟩

theorem kind_of_read {type : KeyType} {text : String} {v : Value} (h : type.read text = .ok v) :
    v.kind = type.scalar.kind := by
  unfold read at h
  split at h
  next w hw =>
    cases h
    cases type with
    | string =>
      cases hw
      rfl
    | guid | int32 | int64 =>
      obtain ⟨_, -, rfl⟩ := Option.map_eq_some_iff.1 hw
      rfl
  next => cases h

/-- The value of a key text is written as that text exactly if some value is. -/
theorem textOf_read_iff {type : KeyType} {field text text' : String} {v : Value}
    (hread : type.read text = .ok v) (hwrite : textOf field v = .ok text') :
    text' = text ↔ type.Writes field text := by
  constructor
  · rintro rfl
    exact ⟨v, kind_of_read hread, hwrite⟩
  · rintro ⟨w, hkind, htext⟩
    obtain ⟨text₁, htext₁, hread₁⟩ := read_textOf field hkind
    obtain rfl := Except.ok.inj (htext.symm.trans htext₁)
    obtain rfl := Except.ok.inj (hread.symm.trans hread₁)
    exact Except.ok.inj (hwrite.symm.trans htext₁)

end KeyType

/-! ### Setting fields -/

/-- A record becomes another one when something is set in a field. -/
def Lens.Sets (lens : Lens R) (target r : R) : Prop :=
  match lens with
  | .value _ set => ∃ v, set target v = .ok r
  | .document _ set => ∃ d, set target d = some r

/-- A field reads as what was set, where that is a value of the declared kind, and setting it changes
no other field. -/
structure RecordType.KeepsWrites (type : RecordType R) : Prop where
  get_set : ∀ f ∈ type.fields, ∀ get set, f.lens = .value get set →
    ∀ slot, f.type.slot? = some slot → ∀ target v r, v.kind = slot.kind → set target v = .ok r →
      get r = v
  agrees : ∀ f ∈ type.fields, ∀ target r, f.lens.Sets target r →
    ∀ g ∈ type.fields, g ≠ f → g.lens.Agrees r target

namespace Column

def lens (c : Column R) : Lens R :=
  match c.binding with
  | .property _ _ get set | .key _ get set => .value get set
  | .payload _ get set => .document get set

def keyType? (c : Column R) : Option KeyType :=
  match c.binding with
  | .key type .. => some type
  | _ => none

theorem lens_of_ofRole {typeName : String} {format : PayloadFormat} {f : Field R} {role : Role}
    {c : Column R} (h : ofRole typeName format f role = .ok c) : c.lens = f.lens := by
  cases role with
  | partitionKey | rowKey =>
    obtain ⟨_, _, _, hlens, -, rfl⟩ := ofKey_eq_ok_iff.1 h
    exact hlens.symm
  | etag | timestamp =>
    obtain ⟨_, _, _, hlens, -, rfl⟩ := ofProperty_eq_ok_iff.1 (ofSlot_eq_ok_iff.1 h).2
    exact hlens.symm
  | named | regular | ignored =>
    obtain ⟨_, _, _, hlens, -, rfl⟩ := ofProperty_eq_ok_iff.1 h
    exact hlens.symm
  | serialized =>
    obtain ⟨_, _, hlens, rfl⟩ := ofPayload_eq_ok_iff.1 h
    exact hlens.symm

/-- The column of a field in the role of a key. -/
theorem key_of_ofRole {typeName : String} {format : PayloadFormat} {f : Field R} {role : Role}
    (hrole : role = .partitionKey ∨ role = .rowKey) {c : Column R}
    (h : ofRole typeName format f role = .ok c) : ∃ key get set, f.lens = .value get set ∧
      f.type.slot? = some key.scalar ∧ c = ⟨f.name, role.columnName f.name, .key key get set⟩ := by
  have hofKey : ofKey typeName f (role.columnName f.name) = .ok c := by
    rcases hrole with rfl | rfl <;> exact h
  obtain ⟨get, set, key, hlens, htype, rfl⟩ := ofKey_eq_ok_iff.1 hofKey
  obtain ⟨slot, hslot, hkey⟩ := Option.bind_eq_some_iff.1 htype
  exact ⟨key, get, set, hlens, by rw [hslot, KeyType.scalar_of_ofScalar? hkey], rfl⟩

theorem sets_of_writeValue {slot : Scalar} {nullable : Bool}
    {set : R → Value → Except MappingError R} {r r' : R} {v : Value}
    (h : writeValue slot nullable set r v = .ok r') : r' = r ∨ ∃ w, set r w = .ok r' := by
  unfold writeValue at h
  split at h
  · split at h
    · exact .inr ⟨_, h⟩
    · split at h
      · exact .inr ⟨_, h⟩
      · exact .inl (Except.ok.inj h).symm
  · exact .inr ⟨_, h⟩

/-- Writing a column leaves the record as it is, or sets something in its field. -/
theorem sets_of_write {c : Column R} {r r' : R} {p : Option Property} (h : c.write r p = .ok r') :
    r' = r ∨ c.lens.Sets r r' := by
  obtain ⟨field, name, binding⟩ := c
  cases binding with
  | property slot nullable get set =>
    cases p with
    | none => exact sets_of_writeValue h
    | some p =>
      obtain ⟨q, -, h⟩ := bind_eq_ok_iff.1 h
      exact sets_of_writeValue h
  | key type get set =>
    cases p with
    | none => exact .inl (Except.ok.inj h).symm
    | some p =>
      simp only [write] at h
      split at h
      · obtain ⟨v, -, h⟩ := bind_eq_ok_iff.1 h
        exact .inr ⟨v, h⟩
      · cases h
  | payload format get set =>
    cases p with
    | none => exact .inl (Except.ok.inj h).symm
    | some p =>
      simp only [write] at h
      split at h
      · split at h
        · unfold writePayload at h
          split at h
          next hset =>
            cases h
            obtain ⟨d, -, hd⟩ := Option.bind_eq_some_iff.1 hset
            exact .inr ⟨d, hd⟩
          · cases h
        · exact .inl (Except.ok.inj h).symm
      · cases h

end Column

namespace Layout

section Build

variable {config : LayoutConfig} {mapping : Option Renames} {type : RecordType R} {l : Layout R}
  {e e' : Entity} {r : R}

/-! ### The record of an entity -/

/-- Writing a column leaves the fields of other columns as they are. -/
theorem agrees_of_writeFrom (hkeeps : type.KeepsWrites) {s : Scheme}
    {w : Place × Column R} {f g : Field R} (hg : g ∈ type.fields) (hw : s.column? g = .ok (some w))
    (hf : f ∈ type.fields) (hne : s.column? f ≠ .ok (some w)) {r₀ r₁ : R}
    (hwrite : writeFrom e r₀ w = .ok r₁) : f.lens.Agrees r₁ r₀ := by
  rcases Column.sets_of_write hwrite with rfl | hsets
  · exact .refl f.lens _
  · obtain ⟨role, -, -, hc⟩ := Scheme.column?_eq_ok_some_iff.1 hw
    rw [Column.lens_of_ofRole hc] at hsets
    refine hkeeps.agrees g hg _ _ hsets f hf fun hsame => hne ?_
    rw [hsame]
    exact hw

/-- A run of writes of other columns leaves a field as it is. -/
theorem agrees_of_run (hkeeps : type.KeepsWrites) {s : Scheme} {ws : List (Place × Column R)}
    (hws : ∀ w ∈ ws, ∃ g ∈ type.fields, s.column? g = .ok (some w)) {f : Field R}
    (hf : f ∈ type.fields) (hne : ∀ w ∈ ws, s.column? f ≠ .ok (some w)) {r₀ : R}
    (hrun : ws.foldlM (writeFrom e) r₀ = .ok r) : f.lens.Agrees r r₀ := by
  induction ws generalizing r₀ with
  | nil =>
    cases hrun
    exact .refl f.lens _
  | cons w ws ih =>
    obtain ⟨⟨g, hg, hgw⟩, hws⟩ := List.forall_mem_cons.1 hws
    obtain ⟨hfw, hne⟩ := List.forall_mem_cons.1 hne
    rw [List.foldlM_cons] at hrun
    obtain ⟨r₁, hwrite, hrun⟩ := bind_eq_ok_iff.1 hrun
    exact (ih hws hne hrun).trans (agrees_of_writeFrom hkeeps hg hgw hf hfw hwrite)

/-- After a run of writes a field is as the last write of its column has left it. -/
theorem exists_last_write (hkeeps : type.KeepsWrites) {s : Scheme} {ws : List (Place × Column R)}
    (hws : ∀ w ∈ ws, ∃ g ∈ type.fields, s.column? g = .ok (some w)) {f : Field R}
    (hf : f ∈ type.fields) {w : Place × Column R} (hcolumn : s.column? f = .ok (some w))
    (hw : w ∈ ws) {r₀ : R} (hrun : ws.foldlM (writeFrom e) r₀ = .ok r) :
    ∃ r₁ r₂, writeFrom e r₁ w = .ok r₂ ∧ f.lens.Agrees r r₂ := by
  induction ws generalizing r₀ with
  | nil => cases hw
  | cons v vs ih =>
    obtain ⟨-, hvs⟩ := List.forall_mem_cons.1 hws
    rw [List.foldlM_cons] at hrun
    obtain ⟨r₁, hwrite, hrest⟩ := bind_eq_ok_iff.1 hrun
    by_cases hlater : w ∈ vs
    · exact ih hvs hlater hrest
    · obtain rfl : w = v := (List.mem_cons.1 hw).resolve_right hlater
      refine ⟨r₀, r₁, hwrite, agrees_of_run hkeeps hvs hf (fun u hu hfu => hlater ?_) hrest⟩
      rwa [Option.some.inj (Except.ok.inj (hcolumn.symm.trans hfu))]

/-- The field of a key has the value that the key text of the entity stands for. -/
theorem key_of_fromEntity (h : build config mapping type = .ok l) (hkeeps : type.KeepsWrites)
    {place : Place} (hplace : place = .partitionKey ∨ place = .rowKey) {c : Column R}
    (hc : c ∈ l.columnsAt place) {text : String}
    (hreceived : received e c place = some (.ofString text)) (hread : l.fromEntity e = .ok r) :
    ∃ key v, c.keyType? = some key ∧ key.read text = .ok v ∧
      c.read r = (KeyType.textOf c.field v).map .ofString := by
  have hcovers := covers_build h
  have hw : (place, c) ∈ l.placed := mem_placed_iff.2 hc
  obtain ⟨f, hf, hcolumn⟩ := hcovers.exists_field hw
  rw [fromEntity_eq, type_of_build h] at hread
  obtain ⟨r₁, r₂, hwrite, hagrees⟩ := exists_last_write hkeeps
    (fun w hw => hcovers.exists_field hw) hf hcolumn hw hread
  obtain ⟨role, -, hat, hc⟩ := Scheme.column?_eq_ok_some_iff.1 hcolumn
  have hrole : role = .partitionKey ∨ role = .rowKey := by
    rcases hplace with rfl | rfl
    · cases role <;> cases hat
      exact .inl rfl
    · cases role <;> cases hat
      exact .inr rfl
  obtain ⟨key, get, set, hlens, hslot, rfl⟩ := Column.key_of_ofRole hrole hc
  rw [writeFrom, hreceived] at hwrite
  obtain ⟨v, hv, hset⟩ := bind_eq_ok_iff.1 hwrite
  have hget : get r₂ = v := hkeeps.get_set f hf get set hlens _ hslot r₁ v r₂
    (KeyType.kind_of_read hv) hset
  rw [hlens] at hagrees
  refine ⟨key, v, rfl, hv, ?_⟩
  rw [← hget, ← show get r = get r₂ from hagrees]
  rfl

/-- Written again, a key text stays exactly if it is the text of a value. -/
theorem keyText_iff (h : build config mapping type = .ok l) (hkeeps : type.KeepsWrites)
    {place : Place} (hplace : place = .partitionKey ∨ place = .rowKey) {c : Column R}
    (hc : c ∈ l.columnsAt place) {text text' : String}
    (hreceived : received e c place = some (.ofString text)) (hread : l.fromEntity e = .ok r)
    (hwrite : keyText (some c) r = .ok text') :
    ∃ key, c.keyType? = some key ∧ (text' = text ↔ key.Writes c.field text) := by
  obtain ⟨key, v, hkey, hv, hcolumn⟩ := key_of_fromEntity h hkeeps hplace hc hreceived hread
  obtain ⟨p, hp, hstring⟩ := bind_eq_ok_iff.1 hwrite
  rw [hcolumn] at hp
  obtain ⟨text₁, htext, rfl⟩ := map_eq_ok_iff.1 hp
  obtain rfl : text₁ = text' := Except.ok.inj hstring
  exact ⟨key, hkey, KeyType.textOf_read_iff hv htext⟩

/-- An entity that is read and written back has the key texts that it had, each exactly if some value
of the key's type is written as that text. A string is written as any text. -/
theorem keys_of_readBack (h : build config mapping type = .ok l) (hkeeps : type.KeepsWrites)
    {p k : Column R} (hp : l.partitionKey = some p) (hk : l.rowKey = some k)
    (hread : l.fromEntity e = .ok r) (hwrite : l.toEntity r = .ok e') :
    ∃ pkey kkey, p.keyType? = some pkey ∧ k.keyType? = some kkey ∧
      (e'.partitionKey = e.partitionKey ↔ pkey.Writes p.field e.partitionKey) ∧
      (e'.rowKey = e.rowKey ↔ kkey.Writes k.field e.rowKey) := by
  obtain ⟨hpartition, hrow, -, -, -⟩ := represents_of_toEntity hwrite
  rw [hp] at hpartition
  rw [hk] at hrow
  have hpat : p ∈ l.columnsAt .partitionKey := by simp [columnsAt, hp]
  have hkat : k ∈ l.columnsAt .rowKey := by simp [columnsAt, hk]
  obtain ⟨pkey, hpkey, hpiff⟩ := keyText_iff h hkeeps (.inl rfl) hpat rfl hread hpartition
  obtain ⟨kkey, hkkey, hkiff⟩ := keyText_iff h hkeeps (.inr rfl) hkat rfl hread hrow
  exact ⟨pkey, kkey, hpkey, hkkey, hpiff, hkiff⟩

end Build

end Layout

/-! ### A type with a number for a key -/

structure Gauge where
  site : String
  number : Int32

namespace Gauge

/-- The record type of gauges. The setters take values of their own kind only. -/
def type : RecordType Gauge where
  name := "Gauge"
  fields :=
    [⟨"Site", .scalar .string, [.partitionKey], .value (fun r => .string r.site) fun r v =>
        match v with
        | .string site => .ok { r with site }
        | _ => .error (.conversion "string" v.kind.name)⟩,
      ⟨"Number", .scalar .int32, [.rowKey], .value (fun r => .int32 r.number) fun r v =>
        match v with
        | .int32 number => .ok { r with number }
        | _ => .error (.conversion "int32" v.kind.name)⟩]
  blank := ⟨"", 0⟩

theorem keepsWrites_type : type.KeepsWrites where
  get_set f hf get set hlens slot hslot target v r hkind hset := by
    rcases List.mem_pair.1 hf with rfl | rfl
    all_goals
      cases hlens
      cases hslot
      cases v <;> cases hkind
      cases hset
      rfl
  agrees f hf target r hsets g hg hne := by
    rcases List.mem_pair.1 hf with rfl | rfl
    all_goals
      obtain ⟨v, hset⟩ := hsets
      cases v <;> cases hset
      rcases List.mem_pair.1 hg with rfl | rfl <;> first
        | exact absurd rfl hne
        | rfl

def entity (number : String) : Entity := .ofKeys "north" number

end Gauge

namespace Layout

theorem keys_of_readBack_gauge : ∃ l r e', build .standard none Gauge.type = .ok l ∧
    l.fromEntity (Gauge.entity "7") = .ok r ∧ l.toEntity r = .ok e' ∧
    e'.partitionKey = "north" ∧ e'.rowKey = "7" := by
  have hrun : (do
      let l ← build .standard none Gauge.type
      let r ← l.fromEntity (Gauge.entity "7")
      let _ ← l.toEntity r
      .ok (l.partitionKey.bind Column.keyType?, l.rowKey.bind Column.keyType?)) =
      Except.ok (some KeyType.string, some KeyType.int32) := rfl
  obtain ⟨l, hl, hrun⟩ := bind_eq_ok_iff.1 hrun
  obtain ⟨r, hr, hrun⟩ := bind_eq_ok_iff.1 hrun
  obtain ⟨e', he', hrun⟩ := bind_eq_ok_iff.1 hrun
  obtain ⟨hpartition, hrow⟩ := Prod.mk.inj (Except.ok.inj hrun)
  obtain ⟨p, hp, hpkey⟩ := Option.bind_eq_some_iff.1 hpartition
  obtain ⟨k, hk, hkkey⟩ := Option.bind_eq_some_iff.1 hrow
  obtain ⟨pkey, kkey, hpkey', hkkey', hpiff, hkiff⟩ :=
    keys_of_readBack hl Gauge.keepsWrites_type hp hk hr he'
  obtain rfl := Option.some.inj (hpkey.symm.trans hpkey')
  obtain rfl := Option.some.inj (hkkey.symm.trans hkkey')
  exact ⟨l, r, e', hl, hr, he', hpiff.2 (KeyType.writes_string _ _),
    hkiff.2 ⟨.int32 7, rfl, rfl⟩⟩

/-- The integer that `007` stands for is written as `7`, which addresses another row. -/
theorem other_spelling_changes_key : Gauge.type.KeepsWrites ∧
    ∃ l r e', build .standard none Gauge.type = .ok l ∧ l.partitionKey.isSome ∧ l.rowKey.isSome ∧
      l.fromEntity (Gauge.entity "007") = .ok r ∧ l.toEntity r = .ok e' ∧
      e'.rowKey ≠ (Gauge.entity "007").rowKey := by
  have hrun : (do
      let l ← build .standard none Gauge.type
      let r ← l.fromEntity (Gauge.entity "007")
      let e' ← l.toEntity r
      .ok (l.partitionKey.isSome, l.rowKey.isSome, e'.rowKey)) = Except.ok (true, true, "7") := rfl
  obtain ⟨l, hl, hrun⟩ := bind_eq_ok_iff.1 hrun
  obtain ⟨r, hr, hrun⟩ := bind_eq_ok_iff.1 hrun
  obtain ⟨e', he', hrun⟩ := bind_eq_ok_iff.1 hrun
  obtain ⟨hpartition, hrest⟩ := Prod.mk.inj (Except.ok.inj hrun)
  obtain ⟨hrow, htext⟩ := Prod.mk.inj hrest
  refine ⟨Gauge.keepsWrites_type, l, r, e', hl, hpartition, hrow, hr, he', ?_⟩
  rw [htext]
  decide

end Layout

end TableClient
