import TableClient.Proofs.Record.Column
import TableClient.Proofs.Record.Entity
import TableClient.Record.Schema

/-! Records survive the store. The columns of a layout are written one after another to the blank
record; each brings the field it belongs to to what the record had there, and leaves the others. So
in the end every field that has a column is as it was, the timestamp is empty, and the ignored fields
are as in the blank record. Nothing but a setter that refuses its value keeps a record from coming back. -/

namespace TableClient

variable {R : Type}

/-! ### What is kept of a field -/

/-- The keys cannot be null. -/
def Role.isKey : Role → Bool
  | .partitionKey | .rowKey => true
  | _ => false

/-- Fields of the role go to the store and come back. -/
def Role.isStored : Role → Bool
  | .timestamp | .ignored => false
  | _ => true

namespace Field

/-- A field has what its declaration and its role allow: a value of the declared kind, or null if the
declared type has it and the field is no key; a document whose text is read back as the document. -/
def Fits (f : Field R) (format : PayloadFormat) (role : Role) (r : R) : Prop :=
  match f.lens with
  | .value get _ => (∃ slot, f.type.slot? = some slot ∧ (get r).kind = slot.kind) ∨
      (get r = .null ∧ f.type.isNullable ∧ role.isKey = false)
  | .document get _ => ∃ d text, get r = some d ∧ format.encode d = some text ∧
      format.decode text = some d

/-- The timestamp of a record that did not come from the store. -/
def unstamped (f : Field R) : Value :=
  if f.type.isNullable then .null else .dateTime .firstYear

/-- What a field of a record has after the record went to the store and came back. -/
def Survives (f : Field R) (blank r : R) (role : Role) (r' : R) : Prop :=
  match role with
  | .ignored => f.lens.Agrees r' blank
  | .timestamp => f.lens.Holds r' f.unstamped
  | _ => f.lens.Agrees r' r

/-- The setter of a field refuses, on some record, what the field gets when a record comes back: what it
had, or the empty timestamp. -/
def Refuses (f : Field R) (r : R) (role : Role) (e : MappingError) : Prop :=
  match f.lens with
  | .value get set =>
    ∃ target, set target (if role = .timestamp then f.unstamped else get r) = .error e
  | .document get set => e = .serialization f.name ∧ ∃ d target, get r = some d ∧ set target d = none

theorem refuses_of_set {f : Field R} {get : R → Value} {set : R → Value → Except MappingError R}
    (hlens : f.lens = .value get set) {r : R} {role : Role} (hstored : role.isStored) {e : MappingError}
    (h : ∃ target, set target (get r) = .error e) : f.Refuses r role e := by
  have hne : role ≠ .timestamp := by
    rintro rfl
    cases hstored
  simpa only [Refuses, hlens, if_neg hne] using h

theorem Survives.of_agrees {f : Field R} {blank r r₁ r₂ : R} {role : Role}
    (h : f.Survives blank r role r₁) (hagrees : f.lens.Agrees r₂ r₁) :
    f.Survives blank r role r₂ := by
  cases role with
  | timestamp => exact hagrees.holds h
  | _ => exact hagrees.trans h

end Field

/-- A field survives in the role that it has. -/
def Scheme.Restores (s : Scheme) (blank r : R) (f : Field R) (r' : R) : Prop :=
  ∃ role, s.role f = .ok role ∧ f.Survives blank r role r'

theorem Scheme.Restores.of_agrees {s : Scheme} {blank r : R} {f : Field R} {r₁ r₂ : R}
    (h : s.Restores blank r f r₁) (hagrees : f.lens.Agrees r₂ r₁) : s.Restores blank r f r₂ := by
  obtain ⟨role, hrole, hsurvives⟩ := h
  exact ⟨role, hrole, hsurvives.of_agrees hagrees⟩

/-- A setter refuses what its field gets when a record comes back. -/
def Scheme.Refuses (s : Scheme) (type : RecordType R) (r : R) (e : MappingError) : Prop :=
  ∃ f ∈ type.fields, ∃ role, s.role f = .ok role ∧ f.Refuses r role e

/-- A record that can go to the store under a scheme: setting what was read is lawful, so is emptying the
timestamp, and the stored fields fit. -/
structure Scheme.CanStore (s : Scheme) (type : RecordType R) (r : R) : Prop where
  lawful : type.IsLawful
  fits : ∀ f ∈ type.fields, ∀ role, s.role f = .ok role → role.isStored → f.Fits s.format role r
  unstamped : ∀ f ∈ type.fields, s.role f = .ok .timestamp → type.KeepsSet f f.unstamped

/-! ### One column -/

section Column

variable {s : Scheme} {type : RecordType R} {r : R} {f : Field R} {role : Role} {name : String}
  {c : Column R}

theorem Scheme.CanStore.key (h : s.CanStore type r) (hf : f ∈ type.fields)
    (hrole : s.role f = .ok role) (hkey : role.isKey) (hc : Column.ofKey s.typeName f name = .ok c) :
    ∃ text, c.read r = .ok (.ofString text) ∧
      type.Reaches (c.write · (some (.ofString text))) f (f.lens.Agrees · r) (f.Refuses r role) := by
  obtain ⟨get, set, key, hlens, htype, rfl⟩ := Column.ofKey_eq_ok_iff.1 hc
  have hstored : role.isStored := by cases role <;> first | rfl | cases hkey
  have hfits := h.fits f hf role hrole hstored
  simp only [Field.Fits, hlens] at hfits
  rcases hfits with ⟨slot, hslot, hkind⟩ | ⟨-, -, hno⟩
  · rw [hslot, Option.bind_some] at htype
    rw [← KeyType.scalar_of_ofScalar? htype] at hkind
    obtain ⟨text, htext, hread⟩ := KeyType.read_textOf f.name hkind
    refine ⟨text, ?_, ?_⟩
    · simp only [Column.read, htext, Except.map]
    · rw [funext (Column.write_key hread)]
      exact (h.lawful.set_value hf hlens r).mono (fun _ => id) fun _ => Field.refuses_of_set hlens hstored
  · rw [hkey] at hno
    cases hno

theorem Scheme.CanStore.property (h : s.CanStore type r) (hf : f ∈ type.fields)
    (hrole : s.role f = .ok role) (hstored : role.isStored)
    (hc : Column.ofProperty s.typeName f name = .ok c) :
    ∃ p, c.read r = .ok p ∧ f.type.slot? = some p.slot ∧ ∀ sent : Option Property,
      sent.elim .null Property.value = p.value →
        type.Reaches (c.write · sent) f (f.lens.Agrees · r) (f.Refuses r role) := by
  obtain ⟨get, set, slot, hlens, hslot, rfl⟩ := Column.ofProperty_eq_ok_iff.1 hc
  have hfits := h.fits f hf role hrole hstored
  simp only [Field.Fits, hlens, hslot, Option.some.injEq] at hfits
  have hvalue : ((get r).isNull ∨ (get r).kind = slot.kind) ∧ ((get r).isNull → f.type.isNullable) := by
    rcases hfits with ⟨_, rfl, hkind⟩ | ⟨hnull, hnullable, -⟩
    · refine ⟨.inr hkind, fun hnull => ?_⟩
      rw [Value.isNull_iff.1 hnull] at hkind
      cases slot <;> cases hkind
    · exact ⟨.inl (Value.isNull_iff.2 hnull), fun _ => hnullable⟩
  refine ⟨⟨slot, get r, hvalue.1⟩, Property.coerce_of_fits f.name hvalue.1, hslot, fun sent hsent => ?_⟩
  have hwrite (target : R) : Column.write ⟨f.name, name, .property slot f.type.isNullable get set⟩
      target sent = set target (get r) := by
    rw [Column.write_property hsent hvalue.1, Column.writeValue_eq_set hvalue.2]
  rw [funext hwrite]
  exact (h.lawful.set_value hf hlens r).mono (fun _ => id) fun _ => Field.refuses_of_set hlens hstored

theorem Scheme.CanStore.payload (h : s.CanStore type r) (hf : f ∈ type.fields)
    (hrole : s.role f = .ok role) (hstored : role.isStored)
    (hc : Column.ofPayload s.typeName f name s.format = .ok c) :
    ∃ text, c.read r = .ok (.ofString text) ∧
      type.Reaches (c.write · (some (.ofString text))) f (f.lens.Agrees · r) (f.Refuses r role) := by
  obtain ⟨get, set, hlens, rfl⟩ := Column.ofPayload_eq_ok_iff.1 hc
  have hfits := h.fits f hf role hrole hstored
  simp only [Field.Fits, hlens] at hfits
  obtain ⟨d, text, hget, hencode, hdecode⟩ := hfits
  refine ⟨text, ?_, ?_⟩
  · simp only [Column.read, Column.payloadText, hget, Option.bind_some, hencode, Except.map]
  · rw [funext (Column.write_payload hdecode)]
    refine (h.lawful.set_document hf hlens hget (.serialization f.name)).mono (fun _ => id) ?_
    rintro e ⟨rfl, target, hrefused⟩
    rw [Field.Refuses, hlens]
    exact ⟨rfl, d, target, hget, hrefused⟩

/-- The store has no timestamp of a record, so the field is emptied. -/
theorem Scheme.CanStore.timestamp (h : s.CanStore type r) (hf : f ∈ type.fields)
    (hrole : s.role f = .ok .timestamp)
    (hc : Column.ofSlot s.typeName f .dateTime name = .ok c) :
    type.Reaches (c.write · none) f (f.lens.Holds · f.unstamped) (f.Refuses r .timestamp) := by
  obtain ⟨hmoment, hc⟩ := Column.ofSlot_eq_ok_iff.1 hc
  obtain ⟨get, set, slot, hlens, hslot, rfl⟩ := Column.ofProperty_eq_ok_iff.1 hc
  obtain rfl := Option.some.inj (hslot.symm.trans hmoment)
  have hwrite (target : R) : Column.write ⟨f.name, name, .property .dateTime f.type.isNullable get set⟩
      target none = set target f.unstamped :=
    Column.writeValue_null_dateTime _ set target
  rw [funext hwrite]
  refine ((h.unstamped f hf hrole).set_value hlens).mono (fun _ => id) fun e hrefused => ?_
  simpa only [Field.Refuses, hlens, if_true] using hrefused

end Column

namespace Layout

/-! ### All columns -/

section Build

variable {config : LayoutConfig} {mapping : Option Renames} {type : RecordType R} {l : Layout R}
  {r : R} {e : Entity}

/-- Every column but that of the timestamp can be read. -/
theorem exists_read (h : build config mapping type = .ok l)
    (hstore : (Scheme.of config mapping type).CanStore type r) {w : Place × Column R}
    (hw : w ∈ l.placed) (hne : w.1 ≠ .timestamp) : ∃ p, w.2.read r = .ok p := by
  obtain ⟨f, hf, hcolumn⟩ := (covers_build h).exists_field hw
  obtain ⟨role, hrole, hplace, hc⟩ := Scheme.column?_eq_ok_some_iff.1 hcolumn
  cases role with
  | partitionKey | rowKey =>
    obtain ⟨text, hread, -⟩ := hstore.key hf hrole rfl hc
    exact ⟨_, hread⟩
  | etag =>
    obtain ⟨p, hread, -⟩ := hstore.property hf hrole rfl (Column.ofSlot_eq_ok_iff.1 hc).2
    exact ⟨p, hread⟩
  | named | regular =>
    obtain ⟨p, hread, -⟩ := hstore.property hf hrole rfl hc
    exact ⟨p, hread⟩
  | serialized =>
    obtain ⟨text, hread, -⟩ := hstore.payload hf hrole rfl hc
    exact ⟨_, hread⟩
  | timestamp => exact absurd (Option.some.inj hplace).symm hne
  | ignored => cases hplace

theorem exists_entity (h : build config mapping type = .ok l)
    (hstore : (Scheme.of config mapping type).CanStore type r) : ∃ e, l.toEntity r = .ok e := by
  have hread (place : Place) (hne : place ≠ .timestamp) (c : Column R) (hc : c ∈ l.columnsAt place) :
      ∃ p, c.read r = .ok p := exists_read h hstore (mem_placed_iff.2 hc : (place, c) ∈ l.placed) hne
  have hkey (held : Option (Column R)) (hheld : ∀ c ∈ held.toList, ∃ p, c.read r = .ok p) :
      ∃ text, keyText held r = .ok text := by
    cases held with
    | none => exact ⟨"", rfl⟩
    | some c =>
      obtain ⟨p, hp⟩ := hheld c (List.mem_singleton_self c)
      exact ⟨_, by rw [keyText, hp, ok_bind]⟩
  have hetag : ∃ tag, l.etagOf r = .ok tag := by
    unfold etagOf
    cases hc : l.etag with
    | none => exact ⟨none, rfl⟩
    | some c =>
      obtain ⟨p, hp⟩ := hread .etag (by decide) c (by simp [columnsAt, hc])
      exact ⟨p.string?, by simp only [hp, ok_bind]⟩
  exact exists_toEntity (hkey _ (hread .partitionKey (by decide))) (hkey _ (hread .rowKey (by decide)))
    hetag (hread .property (by decide))

/-- Writing what the entity has for a column brings the field of the column to what it has to
survive as. -/
theorem reaches_of_represents (hnames : (l.properties.map Column.name).Nodup)
    (hstore : (Scheme.of config mapping type).CanStore type r) (hentity : l.Represents r e)
    {w : Place × Column R} (hw : w ∈ l.placed) {f : Field R} (hf : f ∈ type.fields)
    (hcolumn : (Scheme.of config mapping type).column? f = .ok (some w)) :
    type.Reaches (writeFrom e · w) f ((Scheme.of config mapping type).Restores type.blank r f)
      ((Scheme.of config mapping type).Refuses type r) := by
  obtain ⟨role, hrole, hplace, hc⟩ := Scheme.column?_eq_ok_some_iff.1 hcolumn
  suffices hreach : type.Reaches (writeFrom e · w) f (f.Survives type.blank r role) (f.Refuses r role) from
    hreach.mono (fun r' hsurvives => ⟨role, hrole, hsurvives⟩)
      fun err hrefuses => ⟨f, hf, role, hrole, hrefuses⟩
  obtain ⟨place, c⟩ := w
  replace hw : c ∈ l.columnsAt place := mem_placed_iff.1 hw
  cases role with
  | partitionKey | rowKey =>
    cases hplace
    obtain ⟨text, hread, hreach⟩ := hstore.key hf hrole rfl hc
    simp only [writeFrom, hentity.received_key (by decide) hw hread]
    exact hreach
  | etag =>
    cases hplace
    obtain ⟨htext, hc⟩ := Column.ofSlot_eq_ok_iff.1 hc
    obtain ⟨p, hread, hslot, hreach⟩ := hstore.property hf hrole rfl hc
    have hstring : p.slot = .string := Option.some.inj (hslot.symm.trans htext)
    exact hreach _ (hentity.received_etag hw hread hstring)
  | timestamp =>
    cases hplace
    have hreach := hstore.timestamp hf hrole hc
    show type.Reaches (fun r => c.write r (e.timestamp.map .ofInstant)) f _ _
    rw [hentity.timestamp]
    exact hreach
  | named | regular =>
    cases hplace
    obtain ⟨p, hread, -, hreach⟩ := hstore.property hf hrole rfl hc
    have hvalue : (received e c .property).elim .null Property.value = p.value := by
      rw [hentity.received_property hnames hw hread]
      rfl
    exact hreach _ hvalue
  | serialized =>
    cases hplace
    obtain ⟨text, hread, hreach⟩ := hstore.payload hf hrole rfl hc
    simp only [writeFrom, hentity.received_property hnames hw hread]
    exact hreach
  | ignored => cases hplace

/-- A run of writes brings every field that one of them belongs to to its goal, and leaves the other
fields as they are, unless one of them is refused. -/
theorem foldlM_writeFrom_cases {s : Scheme} {goal : Field R → R → Prop} {refusal : MappingError → Prop}
    (hgoal : ∀ f r₁ r₂, goal f r₁ → f.lens.Agrees r₂ r₁ → goal f r₂) {ws : List (Place × Column R)}
    (hws : ∀ w ∈ ws, (∃ f ∈ type.fields, s.column? f = .ok (some w)) ∧
      ∀ f ∈ type.fields, s.column? f = .ok (some w) →
        type.Reaches (writeFrom e · w) f (goal f) refusal) (r₀ : R) :
    (∃ r', ws.foldlM (writeFrom e) r₀ = .ok r' ∧ ∀ f ∈ type.fields,
      ((∃ w ∈ ws, s.column? f = .ok (some w)) → goal f r') ∧
      ((∀ w ∈ ws, s.column? f ≠ .ok (some w)) → f.lens.Agrees r' r₀)) ∨
    ∃ err, ws.foldlM (writeFrom e) r₀ = .error err ∧ refusal err := by
  induction ws generalizing r₀ with
  | nil => exact .inl ⟨r₀, rfl, fun f _ => ⟨by simp, fun _ => .refl f.lens r₀⟩⟩
  | cons w ws ih =>
    obtain ⟨⟨g, hg, hgw⟩, hreach⟩ := hws w List.mem_cons_self
    rw [List.foldlM_cons]
    cases hwrite : writeFrom e r₀ w with
    | error err => exact .inr ⟨err, rfl, (hreach g hg hgw).refused r₀ err hwrite⟩
    | ok r₁ =>
      obtain ⟨-, hothers⟩ := (hreach g hg hgw).done r₀ r₁ hwrite
      refine (ih (fun v hv => hws v (List.mem_cons_of_mem w hv)) r₁).imp_left ?_
      rintro ⟨r', hrest, hfields⟩
      refine ⟨r', hrest, fun f hf => ?_⟩
      obtain ⟨hreached, hkept⟩ := hfields f hf
      by_cases hlater : ∃ v ∈ ws, s.column? f = .ok (some v)
      · refine ⟨fun _ => hreached hlater, fun hnone => ?_⟩
        obtain ⟨v, hv, hfv⟩ := hlater
        exact absurd hfv (hnone v (List.mem_cons_of_mem w hv))
      · have hagrees := hkept fun v hv hfv => hlater ⟨v, hv, hfv⟩
        by_cases hfw : s.column? f = .ok (some w)
        · -- the field may be another than the one above, but the write is the same
          obtain ⟨hf₁, -⟩ := (hreach f hf hfw).done r₀ r₁ hwrite
          exact ⟨fun _ => hgoal f _ _ hf₁ hagrees, fun hnone => absurd hfw (hnone w List.mem_cons_self)⟩
        · refine ⟨fun hsome => ?_, fun _ => hagrees.trans (hothers f hf fun hsame => hfw (hsame ▸ hgw))⟩
          obtain ⟨v, hv, hfv⟩ := hsome
          rcases List.mem_cons.1 hv with rfl | hv
          · exact absurd hfv hfw
          · exact absurd ⟨v, hv, hfv⟩ hlater

/-- A record goes to the store and comes back, if setting what was read is lawful, so is emptying the
timestamp, and its stored fields have what their declarations and roles allow: with the same in every
stored field, with an empty timestamp, and with the ignored fields of the blank record. It does not come
back only if a setter refuses what a stored field had or the empty timestamp, and then with the error of
this setter. -/
theorem fromEntity_toEntity (h : build config mapping type = .ok l)
    (hnames : (l.properties.map Column.name).Nodup) (hlawful : type.IsLawful)
    (hunstamped : ∀ f ∈ type.fields, (Scheme.of config mapping type).role f = .ok .timestamp →
      type.KeepsSet f f.unstamped)
    (hfits : ∀ f ∈ type.fields, ∀ role, (Scheme.of config mapping type).role f = .ok role →
      role.isStored → f.Fits config.format role r) :
    ∃ e, l.toEntity r = .ok e ∧
      ((∃ r', l.fromEntity e = .ok r' ∧ ∀ f ∈ type.fields, ∃ role,
        (Scheme.of config mapping type).role f = .ok role ∧ f.Survives type.blank r role r') ∨
      ∃ err, l.fromEntity e = .error err ∧ ∃ f ∈ type.fields, ∃ role,
        (Scheme.of config mapping type).role f = .ok role ∧ f.Refuses r role err) := by
  have hstore : (Scheme.of config mapping type).CanStore type r := ⟨hlawful, hfits, hunstamped⟩
  have hcovers := covers_build h
  obtain ⟨e, he⟩ := exists_entity h hstore
  have hentity := represents_of_toEntity he
  have hrun := foldlM_writeFrom_cases
    (fun f _ _ hf hagrees => hf.of_agrees hagrees)
    (fun w hw => ⟨hcovers.exists_field hw, fun f hf =>
      reaches_of_represents hnames hstore hentity hw hf⟩) type.blank
  refine ⟨e, he, ?_⟩
  rw [fromEntity_eq, type_of_build h]
  refine hrun.imp_left ?_
  rintro ⟨r', hrun, hfields⟩
  refine ⟨r', hrun, fun f hf => ?_⟩
  obtain ⟨c, hc⟩ := hcovers.column f hf
  obtain ⟨hreached, hkept⟩ := hfields f hf
  cases c with
  | some w => exact hreached ⟨w, hcovers.mem_placed hf hc, hc⟩
  | none =>
    have hagrees := hkept fun w _ hw => by
      rw [hc] at hw
      cases hw
    exact ⟨.ignored, Scheme.ignored_of_column? hc, hagrees⟩

end Build

end Layout

/-! ### A type of records -/

/-- Records with a field of every kind of role. -/
@[ext]
structure Station where
  id : Guid
  tag : String
  seen : Instant
  readings : Int64
  place : Json.Document
  isDraft : Bool

namespace Station

/-- The record type of stations. The setters take values of their own kind only. -/
def type : RecordType Station where
  name := "Station"
  fields :=
    [⟨"Id", .scalar .guid, [.partitionKey], .value (fun r => .guid r.id) fun r v =>
        match v with
        | .guid id => .ok { r with id }
        | _ => .error (.conversion "guid" v.kind.name)⟩,
      ⟨"Tag", .scalar .string, [.etag], .value (fun r => .string r.tag) fun r v =>
        match v with
        | .string tag => .ok { r with tag }
        | _ => .error (.conversion "string" v.kind.name)⟩,
      ⟨"Seen", .scalar .dateTime, [.timestamp], .value (fun r => .dateTime r.seen) fun r v =>
        match v with
        | .dateTime seen => .ok { r with seen }
        | _ => .error (.conversion "datetime" v.kind.name)⟩,
      ⟨"Readings", .scalar .int64, [], .value (fun r => .int64 r.readings) fun r v =>
        match v with
        | .int64 readings => .ok { r with readings }
        | _ => .error (.conversion "int64" v.kind.name)⟩,
      ⟨"Place", .nested, [.serialized "Where"],
        .document (fun r => some r.place) fun r place => some { r with place }⟩,
      ⟨"IsDraft", .scalar .bool, [.ignore], .value (fun r => .bool r.isDraft) fun r v =>
        match v with
        | .bool isDraft => .ok { r with isDraft }
        | _ => .error (.conversion "bool" v.kind.name)⟩]
  blank := ⟨.zero, "", .epoch, 0, .null, false⟩

theorem mem_fields_iff {f : Field Station} : f ∈ type.fields ↔ f = type.fields[0] ∨
    f = type.fields[1] ∨ f = type.fields[2] ∨ f = type.fields[3] ∨ f = type.fields[4] ∨
    f = type.fields[5] := by
  simp [type]

theorem isLawful_type : type.IsLawful := by
  intro f hf source target r hcopy
  rcases mem_fields_iff.1 hf with rfl | rfl | rfl | rfl | rfl | rfl
  all_goals
    obtain rfl : _ = r := Option.some.inj hcopy
    refine ⟨rfl, fun g hg hne => ?_⟩
    rcases mem_fields_iff.1 hg with rfl | rfl | rfl | rfl | rfl | rfl <;> first
      | exact absurd rfl hne
      | rfl

/-- The setters take what the getters return, and any moment. -/
theorem not_refuses {f : Field Station} (hf : f ∈ type.fields) {role : Role}
    (hrole : (Scheme.of .standard none type).role f = .ok role) (r : Station) (e : MappingError) :
    ¬f.Refuses r role e := by
  rcases mem_fields_iff.1 hf with rfl | rfl | rfl | rfl | rfl | rfl
  case inr.inr.inr.inr.inl =>
    rintro ⟨-, d, target, -, hrefused⟩
    cases hrefused
  all_goals
    obtain rfl : _ = role := Except.ok.inj hrole
    rintro ⟨target, hrefused⟩
    cases hrefused

theorem exists_build : ∃ l, Layout.build .standard none type = .ok l ∧
    (l.properties.map Column.name).Nodup := by
  have hrun : (do
      let l ← Layout.build .standard none type
      .ok (l.properties.map Column.name)) = Except.ok ["Readings", "Where"] := rfl
  obtain ⟨l, hl, hrun⟩ := bind_eq_ok_iff.1 hrun
  exact ⟨l, hl, by rw [Except.ok.inj hrun]; decide⟩

end Station

namespace Layout

/-- A station that was seen comes back unseen, and what is not stored comes back blank. -/
theorem fromEntity_toEntity_station : ∃ l e r', build .standard none Station.type = .ok l ∧
    l.toEntity ⟨.zero, "W/1", .epoch, 7, .string "x", true⟩ = .ok e ∧ l.fromEntity e = .ok r' ∧
    r' = ⟨.zero, "W/1", .firstYear, 7, .string "x", false⟩ := by
  obtain ⟨l, hl, hnames⟩ := Station.exists_build
  have hunstamped : ∀ f ∈ Station.type.fields,
      (Scheme.of .standard none Station.type).role f = .ok .timestamp →
        Station.type.KeepsSet f f.unstamped := by
    intro f hf hrole
    rcases Station.mem_fields_iff.1 hf with rfl | rfl | rfl | rfl | rfl | rfl
    case inr.inr.inl =>
      rintro get set ⟨⟩ target r' ⟨⟩
      refine ⟨rfl, fun g hg hne => ?_⟩
      rcases Station.mem_fields_iff.1 hg with rfl | rfl | rfl | rfl | rfl | rfl <;> first
        | exact absurd rfl hne
        | rfl
    all_goals cases hrole
  have hfits : ∀ f ∈ Station.type.fields, ∀ role,
      (Scheme.of .standard none Station.type).role f = .ok role → role.isStored →
        f.Fits .json role (⟨.zero, "W/1", .epoch, 7, .string "x", true⟩ : Station) := by
    intro f hf role hrole hstored
    rcases Station.mem_fields_iff.1 hf with rfl | rfl | rfl | rfl | rfl | rfl
    · exact .inl ⟨.guid, rfl, rfl⟩
    · exact .inl ⟨.string, rfl, rfl⟩
    · cases hrole
      cases hstored
    · exact .inl ⟨.int64, rfl, rfl⟩
    · exact ⟨.string "x", "\"x\"", rfl, rfl, rfl⟩
    · cases hrole
      cases hstored
  obtain ⟨e, he, ⟨r', hr, hfields⟩ | ⟨err, -, f, hf, role, hrole, hrefuses⟩⟩ :=
    fromEntity_toEntity hl hnames Station.isLawful_type hunstamped hfits
  · have hfield (f : Field Station) (hf : f ∈ Station.type.fields) (role : Role)
        (hrole : (Scheme.of .standard none Station.type).role f = .ok role) :
        f.Survives Station.type.blank ⟨.zero, "W/1", .epoch, 7, .string "x", true⟩ role r' := by
      obtain ⟨role', hrole', hsurvives⟩ := hfields f hf
      rwa [Except.ok.inj (hrole.symm.trans hrole')]
    have hmem (i : Fin 6) : Station.type.fields[i] ∈ Station.type.fields := List.getElem_mem _
    refine ⟨l, e, r', hl, he, hr, Station.ext ?_ ?_ ?_ ?_ ?_ ?_⟩
    · exact Value.guid.inj (hfield _ (hmem 0) .partitionKey rfl)
    · exact Value.string.inj (hfield _ (hmem 1) .etag rfl)
    · exact Value.dateTime.inj (hfield _ (hmem 2) .timestamp rfl)
    · exact Value.int64.inj (hfield _ (hmem 3) .regular rfl)
    · exact Option.some.inj (hfield _ (hmem 4) (.serialized "Where") rfl)
    · exact Value.bool.inj (hfield _ (hmem 5) .ignored rfl)
  · exact absurd hrefuses (Station.not_refuses hf hrole _ err)

end Layout

/-! ### A record that does not come back -/

/-- A visit, with its moment in whole seconds since 1970. -/
structure Visit where
  id : String
  seen : Nat

namespace Visit

/-- Sets the moment of a visit, which cannot be before 1970. -/
def setSeen (r : Visit) : Value → Except MappingError Visit
  | .dateTime t =>
    if 0 ≤ t.seconds then .ok { r with seen := t.seconds.toNat }
    else .error (.invalidArgument "moment before 1970")
  | v => .error (.conversion "datetime" v.kind.name)

def type : RecordType Visit where
  name := "Visit"
  fields :=
    [⟨"Id", .scalar .string, [.rowKey], .value (fun r => .string r.id) fun r v =>
        match v with
        | .string id => .ok { r with id }
        | _ => .error (.conversion "string" v.kind.name)⟩,
      ⟨"Seen", .scalar .dateTime, [.timestamp],
        .value (fun r => .dateTime { Instant.epoch with seconds := .ofNat r.seen }) setSeen⟩]
  blank := ⟨"", 0⟩

/-- A setter takes what its getter returned, of any record and on any record. -/
theorem exists_copy? {f : Field Visit} (hf : f ∈ type.fields) (source target : Visit) :
    ∃ r, f.lens.copy? source target = some r ∧ f.lens.Agrees r source ∧
      ∀ g ∈ type.fields, g ≠ f → g.lens.Agrees r target := by
  simp only [type, List.mem_cons, List.not_mem_nil, or_false] at hf
  rcases hf with rfl | rfl
  · refine ⟨{ target with id := source.id }, rfl, rfl, fun g hg hne => ?_⟩
    simp only [type, List.mem_cons, List.not_mem_nil, or_false] at hg
    exact hg.elim (fun h => absurd h hne) fun h => h ▸ rfl
  · refine ⟨{ target with seen := source.seen }, ?_, rfl, fun g hg hne => ?_⟩
    · have hseen : 0 ≤ Int.ofNat source.seen := Int.natCast_nonneg source.seen
      have hset : setSeen target (.dateTime { Instant.epoch with seconds := .ofNat source.seen }) =
          .ok { target with seen := source.seen } := by
        rw [setSeen, if_pos hseen]
        rfl
      exact congrArg Except.toOption hset
    · simp only [type, List.mem_cons, List.not_mem_nil, or_false] at hg
      exact hg.elim (fun h => h ▸ rfl) fun h => absurd h hne

end Visit

namespace Layout

def graded : Schema :=
  ⟨"Graded", [⟨"Id", .value (.scalar .string), [.partitionKey], .value (.string "")⟩,
    ⟨"Grade", .value (.enumeration (.scalar .int32)), [], .value (.int32 0)⟩]⟩

/-- The setter of a timestamp can refuse the start of the first year, although it takes all that its getter
ever returns. And a setter of named constants refuses an integer that is none, although its kind is right. -/
theorem setter_refuses :
    ((∀ f ∈ Visit.type.fields, ∀ source target, ∃ r, f.lens.copy? source target = some r ∧
        f.lens.Agrees r source ∧ ∀ g ∈ Visit.type.fields, g ≠ f → g.lens.Agrees r target) ∧
      (∀ f ∈ Visit.type.fields, ∀ r, ∃ slot, f.type.slot? = some slot ∧
        ∀ v, f.lens.Holds r v → v.kind = slot.kind) ∧
      ∃ l e, build .standard none Visit.type = .ok l ∧ l.properties = [] ∧ l.toEntity ⟨"a", 5⟩ = .ok e ∧
        l.fromEntity e = .error (.invalidArgument "moment before 1970")) ∧
    ∃ l e, build .standard none graded.recordType = .ok l ∧
      l.toEntity [.value (.string "a"), .value (.int32 7)] = .ok e ∧
      l.fromEntity e = .error (.invalidArgument "7 is not a tier") := by
  refine ⟨⟨fun f hf => Visit.exists_copy? hf, fun f hf r => ?_, _, _, rfl, rfl, rfl, rfl⟩,
    _, _, rfl, rfl, rfl⟩
  simp only [Visit.type, List.mem_cons, List.not_mem_nil, or_false] at hf
  rcases hf with rfl | rfl
  · exact ⟨.string, rfl, fun v hv => hv ▸ rfl⟩
  · exact ⟨.dateTime, rfl, fun v hv => hv ▸ rfl⟩

end Layout

end TableClient
