import TableClient.Proofs.Record.KeyText

/-! Keys that are null. A key column gives back any key of its own kind. Null is written as the empty text,
which stands for the empty string in a key of texts and for nothing in any other key. So a key that is null
comes back as the empty string, or not at all. -/

namespace TableClient

variable {R : Type}

/-- A field of a declared type gives back what is in it: what the getter returned on one record can be set on
any other and is there then, and so is any value of the type's slot that could be set. -/
structure FieldType.GivesBack (type : FieldType) (get : R → Value)
    (set : R → Value → Except MappingError R) : Prop where
  set_get : ∀ source target, ∃ r, set target (get source) = .ok r ∧ get r = get source
  get_set : ∀ slot, type.slot? = some slot → ∀ target v r, v.kind = slot.kind → set target v = .ok r →
    get r = v

/-- The empty text is a key text of texts only. -/
theorem KeyType.read_empty (type : KeyType) : type.read "" =
    if type = .string then .ok (.string "") else .error (.conversion type.scalar.kind.name "key text") := by
  cases type <;> rfl

namespace Column

theorem write_empty_key {field name : String} {key : KeyType} {get : R → Value}
    {set : R → Value → Except MappingError R} (r : R) :
    write ⟨field, name, .key key get set⟩ r (some (.ofString "")) =
      if key = .string then set r (.string "") else .error (.conversion key.scalar.kind.name "key text") := by
  simp only [write, Property.string?, Property.ofString, Value.string?, KeyType.read_empty]
  split <;> rfl

/-- What a key column reads of a record is written to any other record as the same key, if the key is of the
column's kind. If it is null, the empty text is read; a key of texts takes it as the empty string, and any
other key does not take it. -/
theorem key_comes_back {typeName name : String} {f : Field R} {c : Column R} {get : R → Value}
    {set : R → Value → Except MappingError R} (h : ofKey typeName f name = .ok c)
    (hlens : f.lens = .value get set) (hback : f.type.GivesBack get set) :
    ∃ key : KeyType, f.type.slot? = some key.scalar ∧ ∀ r fresh,
      ((get r).kind = key.scalar.kind →
        ∃ p r', c.read r = .ok p ∧ c.write fresh (some p) = .ok r' ∧ get r' = get r) ∧
      (get r = .null → c.read r = .ok (.ofString "") ∧
        c.write fresh (some (.ofString "")) = (if key = .string then set fresh (.string "")
          else .error (.conversion key.scalar.kind.name "key text")) ∧
        ∀ r', c.write fresh (some (.ofString "")) = .ok r' → get r' = .string "") := by
  obtain ⟨get', set', key, hlens', htype, rfl⟩ := ofKey_eq_ok_iff.1 h
  obtain ⟨rfl, rfl⟩ := Lens.value.inj (hlens.symm.trans hlens')
  obtain ⟨slot, hslot, hkey⟩ := Option.bind_eq_some_iff.1 htype
  rw [← KeyType.scalar_of_ofScalar? hkey] at hslot
  refine ⟨key, hslot, fun r fresh => ⟨fun hkind => ?_, fun hnull => ⟨?_, write_empty_key fresh, ?_⟩⟩⟩
  · obtain ⟨text, htext, hread⟩ := KeyType.read_textOf f.name hkind
    obtain ⟨r', hset, hget⟩ := hback.set_get r fresh
    refine ⟨.ofString text, r', ?_, (write_key hread fresh).trans hset, hget⟩
    simp only [read, htext, Except.map]
  · simp only [read, hnull, KeyType.textOf, Except.map]
  · intro r' hwrite
    rw [write_empty_key] at hwrite
    split at hwrite
    next hstring =>
      subst hstring
      exact hback.get_set _ hslot fresh _ r' rfl hwrite
    next => cases hwrite

end Column

/-! ### Records with an optional key -/

/-- A record with a key of a scalar type, or none. -/
structure OptionalKey (s : Scalar) where
  key : Value
  fits : key.isNull ∨ key.kind = s.kind

namespace OptionalKey

variable {s : Scalar}

theorem null_fits (s : Scalar) : Value.null.isNull ∨ Value.null.kind = s.kind := .inl rfl

def none : OptionalKey s := ⟨.null, null_fits s⟩

/-- The setter takes values of the type and null. -/
def set (_ : OptionalKey s) (v : Value) : Except MappingError (OptionalKey s) :=
  if h : v.isNull ∨ v.kind = s.kind then .ok ⟨v, h⟩ else .error (.conversion s.kind.name v.kind.name)

def field (s : Scalar) : Field (OptionalKey s) :=
  ⟨"Key", .nullable (.scalar s), [.rowKey], .value key set⟩

theorem key_of_set {r r' : OptionalKey s} {v : Value} (h : r.set v = .ok r') : r'.key = v := by
  unfold set at h
  split at h <;> cases h
  rfl

theorem givesBack_field : (field s).type.GivesBack (key (s := s)) set where
  set_get source _ := ⟨source, dif_pos source.fits, rfl⟩
  get_set _ _ _ _ _ _ := key_of_set

end OptionalKey

/-- A number that is missing is read as the empty text, which is no number. -/
theorem Column.key_comes_back_missing :
    ∃ c, ofKey "Tag" (OptionalKey.field .int32) "RowKey" = .ok c ∧
      c.read .none = .ok (.ofString "") ∧
      c.write .none (some (.ofString "")) = .error (.conversion "int32" "key text") := by
  have hc : ofKey "Tag" (OptionalKey.field .int32) "RowKey" =
      .ok ⟨"Key", "RowKey", .key .int32 OptionalKey.key OptionalKey.set⟩ := rfl
  obtain ⟨key, hslot, hall⟩ := key_comes_back hc rfl OptionalKey.givesBack_field
  obtain ⟨hread, hwrite, -⟩ := (hall .none .none).2 rfl
  cases key <;> cases hslot
  exact ⟨_, hc, hread, hwrite⟩

/-- A text that is missing is the empty text afterwards. -/
theorem Column.null_key_becomes_text :
    ∃ (r r' : OptionalKey .string) (c : Column (OptionalKey .string)) (p : Property),
      (OptionalKey.field .string).type.GivesBack (OptionalKey.key (s := .string)) OptionalKey.set ∧
        ofKey "Tag" (OptionalKey.field .string) "RowKey" = .ok c ∧ r.key = .null ∧
        c.read r = .ok p ∧ c.write r (some p) = .ok r' ∧ r'.key = .string "" :=
  ⟨.none, ⟨.string "", .inr rfl⟩, _, .ofString "", OptionalKey.givesBack_field, rfl, rfl, rfl, rfl, rfl⟩

end TableClient
