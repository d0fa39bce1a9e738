import TableClient.Proofs.Guid
import TableClient.Proofs.Outcome
import TableClient.Proofs.Text.Digits
import TableClient.Record.Column

/-! Columns read and written back. Where setting what a getter returned restores the field and no
other, so does writing what a column read: a value in a slot of its own kind, a value as key text, a
document as the text that the format gives and takes. -/

namespace TableClient

variable {R : Type}

/-! ### Values in slots and in keys -/

theorem Value.isNull_iff {v : Value} : v.isNull ↔ v = .null := by
  cases v <;> simp [isNull]

/-- A value of a slot's own kind is put into it as it is. -/
theorem Property.coerce_of_fits (field : String) {slot : Scalar} {v : Value}
    (h : v.isNull ∨ v.kind = slot.kind) : coerce field slot v = .ok ⟨slot, v, h⟩ := by
  cases slot <;> cases v <;> first
    | rfl
    | exact absurd h (by simp [Value.isNull, Value.kind, Scalar.kind])

/-- What a slot of texts holds is told by its text, if there is one. -/
theorem Property.elim_string? {p : Property} (h : p.slot = .string) :
    (p.string?.map ofString).elim .null Property.value = p.value := by
  obtain ⟨slot, v, hfits⟩ := p
  obtain rfl : slot = .string := h
  cases v <;> first
    | rfl
    | exact absurd hfits (by simp [Value.isNull, Value.kind, Scalar.kind])

namespace KeyType

/-- The key text of a value of the key's own kind stands for the value. -/
theorem read_textOf (field : String) {type : KeyType} {v : Value} (h : v.kind = type.scalar.kind) :
    ∃ text, textOf field v = .ok text ∧ type.read text = .ok v := by
  cases type with
  | string =>
    cases v with
    | string s => exact ⟨s, rfl, by simp [read, read?]⟩
    | _ => cases h
  | guid =>
    cases v with
    | guid g => exact ⟨g.toText, rfl, by simp [read, read?, Guid.toText, Guid.read?_hyphenated]⟩
    | _ => cases h
  | int32 =>
    cases v with
    | int32 n => exact ⟨_, rfl, by simp [read, read?, Text.readInt32?_integer]⟩
    | _ => cases h
  | int64 =>
    cases v with
    | int64 n => exact ⟨_, rfl, by simp [read, read?, Text.readInt64?_integer]⟩
    | _ => cases h

end KeyType

/-! ### Lawful lenses -/

namespace Lens

def Agrees (lens : Lens R) (r r' : R) : Prop :=
  match lens with
  | .value get _ => get r = get r'
  | .document get _ => get r = get r'

def Holds (lens : Lens R) (r : R) (v : Value) : Prop :=
  match lens with
  | .value get _ => get r = v
  | .document .. => False

/-- Sets on a record what the getter returned on another. -/
def copy? (lens : Lens R) (source target : R) : Option R :=
  match lens with
  | .value get set => (set target (get source)).toOption
  | .document get set => (get source).bind (set target)

theorem Agrees.refl (lens : Lens R) (r : R) : lens.Agrees r r := by
  cases lens <;> rfl

theorem Agrees.trans {lens : Lens R} {r₁ r₂ r₃ : R} (h : lens.Agrees r₁ r₂) (h' : lens.Agrees r₂ r₃) :
    lens.Agrees r₁ r₃ := by
  cases lens <;> exact Eq.trans h h'

theorem Agrees.holds {lens : Lens R} {r r' : R} {v : Value} (h : lens.Agrees r r')
    (h' : lens.Holds r' v) : lens.Holds r v := by
  cases lens with
  | value => exact Eq.trans h h'
  | document => exact h'

end Lens

/-- Setting what the getter of a field returned, where the setter takes it, restores that field and changes no
other. -/
def RecordType.IsLawful (type : RecordType R) : Prop :=
  ∀ f ∈ type.fields, ∀ source target r, f.lens.copy? source target = some r →
    f.lens.Agrees r source ∧ ∀ g ∈ type.fields, g ≠ f → g.lens.Agrees r target

/-- Setting a field to a value, where the setter takes it, gives the field this value and changes no other. -/
def RecordType.KeepsSet (type : RecordType R) (f : Field R) (v : Value) : Prop :=
  ∀ get set, f.lens = .value get set → ∀ target r, set target v = .ok r →
    get r = v ∧ ∀ g ∈ type.fields, g ≠ f → g.lens.Agrees r target

/-- A change of records that brings a field to a goal and changes no other, or is refused. -/
structure RecordType.Reaches (type : RecordType R) (change : R → Except MappingError R) (f : Field R)
    (goal : R → Prop) (refusal : MappingError → Prop) : Prop where
  done : ∀ target r, change target = .ok r → goal r ∧ ∀ g ∈ type.fields, g ≠ f → g.lens.Agrees r target
  refused : ∀ target e, change target = .error e → refusal e

namespace RecordType

variable {type : RecordType R} {f : Field R}

theorem IsLawful.set_value (h : type.IsLawful) (hf : f ∈ type.fields) {get : R → Value}
    {set : R → Value → Except MappingError R} (hlens : f.lens = .value get set) (source : R) :
    type.Reaches (set · (get source)) f (f.lens.Agrees · source)
      (fun e => ∃ target, set target (get source) = .error e) where
  done target r hset := by
    refine h f hf source target r ?_
    rw [hlens, Lens.copy?, hset]
    rfl
  refused target e hset := ⟨target, hset⟩

theorem KeepsSet.set_value {v : Value} (h : type.KeepsSet f v) {get : R → Value}
    {set : R → Value → Except MappingError R} (hlens : f.lens = .value get set) :
    type.Reaches (set · v) f (f.lens.Holds · v) (fun e => ∃ target, set target v = .error e) where
  done target r hset := by
    rw [hlens]
    exact h get set hlens target r hset
  refused target e hset := ⟨target, hset⟩

theorem IsLawful.set_document (h : type.IsLawful) (hf : f ∈ type.fields)
    {get : R → Option Json.Document} {set : R → Json.Document → Option R}
    (hlens : f.lens = .document get set) {source : R} {d : Json.Document} (hd : get source = some d)
    (e : MappingError) : type.Reaches (fun r => (set r d).elim (.error e) .ok) f (f.lens.Agrees · source)
      (fun e' => e' = e ∧ ∃ target, set target d = none) where
  done target r hset := by
    refine h f hf source target r ?_
    rw [hlens, Lens.copy?, hd, Option.bind_some]
    cases htaken : set target d with
    | none => simp [htaken] at hset
    | some r' => simpa [htaken] using hset
  refused target e' hset := by
    cases htaken : set target d with
    | none => exact ⟨by simpa [htaken] using hset.symm, target, htaken⟩
    | some r' => simp [htaken] at hset

theorem Reaches.mono {change : R → Except MappingError R} {goal goal' : R → Prop}
    {refusal refusal' : MappingError → Prop} (h : type.Reaches change f goal refusal)
    (hgoal : ∀ r, goal r → goal' r) (hrefusal : ∀ e, refusal e → refusal' e) :
    type.Reaches change f goal' refusal' where
  done target r hset := (h.done target r hset).imp_left (hgoal r)
  refused target e hset := hrefusal e (h.refused target e hset)

end RecordType

/-! ### Writing what was read -/

namespace Column

theorem writeValue_eq_set {slot : Scalar} {nullable : Bool} {v : Value} (h : v.isNull → nullable)
    (set : R → Value → Except MappingError R) (r : R) : writeValue slot nullable set r v = set r v := by
  unfold writeValue
  split
  next hnull => rw [if_pos (h hnull), Value.isNull_iff.1 hnull]
  · rfl

/-- An empty slot for a moment is set to null, or else to the start of the first year. -/
theorem writeValue_null_dateTime (nullable : Bool) (set : R → Value → Except MappingError R) (r : R) :
    writeValue .dateTime nullable set r .null =
      set r (if nullable then .null else .dateTime .firstYear) := by
  cases nullable <;> rfl

/-- The value that a slot holds or lacks is written as it is. -/
theorem write_property {field name : String} {slot : Scalar} {nullable : Bool} {get : R → Value}
    {set : R → Value → Except MappingError R} {p : Option Property} {v : Value}
    (hp : p.elim .null Property.value = v) (hv : v.isNull ∨ v.kind = slot.kind) (r : R) :
    write ⟨field, name, .property slot nullable get set⟩ r p = writeValue slot nullable set r v := by
  cases p with
  | none =>
    subst hp
    rfl
  | some p =>
    change p.value = v at hp
    simp only [write, hp, Property.coerce_of_fits field hv, ok_bind]

theorem write_key {field name text : String} {type : KeyType} {get : R → Value}
    {set : R → Value → Except MappingError R} {v : Value} (h : type.read text = .ok v) (r : R) :
    write ⟨field, name, .key type get set⟩ r (some (.ofString text)) = set r v := by
  simp only [write, Property.string?, Property.ofString, Value.string?, h, ok_bind]

theorem write_payload {field name text : String} {format : PayloadFormat}
    {get : R → Option Json.Document} {set : R → Json.Document → Option R} {d : Json.Document}
    (hd : format.decode text = some d) (r : R) :
    write ⟨field, name, .payload format get set⟩ r (some (.ofString text)) =
      (set r d).elim (.error (.serialization field)) .ok := by
  simp only [write, Property.string?, Property.ofString, Value.string?, writePayload, hd,
    Option.bind_some, if_true]
  cases set r d <;> rfl

end Column

end TableClient
