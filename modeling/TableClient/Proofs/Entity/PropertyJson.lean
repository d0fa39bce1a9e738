import TableClient.Entity.Json
import TableClient.Proofs.Guid
import TableClient.Proofs.Instant.Lenient
import TableClient.Proofs.Json.Reread

/-! Properties written and read back. All that is written is read as what it was but the doubles and the leap
seconds within a minute. A double that is not finite becomes an empty slot, and one that is finite becomes the
double that its text is read as; a leap second within a minute is carried into the seconds. -/

namespace TableClient

open Json (Tree Spells)

theorem Scalar.kind_inj {slot slot' : Scalar} (h : slot.kind = slot'.kind) : slot = slot' := by
  cases slot <;> cases slot' <;> first | rfl | cases h

theorem Scalar.ofTag?_tag (slot : Scalar) : ofTag? slot.tag = some slot := by
  cases slot <;> rfl

namespace Property

def valueTree : Value → Tree
  | .bool b => .bool b
  | .int32 n => .number (Json.integerText n.toInt)
  | .int64 n => .number (Json.integerText n.toInt)
  | .double x => if x.isFinite then .number (Json.numberText x) else .null
  | .string s => .string (some s)
  | .binary bytes => .array (bytes.map fun b => .number (Json.integerText b.toNat))
  | .guid g => .string (some g.toText)
  | .dateTime t => .string (some (String.ofList t.zuluText))
  | _ => .null

theorem spells_valueText (v : Value) : Spells (valueText v) (valueTree v) := by
  cases v with
  | bool b => exact .bool b
  | int32 n => exact Json.spells_integer _
  | int64 n => exact Json.spells_integer _
  | double x =>
    rw [valueText, valueTree]
    split
    next hfinite => exact Json.spells_doubleText hfinite
    next hfinite =>
      rw [Json.doubleText, if_neg hfinite]
      exact .null
  | string s => exact .string s
  | binary bytes =>
    have hbytes := Spells.array (bytes.map fun b => (Text.decimal b.toNat, .number (Json.integerText b.toNat)))
      (fun i hi => by
        obtain ⟨b, -, rfl⟩ := List.mem_map.1 hi
        exact Json.spells_integer b.toNat)
    rw [List.map_map, List.map_map] at hbytes
    exact hbytes
  | guid g => exact .string _
  | dateTime t => exact .string _
  | null => exact .null
  | list items => exact .null
  | record members => exact .null

def tree (p : Property) : Tree :=
  .object [(some "type", .string (some p.slot.tag)), (some "value", valueTree p.value)]

theorem spells_chars (p : Property) : Spells p.chars p.tree :=
  .object [("type", Json.quoted p.slot.tag, .string (some p.slot.tag)),
    ("value", valueText p.value, valueTree p.value)] (by
      rintro m (_ | ⟨_, _ | ⟨_, ⟨⟩⟩⟩)
      · exact .string _
      · exact spells_valueText _)

theorem fields?_object (tag value : Tree) :
    Tree.fields? ["type", "value"] (.object [(some "type", tag), (some "value", value)]) =
      some [some tag, some value] := by
  simp [Tree.fields?, Tree.namedMembers?, Tree.unique?]

theorem decode?_null (slot : Scalar) :
    decode? (.object [(some "type", .string (some slot.tag)), (some "value", .null)]) = some (null slot) := by
  simp [decode?, fields?_object, Tree.constant?, Scalar.ofTag?_tag]

theorem decode?_value {slot : Scalar} {t : Tree} (h : t ≠ .null) :
    decode? (.object [(some "type", .string (some slot.tag)), (some "value", t)]) =
      (decodeValue? slot t).bind (ofValue? slot) := by
  simp only [decode?, fields?_object, Tree.constant?, Option.bind_eq_bind, Option.bind_some, Option.getD_some,
    Scalar.ofTag?_tag]

theorem mapM_integerIn?_bytes (bytes : List UInt8) :
    (bytes.map fun b => Tree.number (Json.integerText b.toNat)).mapM (Tree.integerIn? 0 255) =
      some (bytes.map fun b => (b.toNat : Int)) := by
  induction bytes with
  | nil => rfl
  | cons b bytes ih =>
    have hmost : b.toNat < 256 := b.toNat_lt
    have hmin : Int64.minValue.toInt = -2 ^ 63 := rfl
    have hsize : UInt64.size = 2 ^ 64 := rfl
    have hbyte : Tree.integerIn? 0 255 (.number (Json.integerText b.toNat)) = some (b.toNat : Int) :=
      Tree.integerIn?_integerText (by omega) (by omega) (by omega) (by omega)
    simp only [List.map_cons, List.mapM_cons, hbyte, ih, Option.bind_eq_bind, Option.bind_some]
    rfl

/-- The moment in a slot, if there is one, has a year that its text can be read with. -/
def IsTimely (p : Property) : Prop :=
  ∀ t, p.value = .dateTime t → Instant.isLenientYear t.date.year

def IsFinite (p : Property) : Prop :=
  ∀ x, p.value = .double x → x.isFinite

/-- A moment in a slot is one that a clock shows. -/
def IsOnClock (p : Property) : Prop :=
  ∀ t, p.value = .dateTime t → t.IsOnClock

/-- A value other than a double is decoded as what it was, with leap seconds carried. -/
theorem decodeValue?_valueTree {slot : Scalar} {v : Value} (hkind : v.kind = slot.kind)
    (hdouble : ∀ x, v ≠ .double x) (hmoment : ∀ t, v = .dateTime t → Instant.isLenientYear t.date.year) :
    decodeValue? slot (valueTree v) = some v.carried := by
  have hslot {s : Scalar} (h : v.kind = s.kind) : slot = s := Scalar.kind_inj (hkind.symm.trans h)
  cases v with
  | bool b =>
    rw [hslot (s := .bool) rfl]
    rfl
  | int32 n =>
    have hlow := n.minValue_le_toInt
    have hhigh := n.toInt_le
    rw [hslot (s := .int32) rfl, valueTree, decodeValue?,
      Tree.integerIn?_integerText hlow hhigh (Int.le_trans (by decide) hlow) (Int.lt_of_le_of_lt hhigh (by decide)),
      Option.map_some, Int32.ofInt_toInt]
    rfl
  | int64 n =>
    have hlow := n.minValue_le_toInt
    have hhigh := n.toInt_le
    rw [hslot (s := .int64) rfl, valueTree, decodeValue?,
      Tree.integerIn?_integerText hlow hhigh hlow (Int.lt_of_le_of_lt hhigh (by decide)),
      Option.map_some, Int64.ofInt_toInt]
    rfl
  | double x => exact absurd rfl (hdouble x)
  | string s =>
    rw [hslot (s := .string) rfl]
    rfl
  | binary bytes =>
    rw [hslot (s := .binary) rfl]
    simp only [decodeValue?, valueTree, Tree.items?, Option.bind_eq_bind, Option.bind_some, mapM_integerIn?_bytes,
      List.map_map]
    congr 2
    exact List.map_id'' (fun b => by simp) bytes
  | guid g =>
    rw [hslot (s := .guid) rfl]
    simp [decodeValue?, valueTree, Tree.text?, Guid.toText, Guid.read?_hyphenated, Value.carried]
  | dateTime t =>
    rw [hslot (s := .dateTime) rfl]
    simp [decodeValue?, valueTree, Tree.text?, Instant.readLenient?_zuluText (hmoment t rfl), Value.carried]
  | null => cases slot <;> cases hkind
  | list items => cases slot <;> cases hkind
  | record members => cases slot <;> cases hkind

def ofDouble (x : Binary64) : Property := ⟨.double, .double x, .inr rfl⟩

theorem fits_carried {slot : Scalar} {v : Value} (h : v.isNull ∨ v.kind = slot.kind) :
    v.carried.isNull ∨ v.carried.kind = slot.kind := by
  cases v <;> exact h

/-- The property with a leap second within a minute carried into the seconds. -/
def carried (p : Property) : Property := ⟨p.slot, p.value.carried, fits_carried p.fits⟩

theorem carried_eq_iff {p : Property} : p.carried = p ↔ p.IsOnClock := by
  obtain ⟨slot, v, fits⟩ := p
  rw [carried, Property.mk.injEq, IsOnClock, ← Value.carried_eq_iff]
  exact and_iff_right rfl

def reread (p : Property) : Property :=
  match p.value with
  | .double x => (Json.reread? x).elim (null .double) ofDouble
  | _ => p.carried

/-- Null is written for an empty slot, and for a double that is not finite. -/
theorem valueTree_eq_null_iff (p : Property) :
    valueTree p.value = .null ↔ p.isNull ∨ ∃ x, p.value = .double x ∧ x.isFinite = false := by
  obtain ⟨slot, v, fits⟩ := p
  cases v with
  | null => simp [valueTree, isNull, Value.isNull]
  | double x => cases hfinite : x.isFinite <;> simp [valueTree, isNull, Value.isNull, hfinite]
  | list items => rcases fits with h | h <;> cases slot <;> cases h
  | record members => rcases fits with h | h <;> cases slot <;> cases h
  | _ => simp [valueTree, isNull, Value.isNull]

theorem eq_null {p : Property} (h : p.isNull) : p = null p.slot := by
  obtain ⟨slot, v, fits⟩ := p
  cases v <;> first | rfl | cases h

/-- A property with a double is the double in its slot. -/
theorem eq_ofDouble {p : Property} {x : Binary64} (h : p.value = .double x) : p = ofDouble x := by
  obtain ⟨slot, v, fits⟩ := p
  cases h
  rw [ofDouble, Property.mk.injEq]
  exact ⟨Scalar.kind_inj (fits.resolve_left nofun).symm, rfl⟩

/-- A double becomes the one that its text is read as. -/
theorem reread_ofDouble {x y : Binary64} (h : Json.reread? x = some y) : (ofDouble x).reread = ofDouble y :=
  congrArg (Option.elim · (null .double) ofDouble) h

/-- What is not finite is lost. -/
theorem reread_of_not_isFinite {x : Binary64} (h : x.isFinite = false) : (ofDouble x).reread = null .double :=
  congrArg (Option.elim · (null .double) ofDouble) (Json.reread?_of_not_isFinite h)

theorem exists_reread? {x : Binary64} (h : x.isFinite) : ∃ y, Json.reread? x = some y :=
  Option.isSome_iff_exists.1 ((Json.isSome_reread? x).trans h)

theorem reread_of_ne_double {p : Property} (h : ∀ x, p.value ≠ .double x) : p.reread = p.carried := by
  unfold reread
  split
  next x heq => exact absurd heq (h x)
  next => rfl

theorem reread_eq_iff {p : Property} : p.reread = p ↔
    (∀ x, p.value = .double x → Json.reread? x = some x) ∧ p.IsOnClock := by
  by_cases hdouble : ∃ x, p.value = .double x
  · obtain ⟨x, hx⟩ := hdouble
    obtain rfl := eq_ofDouble hx
    cases hfinite : x.isFinite with
    | true =>
      obtain ⟨y, hy⟩ := exists_reread? hfinite
      rw [reread_ofDouble hy]
      simp [ofDouble, hy, IsOnClock]
    | false =>
      rw [reread_of_not_isFinite hfinite]
      simp [ofDouble, null, Json.reread?_of_not_isFinite hfinite]
  · have hne : ∀ x, p.value ≠ .double x := fun x hx => hdouble ⟨x, hx⟩
    rw [reread_of_ne_double hne, carried_eq_iff]
    exact (and_iff_right fun x hx => absurd hx (hne x)).symm

/-- What is written for a property is read as what the property becomes. -/
theorem decode?_tree {p : Property} (h : p.IsTimely) :
    decode? p.tree = some p.reread := by
  by_cases hdouble : ∃ x, p.value = .double x
  · obtain ⟨x, hx⟩ := hdouble
    rw [eq_ofDouble hx]
    cases hfinite : x.isFinite with
    | true =>
      obtain ⟨y, hy⟩ := exists_reread? hfinite
      have hvalue : valueTree (ofDouble x).value = .number (Json.numberText x) := if_pos hfinite
      rw [reread_ofDouble hy, tree, hvalue, decode?_value (by simp), ofDouble, decodeValue?,
        ← Json.reread?_of_isFinite hfinite, hy]
      rfl
    | false =>
      have hvalue : valueTree (ofDouble x).value = .null := if_neg (by simp [hfinite])
      rw [reread_of_not_isFinite hfinite, tree, hvalue]
      exact decode?_null .double
  · have hne : ∀ x, p.value ≠ .double x := fun x hx => hdouble ⟨x, hx⟩
    rw [reread_of_ne_double hne]
    cases hnull : p.isNull with
    | true =>
      rw [eq_null hnull]
      exact decode?_null p.slot
    | false =>
      have hkind : p.value.kind = p.slot.kind := p.fits.resolve_left (Bool.eq_false_iff.1 hnull)
      have htree : valueTree p.value ≠ .null := by
        rw [ne_eq, valueTree_eq_null_iff, hnull]
        rintro (⟨⟨⟩⟩ | ⟨x, hx, -⟩)
        exact hne x hx
      rw [tree, decode?_value htree, decodeValue?_valueTree hkind hne h]
      exact dif_pos p.carried.fits

/-- A property with finite doubles and without leap seconds within a minute, so that no other property is
written like it. -/
structure IsPlain (p : Property) : Prop where
  finite : p.IsFinite
  onClock : p.IsOnClock

theorem carried_ne_double {p : Property} (h : ∀ x, p.value ≠ .double x) (x : Binary64) :
    p.carried.value ≠ .double x := by
  obtain ⟨slot, v, fits⟩ := p
  cases v with
  | double y => exact absurd rfl (h y)
  | _ => simp [carried, Value.carried]

/-- Different plain properties are written differently. -/
theorem tree_inj {p q : Property} (hp : p.IsPlain) (hq : q.IsPlain) (hptimely : p.IsTimely)
    (hqtimely : q.IsTimely) (h : p.tree = q.tree) : p = q := by
  have hreread : p.reread = q.reread := by
    have hdecode := decode?_tree hptimely
    rw [h, decode?_tree hqtimely] at hdecode
    exact (Option.some.inj hdecode).symm
  -- what is read shows whether it was a double
  have hother {p q : Property} {x : Binary64} (hx : p.value = .double x) (hfinite : x.isFinite)
      (hq : ∀ y, q.value ≠ .double y) (hreread : p.reread = q.reread) : False := by
    obtain ⟨y, hy⟩ := exists_reread? hfinite
    rw [eq_ofDouble hx, reread_ofDouble hy, reread_of_ne_double hq] at hreread
    exact carried_ne_double hq y (congrArg Property.value hreread).symm
  by_cases hpdouble : ∃ x, p.value = .double x <;> by_cases hqdouble : ∃ y, q.value = .double y
  · obtain ⟨x, hx⟩ := hpdouble
    obtain ⟨y, hy⟩ := hqdouble
    have hvalues : valueTree p.value = valueTree q.value := by
      simp only [tree, Tree.object.injEq, List.cons.injEq, Prod.mk.injEq] at h
      exact h.2.1.2
    rw [hx, hy, valueTree, valueTree, if_pos (hp.finite x hx), if_pos (hq.finite y hy)] at hvalues
    rw [eq_ofDouble hx, eq_ofDouble hy,
      Json.numberText_inj (hp.finite x hx) (hq.finite y hy) (Tree.number.inj hvalues)]
  · obtain ⟨x, hx⟩ := hpdouble
    exact (hother hx (hp.finite x hx) (not_exists.1 hqdouble) hreread).elim
  · obtain ⟨y, hy⟩ := hqdouble
    exact (hother hy (hq.finite y hy) (not_exists.1 hpdouble) hreread.symm).elim
  · rwa [reread_of_ne_double (not_exists.1 hpdouble), reread_of_ne_double (not_exists.1 hqdouble),
      carried_eq_iff.2 hp.onClock, carried_eq_iff.2 hq.onClock] at hreread

/-- An empty slot is written like no value but a double that is not finite. -/
theorem chars_eq_iff_of_isNull {p q : Property} (hslot : p.slot = q.slot) (hp : p.isNull)
    (hq : q.isNull = false) : p.chars = q.chars ↔ ∃ x, q.value = .double x ∧ x.isFinite = false := by
  constructor
  · intro h
    have htree : p.tree = q.tree := by
      have hread := p.spells_chars.read?_eq
      rw [h, q.spells_chars.read?_eq] at hread
      exact (Option.some.inj hread).symm
    simp only [tree, Tree.object.injEq, List.cons.injEq, Prod.mk.injEq] at htree
    have hnull := (valueTree_eq_null_iff p).2 (.inl hp)
    rw [htree.2.1.2, valueTree_eq_null_iff, hq] at hnull
    exact hnull.resolve_left Bool.false_ne_true
  · rintro ⟨x, hx, hfinite⟩
    have htext : valueText q.value = "null".toList := by
      rw [hx]
      exact Json.doubleText_of_not_isFinite hfinite
    rw [eq_null hp, chars, chars, htext, ← hslot]
    rfl

end Property

end TableClient
