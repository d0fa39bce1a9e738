import TableClient.Proofs.Entity.PropertyJson
import TableClient.Proofs.Keyed

/-! Entities written and read back. The keys, the tag and the names of the properties come back as they were, and
the timestamp and each property come back as they do alone. -/

namespace TableClient

open Json (Tree Spells)

namespace Entity

variable {e e' : Entity}

/-- The properties are a table, and no moment is out of the years that are written and read. -/
structure IsLawful (e : Entity) : Prop where
  sorted : Keyed.Sorted e.properties
  timestamp : ∀ t ∈ e.timestamp, Instant.isLenientYear t.date.year
  timely : ∀ p ∈ e.properties, p.2.IsTimely

/-- What is written for an entity, as the names, texts and trees of its members. -/
def members (e : Entity) : List (String × List Char × Tree) :=
  [("partition_key", Json.quoted e.partitionKey, .string (some e.partitionKey)),
    ("row_key", Json.quoted e.rowKey, .string (some e.rowKey))] ++
  (e.etag.map fun t => ("etag", Json.quoted t, Tree.string (some t))).toList ++
  (e.timestamp.map fun t => ("timestamp", Json.quoted (String.ofList t.zuluText),
    Tree.string (some (String.ofList t.zuluText)))).toList ++
  [("properties", Json.objectText (e.properties.map fun p => Json.memberText p.1 p.2.chars),
    .object (e.properties.map fun p => (some p.1, p.2.tree)))]

def tree (e : Entity) : Tree :=
  .object (e.members.map fun m => (some m.1, m.2.2))

theorem render_eq (e : Entity) :
    e.render = String.ofList (Json.objectText (e.members.map fun m => Json.memberText m.1 m.2.1)) := by
  unfold render members
  cases e.etag <;> cases e.timestamp <;> rfl

theorem spells_members (e : Entity) : ∀ m ∈ e.members, Spells m.2.1 m.2.2 := by
  have hproperties := Spells.object (e.properties.map fun p => (p.1, p.2.chars, p.2.tree)) (fun m hm => by
    obtain ⟨p, -, rfl⟩ := List.mem_map.1 hm
    exact p.2.spells_chars)
  rw [List.map_map, List.map_map] at hproperties
  intro m hm
  simp only [members, List.mem_append, List.mem_cons, List.not_mem_nil, or_false, Option.mem_toList,
    Option.map_eq_some_iff] at hm
  rcases hm with (((rfl | rfl) | ⟨t, -, rfl⟩) | ⟨t, -, rfl⟩) | rfl
  · exact .string _
  · exact .string _
  · exact .string _
  · exact .string _
  · exact hproperties

theorem tree_read? (e : Entity) : Tree.read? e.render = some e.tree := by
  rw [render_eq]
  exact (Spells.object e.members e.spells_members).read?_eq

/-- The members by their names. What has not been written is not found. -/
theorem fields?_tree (e : Entity) :
    e.tree.fields? ["partition_key", "row_key", "etag", "timestamp", "properties"] =
      some [some (.string (some e.partitionKey)), some (.string (some e.rowKey)),
        e.etag.map fun t => .string (some t),
        e.timestamp.map fun t => .string (some (String.ofList t.zuluText)),
        some (.object (e.properties.map fun p => (some p.1, p.2.tree)))] := by
  unfold tree members
  cases e.etag <;> cases e.timestamp <;> rfl

/-- What an entity becomes when it is written and read. -/
def reread (e : Entity) : Entity :=
  { e with
    timestamp := e.timestamp.map Instant.carried
    properties := e.properties.map fun p => (p.1, p.2.reread) }

theorem decodeProperties?_tree {properties : List (String × Property)} (hsorted : Keyed.Sorted properties)
    (htimely : ∀ p ∈ properties, p.2.IsTimely) :
    decodeProperties? (.object (properties.map fun p => (some p.1, p.2.tree))) =
      some (properties.map fun p => (p.1, p.2.reread)) := by
  have hnames : Tree.namedMembers? (properties.map fun p => (some p.1, p.2.tree)) =
      some (properties.map fun p => (p.1, p.2.tree)) := by
    clear hsorted htimely
    induction properties with
    | nil => rfl
    | cons p rest ih =>
      rw [Tree.namedMembers?] at ih ⊢
      simp [List.mapM_cons, ih]
  have hvalues : (properties.map fun p => (p.1, p.2.tree)).mapM
      (fun m => (Property.decode? m.2).map (m.1, ·)) = some (properties.map fun p => (p.1, p.2.reread)) := by
    clear hsorted hnames
    induction properties with
    | nil => rfl
    | cons p rest ih =>
      obtain ⟨hp, hrest⟩ := List.forall_mem_cons.1 htimely
      simp [List.mapM_cons, Property.decode?_tree hp, ih hrest]
  have hreread : Keyed.Sorted (properties.map fun p => (p.1, p.2.reread)) := List.pairwise_map.2 hsorted
  simp only [decodeProperties?, hnames, hvalues, Option.bind_eq_bind, Option.bind_some,
    Keyed.ofList_of_sorted hreread]

/-- An entity is always read back, with the same in it but for its doubles and its leap seconds. -/
theorem read?_render_eq (h : e.IsLawful) : read? e.render = some e.reread := by
  have hetag : Tree.orNull Tree.text? ((e.etag.map fun t => Tree.string (some t)).getD .null) = some e.etag := by
    cases e.etag <;> rfl
  have htimestamp : Tree.orNull decodeMoment?
      ((e.timestamp.map fun t => Tree.string (some (String.ofList t.zuluText))).getD .null) =
        some (e.timestamp.map Instant.carried) := by
    have hmoment := h.timestamp
    cases htime : e.timestamp with
    | none => rfl
    | some t => simp [Tree.orNull, decodeMoment?, Tree.text?, Instant.readLenient?_zuluText (hmoment t htime)]
  rw [read?, tree_read?, Option.bind_some, decode?, fields?_tree]
  simp only [Option.bind_eq_bind, Option.bind_some, Option.getD_some, Tree.text?, hetag, htimestamp,
    decodeProperties?_tree h.sorted h.timely]
  rfl

theorem map_carried_eq_iff {timestamp : Option Instant} :
    timestamp.map Instant.carried = timestamp ↔ ∀ t ∈ timestamp, t.IsOnClock := by
  cases timestamp with
  | none => simp
  | some t => simp [Instant.carried_eq_iff]

/-- An entity comes back as it was, if each of its doubles does and it has no leap second within a minute. -/
theorem reread_eq_iff : e.reread = e ↔
    (∀ p ∈ e.properties, ∀ x, p.2.value = .double x → Json.reread? x = some x) ∧
      (∀ t ∈ e.timestamp, t.IsOnClock) ∧ ∀ p ∈ e.properties, p.2.IsOnClock := by
  have hproperties : e.properties.map (fun p => (p.1, p.2.reread)) = e.properties ↔
      (∀ p ∈ e.properties, ∀ x, p.2.value = .double x → Json.reread? x = some x) ∧
        ∀ p ∈ e.properties, p.2.IsOnClock := by
    rw [← forall₂_and]
    conv_lhs => rw [← List.map_id e.properties, List.map_map]
    rw [List.map_inj_left]
    refine forall₂_congr fun p _ => ?_
    rw [← Property.reread_eq_iff, Function.comp_apply, id, Prod.ext_iff]
    exact and_iff_right rfl
  rw [and_left_comm, ← hproperties, ← map_carried_eq_iff]
  constructor
  · exact fun h => ⟨congrArg Entity.timestamp h, congrArg Entity.properties h⟩
  · rintro ⟨ht, hp⟩
    rw [reread, ht, hp]

/-- An entity with finite doubles and without leap seconds within a minute. -/
structure IsPlain (e : Entity) : Prop where
  timestamp : ∀ t ∈ e.timestamp, t.IsOnClock
  properties : ∀ p ∈ e.properties, p.2.IsPlain

theorem IsPlain.map_carried (h : e.IsPlain) : e.timestamp.map Instant.carried = e.timestamp :=
  map_carried_eq_iff.2 h.timestamp

theorem properties_inj {first second : List (String × Property)}
    (hfirst : ∀ p ∈ first, p.2.IsPlain ∧ p.2.IsTimely)
    (hsecond : ∀ p ∈ second, p.2.IsPlain ∧ p.2.IsTimely)
    (h : first.map (fun p => (some p.1, p.2.tree)) = second.map fun p => (some p.1, p.2.tree)) :
    first = second := by
  induction first generalizing second with
  | nil =>
    cases second with
    | nil => rfl
    | cons q rest => cases h
  | cons p first ih =>
    cases second with
    | nil => cases h
    | cons q second =>
      obtain ⟨hp, hfirst⟩ := List.forall_mem_cons.1 hfirst
      obtain ⟨hq, hsecond⟩ := List.forall_mem_cons.1 hsecond
      obtain ⟨hhead, hrest⟩ := List.cons.inj h
      obtain ⟨hname, htree⟩ := Prod.mk.inj hhead
      rw [ih hfirst hsecond hrest, Prod.ext (Option.some.inj hname) (Property.tree_inj hp.1 hq.1 hp.2 hq.2 htree)]

/-- Different plain entities are written differently. -/
theorem render_inj (h : e.IsLawful) (h' : e'.IsLawful) (hplain : e.IsPlain) (hplain' : e'.IsPlain)
    (heq : e.render = e'.render) : e = e' := by
  have htree : e.tree = e'.tree := by
    have hread := e.tree_read?
    rw [heq, e'.tree_read?] at hread
    exact (Option.some.inj hread).symm
  have hfields := e.fields?_tree
  rw [htree, e'.fields?_tree] at hfields
  have hproperties : e'.properties = e.properties := by
    simp only [Option.some.injEq, List.cons.injEq, Tree.object.injEq] at hfields
    exact properties_inj (fun p hp => ⟨hplain'.properties p hp, h'.timely p hp⟩)
      (fun p hp => ⟨hplain.properties p hp, h.timely p hp⟩) hfields.2.2.2.2.1
  have hreread : e.reread = e'.reread := by
    have hread := read?_render_eq h
    rw [heq, read?_render_eq h'] at hread
    exact (Option.some.inj hread).symm
  obtain ⟨hpartition, hrow, hetag, htimestamp, -⟩ := Entity.mk.inj hreread
  rw [hplain.map_carried, hplain'.map_carried] at htimestamp
  cases e
  cases e'
  rw [Entity.mk.injEq]
  exact ⟨hpartition, hrow, hetag, htimestamp, hproperties.symm⟩

/-- The JSON of an entity is always read, and tells different entities apart if their doubles are finite and they
have no leap seconds within a minute. The entity comes back as it was exactly if it has none of these and the text
of each double is read as this double. For this the double has to be finite, and it is enough that its digits are a
number below 2^53 with a power of ten within 22. A double that is not finite is written like the empty slot, and
nothing else is. -/
theorem read?_render (h : e.IsLawful) :
    read? e.render = some e.reread ∧
    (e.reread = e ↔ (∀ p ∈ e.properties, ∀ x, p.2.value = .double x → Json.reread? x = some x) ∧
      (∀ t ∈ e.timestamp, t.IsOnClock) ∧ ∀ p ∈ e.properties, p.2.IsOnClock) ∧
    (∀ x, (Json.reread? x).isSome = x.isFinite) ∧
    (∀ x t, Json.readNumber (Json.doubleText x) = some (t, []) → t.significand < 2 ^ 53 → t.power.natAbs ≤ 22 →
      Json.reread? x = some x) ∧
    (∀ e' : Entity, e'.IsLawful → e.IsPlain → e'.IsPlain → e.render = e'.render → e = e') ∧
    ∀ p q : Property, p.slot = q.slot → p.isNull → q.isNull = false →
      (p.chars = q.chars ↔ ∃ x, q.value = .double x ∧ x.isFinite = false) :=
  ⟨read?_render_eq h, reread_eq_iff, Json.isSome_reread?, fun _ _ => Json.reread?_of_exact,
    fun _ h' hplain hplain' => render_inj h h' hplain hplain',
    fun _ _ => Property.chars_eq_iff_of_isNull⟩

/-- A country with its area, a note that is empty, and the moment at which it was stored. -/
def spain : Entity :=
  { ofKeys "Europe" "Spain" with
    timestamp := some .epoch
    properties := [("Area", .ofDouble ⟨0x411ee21800000000⟩), ("Note", .null .string)] }

theorem isLawful_spain : spain.IsLawful where
  sorted := List.pairwise_pair.2 (by decide)
  timestamp := by
    rintro _ ⟨⟩
    decide
  timely := by
    rintro p (_ | ⟨_, _ | ⟨_, ⟨⟩⟩⟩) t ⟨⟩

theorem read?_render_spain : read? spain.render = some spain := by
  obtain ⟨hread, hsame, -, hexact, -⟩ := read?_render isLawful_spain
  rw [hread, hsame.2 ⟨?_, ?_, ?_⟩]
  · rintro p (_ | ⟨_, _ | ⟨_, ⟨⟩⟩⟩) x ⟨⟩
    exact hexact _ ⟨false, "505990".toList, some ['0'], none⟩ (by decide +kernel) (by decide) (by decide)
  · rintro _ ⟨⟩
    decide
  · rintro p (_ | ⟨_, _ | ⟨_, ⟨⟩⟩⟩) t ⟨⟩

def withDouble (x : Binary64) : Entity :=
  (ofKeys "p" "r").insert "A" (.ofDouble x)

theorem isLawful_withDouble (x : Binary64) : (withDouble x).IsLawful where
  sorted := List.pairwise_singleton _ _
  timestamp := nofun
  timely := by
    rintro p (_ | ⟨_, ⟨⟩⟩) t ⟨⟩

/-- An integer of 53 bits is read from its digits and the zero after the point, which are more than 53 bits, and
becomes the integer before it. Infinity is written like no double at all. A leap second behind 00:00:04 becomes a
moment within 00:00:05. -/
theorem double_not_read_back :
    read? (withDouble ⟨0x433fffffffffffff⟩).render = some (withDouble ⟨0x433ffffffffffffe⟩) ∧
    Binary64.sameNumber ⟨0x433fffffffffffff⟩ ⟨0x433ffffffffffffe⟩ = false ∧
    Property.chars (.ofDouble ⟨0x7ff0000000000000⟩) = Property.chars (.null .double) ∧
    read? { ofKeys "p" "r" with timestamp := some ⟨4, 1333333333, by decide⟩ }.render =
      some { ofKeys "p" "r" with timestamp := some ⟨5, 333333333, by decide⟩ } := by
  have hreread : Json.reread? ⟨0x433fffffffffffff⟩ = some ⟨0x433ffffffffffffe⟩ := by
    have hsig : (Json.numberText ⟨0x433fffffffffffff⟩).significand = 90071992547409910 := by decide +kernel
    have hpower : (Json.numberText ⟨0x433fffffffffffff⟩).power = -1 := by decide +kernel
    rw [Json.reread?_of_isFinite (by decide), Json.double?_numberText, hsig, hpower,
      Json.scale_of_neg _ (by decide) (by decide)]
    decide +kernel
  refine ⟨?_, by decide, rfl, ?_⟩
  · rw [read?_render_eq (isLawful_withDouble _)]
    exact congrArg (fun p => some (Entity.mk "p" "r" none none [("A", p)])) (Property.reread_ofDouble hreread)
  · refine read?_render_eq ⟨.nil, ?_, nofun⟩
    rintro _ ⟨⟩
    decide

end Entity

end TableClient
