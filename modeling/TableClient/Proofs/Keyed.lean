import Mathlib.Data.List.Basic
import Mathlib.Data.List.Nodup
import Mathlib.Data.List.Perm.Basic
import Mathlib.Data.String.Basic
import Mathlib.Order.Basic
import TableClient.Keyed

/-! Tables whose names are in strict order. Writing keeps the order, so that a name stands in a
table at most once and reading finds whatever entry the table has. -/

namespace TableClient.Keyed

variable {α : Type u}

def names (table : List (String × α)) : List String := table.map Prod.fst

def Sorted (table : List (String × α)) : Prop := table.Pairwise fun p q => p.1 < q.1

theorem sorted_nil : Sorted ([] : List (String × α)) := .nil

theorem mem_insert {name : String} {value : α} {table : List (String × α)} {p : String × α}
    (h : p ∈ insert name value table) : p = (name, value) ∨ p ∈ table := by
  induction table with
  | nil => exact .inl (List.mem_singleton.1 h)
  | cons q rest ih =>
    obtain ⟨k, a⟩ := q
    unfold insert at h
    split at h
    · rcases List.mem_cons.1 h with h | h
      · exact .inl h
      · exact .inr (List.mem_cons_of_mem _ h)
    · split at h
      · exact List.mem_cons.1 h
      · rcases List.mem_cons.1 h with rfl | h
        · exact .inr List.mem_cons_self
        · exact (ih h).imp_right (List.mem_cons_of_mem _)

theorem Sorted.insert {table : List (String × α)} (h : Sorted table) (name : String) (value : α) :
    Sorted (insert name value table) := by
  induction table with
  | nil => exact List.pairwise_singleton _ _
  | cons q rest ih =>
    obtain ⟨k, a⟩ := q
    obtain ⟨hhead, hrest⟩ := List.pairwise_cons.1 h
    unfold Keyed.insert
    split
    next same =>
      subst same
      exact List.pairwise_cons.2 ⟨hhead, hrest⟩
    next hne =>
      split
      next hlt =>
        refine List.pairwise_cons.2 ⟨fun p hp => ?_, h⟩
        rcases List.mem_cons.1 hp with rfl | hp
        · exact hlt
        · exact hlt.trans (hhead p hp)
      next hnlt =>
        refine List.pairwise_cons.2 ⟨fun p hp => ?_, ih hrest⟩
        rcases mem_insert hp with rfl | hp
        · exact lt_of_le_of_ne (not_lt.1 hnlt) (Ne.symm hne)
        · exact hhead p hp

/-- No name stands in the table twice. -/
theorem Sorted.nodup_names {table : List (String × α)} (h : Sorted table) : (names table).Nodup :=
  List.pairwise_map.2 (h.imp ne_of_lt)

theorem mem_of_find? {name : String} {a : α} {table : List (String × α)}
    (h : find? name table = some a) : (name, a) ∈ table := by
  induction table with
  | nil => cases h
  | cons p rest ih =>
    obtain ⟨k, b⟩ := p
    rw [find?] at h
    split at h
    next heq =>
      cases h
      rw [heq]
      exact List.mem_cons_self
    next => exact List.mem_cons_of_mem _ (ih h)

theorem find?_isSome_iff {name : String} {table : List (String × α)} :
    (find? name table).isSome ↔ name ∈ names table := by
  induction table with
  | nil => simp [find?, names]
  | cons q rest ih =>
    obtain ⟨k, a⟩ := q
    unfold find?
    split
    next same => simp [names, same]
    next hne => simp [ih, names, Ne.symm hne]

/-- A name that stands only once is found with its own entry. -/
theorem find?_eq_some_iff {name : String} {table : List (String × α)}
    (h : (names table).count name ≤ 1) {a : α} : find? name table = some a ↔ (name, a) ∈ table := by
  refine ⟨mem_of_find?, fun hmem => ?_⟩
  induction table with
  | nil => cases hmem
  | cons p rest ih =>
    obtain ⟨k, b⟩ := p
    have hcount : (names rest).count name + (if k == name then 1 else 0) ≤ 1 := by
      rwa [← List.count_cons]
    rw [find?]
    rcases List.mem_cons.1 hmem with hsame | hmem
    · cases hsame
      rw [if_pos rfl]
    · have hpos : 0 < (names rest).count name := List.count_pos_iff.2 (List.mem_map_of_mem hmem)
      have hne : k ≠ name := by
        rintro rfl
        rw [if_pos (beq_self_eq_true k)] at hcount
        omega
      rw [if_neg hne, ih (by omega) hmem]

/-! ### Order of writing -/

/-- Writing under a new name adds one entry to the table. -/
theorem perm_insert {name : String} {value : α} {table : List (String × α)}
    (h : name ∉ names table) : (insert name value table).Perm ((name, value) :: table) := by
  induction table with
  | nil => exact .refl _
  | cons q rest ih =>
    obtain ⟨k, a⟩ := q
    obtain ⟨hne, hrest⟩ := not_or.1 (mt List.mem_cons.2 h)
    rw [insert, if_neg hne]
    split
    · exact .refl _
    · exact ((ih hrest).cons (k, a)).trans (.swap _ _ _)

/-- In one set of entries there is one order. -/
theorem Sorted.eq_of_perm {table other : List (String × α)} (h : Sorted table) (h' : Sorted other)
    (hperm : table.Perm other) : table = other :=
  hperm.eq_of_pairwise (fun _ _ _ _ hlt hgt => absurd hgt (lt_asymm hlt)) h h'

/-- What is found in a table says what is in it. -/
theorem Sorted.ext {table other : List (String × α)} (h : Sorted table) (h' : Sorted other)
    (hfind : ∀ name, find? name table = find? name other) : table = other := by
  have hnodup {t : List (String × α)} (ht : Sorted t) : t.Nodup := ht.nodup_names.of_map _
  refine h.eq_of_perm h' ((List.perm_ext_iff_of_nodup (hnodup h) (hnodup h')).2 fun p => ?_)
  rw [← find?_eq_some_iff (List.nodup_iff_count_le_one.1 h.nodup_names p.1), hfind,
    find?_eq_some_iff (List.nodup_iff_count_le_one.1 h'.nodup_names p.1)]

/-- Where each name stands once, the order of the entries does not matter. -/
theorem find?_perm {table other : List (String × α)} (h : (names table).Nodup)
    (hperm : table.Perm other) (name : String) : find? name table = find? name other := by
  have h' : (names other).Nodup := (hperm.map Prod.fst).nodup_iff.1 h
  ext a
  rw [find?_eq_some_iff (List.nodup_iff_count_le_one.1 h name),
    find?_eq_some_iff (List.nodup_iff_count_le_one.1 h' name)]
  exact hperm.mem_iff

/-! ### Tables with other values -/

theorem names_map_value {β : Type u} (f : α → β) (table : List (String × α)) :
    names (table.map fun p => (p.1, f p.2)) = names table := by
  simp [names]

theorem find?_map_value {β : Type u} (f : α → β) (name : String) (table : List (String × α)) :
    find? name (table.map fun p => (p.1, f p.2)) = (find? name table).map f := by
  induction table with
  | nil => rfl
  | cons p rest ih =>
    rw [List.map_cons, find?, find?, ih]
    split <;> rfl

/-- Taking other names out of a table does not change what is found. -/
theorem find?_filter {keep : String → Bool} {name : String} (h : keep name)
    (table : List (String × α)) : find? name (table.filter (keep ·.1)) = find? name table := by
  induction table with
  | nil => rfl
  | cons p rest ih =>
    obtain ⟨k, a⟩ := p
    rw [List.filter_cons]
    split
    · rw [find?, find?, ih]
    next hk =>
      have hne : k ≠ name := by
        rintro rfl
        exact hk h
      rw [find?, if_neg hne, ih]

/-! ### Tables written from lists -/

theorem find?_foldl_insert (name : String) (pairs table : List (String × α)) :
    find? name (pairs.foldl (fun t p => insert p.1 p.2 t) table) =
      (find? name (ofList pairs)).or (find? name table) := by
  induction pairs generalizing table with
  | nil => rfl
  | cons p rest ih =>
    have hfirst : ofList (p :: rest) = rest.foldl (fun t p => insert p.1 p.2 t) [p] := rfl
    rw [List.foldl_cons, ih, hfirst, ih, Option.or_assoc, find?_insert, find?, find?]
    split <;> rfl

/-- Of two lists written one after the other, the second one counts. -/
theorem find?_ofList_append (name : String) (first second : List (String × α)) :
    find? name (ofList (first ++ second)) =
      (find? name (ofList second)).or (find? name (ofList first)) := by
  rw [ofList, List.foldl_append]
  exact find?_foldl_insert name second _

/-- A name that stands only once in a list is found in the table as in the list. -/
theorem find?_ofList {name : String} {pairs : List (String × α)} (h : (names pairs).count name ≤ 1) :
    find? name (ofList pairs) = find? name pairs := by
  induction pairs with
  | nil => rfl
  | cons p rest ih =>
    obtain ⟨k, a⟩ := p
    have hcount : (names rest).count name + (if k == name then 1 else 0) ≤ 1 := by
      rwa [← List.count_cons]
    have hfirst : find? name (ofList [(k, a)]) = if k = name then some a else none := by
      rw [ofList, List.foldl_cons, List.foldl_nil, find?_insert, find?]
    rw [← List.singleton_append, find?_ofList_append, ih (by omega), hfirst, List.singleton_append,
      find?]
    split
    next same =>
      subst same
      rw [if_pos (beq_self_eq_true k)] at hcount
      have hfresh : k ∉ names rest := List.count_eq_zero.1 (by omega)
      have hnone : find? k rest = none := by
        rwa [← Option.not_isSome_iff_eq_none, find?_isSome_iff]
      rw [hnone, Option.none_or]
    next => exact Option.or_none

theorem insert_of_forall_lt {name : String} {value : α} {table : List (String × α)}
    (h : ∀ p ∈ table, p.1 < name) : insert name value table = table ++ [(name, value)] := by
  induction table with
  | nil => rfl
  | cons p rest ih =>
    obtain ⟨k, a⟩ := p
    obtain ⟨hfirst, hrest⟩ := List.forall_mem_cons.1 h
    rw [insert, if_neg (ne_of_gt hfirst), if_neg (not_lt_of_gt hfirst), ih hrest, List.cons_append]

/-- Writing a table's entries in their order gives the table. -/
theorem ofList_of_sorted {table : List (String × α)} (h : Sorted table) : ofList table = table := by
  have hwritten (first second : List (String × α)) (hsorted : Sorted (first ++ second)) :
      second.foldl (fun t p => insert p.1 p.2 t) first = first ++ second := by
    induction second generalizing first with
    | nil => rw [List.foldl_nil, List.append_nil]
    | cons p rest ih =>
      have hbefore : ∀ q ∈ first, q.1 < p.1 := fun q hq =>
        (List.pairwise_append.1 hsorted).2.2 q hq p List.mem_cons_self
      rw [List.foldl_cons, insert_of_forall_lt hbefore, ih, List.append_assoc, List.singleton_append]
      rwa [List.append_assoc, List.singleton_append]
  exact hwritten [] table h

end TableClient.Keyed
