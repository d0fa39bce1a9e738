import Mathlib.Data.List.Induction
import TableClient.Batch.Partitioner

/-! The groups of a list of operations as a whole: the operations of each key, in their order, cut
after every so many. Full groups come in the order of their last operations, and the others after
them in the order of their first.

As the list grows, one more operation either joins what its key has left open, or begins a new group;
where the key then has as many as the cap, the group is full and leaves the open ones. Of each key, what
is open is always the end of its operations, and the full groups before it are the rest. -/

namespace TableClient

namespace Grouping

/-! ### The groups of a list -/

/-- The operations of one partition key. -/
def ofKey (key : String) (operations : List Operation) : List Operation :=
  operations.filter (·.partitionKey = key)

/-- The group that an operation fills, given the operations before it. -/
def filledBy? (cap : Nat) (before : List Operation) (op : Operation) : Option OperationGroup :=
  let mine := ofKey op.partitionKey before ++ [op]
  if mine.length % cap = 0 then some ⟨op.partitionKey, mine.drop (mine.length - cap)⟩ else none

/-- The full groups, by their last operations. -/
def full (cap : Nat) (before : List Operation) : List Operation → List OperationGroup
  | [] => []
  | op :: rest => (filledBy? cap before op).toList ++ full cap (before ++ [op]) rest

/-- The group that an operation begins and that is never filled, given the operations before and
after it. -/
def openedBy? (cap : Nat) (before : List Operation) (op : Operation) (after : List Operation) :
    Option OperationGroup :=
  let mine := op :: ofKey op.partitionKey after
  if (ofKey op.partitionKey before).length % cap = 0 ∧ mine.length < cap then
    some ⟨op.partitionKey, mine⟩
  else none

/-- The groups that are never filled, by their first operations. -/
def partials (cap : Nat) (before : List Operation) : List Operation → List OperationGroup
  | [] => []
  | op :: rest => (openedBy? cap before op rest).toList ++ partials cap (before ++ [op]) rest

/-- All groups of a list of operations. -/
def groups (cap : Nat) (operations : List Operation) : List OperationGroup :=
  full cap [] operations ++ partials cap [] operations

end Grouping

namespace OperationGroup

@[simp] theorem partitionKey_push (g : OperationGroup) (op : Operation) :
    (g.push op).partitionKey = g.partitionKey := rfl

@[simp] theorem operations_push (g : OperationGroup) (op : Operation) :
    (g.push op).operations = g.operations ++ [op] := rfl

@[simp] theorem size_push (g : OperationGroup) (op : Operation) : (g.push op).size = g.size + 1 := by
  simp [size]

@[simp] theorem size_nil (key : String) : (⟨key, []⟩ : OperationGroup).size = 0 := rfl

end OperationGroup

namespace Grouping

variable {cap : Nat} {key : String} {op : Operation} {before ops : List Operation}

/-! ### The operations of a key -/

@[simp] theorem ofKey_nil (key : String) : ofKey key [] = [] := rfl

@[simp] theorem ofKey_append (key : String) (ops rest : List Operation) :
    ofKey key (ops ++ rest) = ofKey key ops ++ ofKey key rest :=
  List.filter_append ..

@[simp] theorem ofKey_singleton_self (op : Operation) : ofKey op.partitionKey [op] = [op] := by
  simp [ofKey]

theorem ofKey_singleton_of_ne (h : op.partitionKey ≠ key) : ofKey key [op] = [] := by
  simp [ofKey, h]

/-- The operations of a key that came after its last full group. -/
def current (cap : Nat) (key : String) (ops : List Operation) : OperationGroup :=
  ⟨key, (ofKey key ops).drop ((ofKey key ops).length - (ofKey key ops).length % cap)⟩

@[simp] theorem partitionKey_current (cap : Nat) (key : String) (ops : List Operation) :
    (current cap key ops).partitionKey = key := rfl

@[simp] theorem size_current (cap : Nat) (key : String) (ops : List Operation) :
    (current cap key ops).size = (ofKey key ops).length % cap := by
  have hle := Nat.mod_le (ofKey key ops).length cap
  simp only [current, OperationGroup.size, List.length_drop]
  omega

theorem size_current_lt (hcap : 0 < cap) (key : String) (ops : List Operation) :
    (current cap key ops).size < cap := by
  rw [size_current]
  exact Nat.mod_lt _ hcap

theorem current_append_of_ne (h : op.partitionKey ≠ key) :
    current cap key (ops ++ [op]) = current cap key ops := by
  simp [current, ofKey_singleton_of_ne h]

theorem succ_mod_of_lt {n cap : Nat} (h : n % cap + 1 < cap) : (n + 1) % cap = n % cap + 1 := by
  rw [← Nat.mod_add_mod, Nat.mod_eq_of_lt h]

theorem succ_mod_of_eq {n cap : Nat} (h : n % cap + 1 = cap) : (n + 1) % cap = 0 := by
  rw [← Nat.mod_add_mod, h, Nat.mod_self]

/-- An operation that does not fill the group of its key comes to stand at its end. -/
theorem current_append_of_lt (h : (current cap op.partitionKey ops).size + 1 < cap) :
    current cap op.partitionKey (ops ++ [op]) = (current cap op.partitionKey ops).push op := by
  rw [size_current] at h
  have hle := Nat.mod_le (ofKey op.partitionKey ops).length cap
  simp only [current, OperationGroup.push, ofKey_append, ofKey_singleton_self, List.length_append,
    List.length_singleton, succ_mod_of_lt h]
  rw [Nat.add_sub_add_right, List.drop_append_of_le_length (by omega)]

/-- After an operation that fills the group of its key, nothing of the key is open. -/
theorem current_append_of_full (h : (current cap op.partitionKey ops).size + 1 = cap) :
    current cap op.partitionKey (ops ++ [op]) = ⟨op.partitionKey, []⟩ := by
  rw [size_current] at h
  simp only [current, ofKey_append, ofKey_singleton_self, List.length_append,
    List.length_singleton, succ_mod_of_eq h]
  simp

/-! ### Full groups -/

theorem filledBy?_eq (hcap : 0 < cap) (before : List Operation) (op : Operation) :
    filledBy? cap before op =
      if (current cap op.partitionKey before).size + 1 = cap then
        some ((current cap op.partitionKey before).push op)
      else none := by
  simp only [filledBy?, size_current, List.length_append, List.length_singleton]
  set mine := ofKey op.partitionKey before with hmine
  have hle := Nat.mod_le mine.length cap
  have hlt := Nat.mod_lt mine.length hcap
  by_cases hfull : mine.length % cap + 1 = cap
  · rw [if_pos (succ_mod_of_eq hfull), if_pos hfull]
    simp only [current, OperationGroup.push, ← hmine]
    rw [List.drop_append_of_le_length (by omega)]
    congr 4
    omega
  · have hne : (mine.length + 1) % cap ≠ 0 := by
      rw [succ_mod_of_lt (by omega)]
      omega
    rw [if_neg hne, if_neg hfull]

theorem full_append (cap : Nat) (before ops rest : List Operation) :
    full cap before (ops ++ rest) = full cap before ops ++ full cap (before ++ ops) rest := by
  induction ops generalizing before with
  | nil => simp [full]
  | cons x ops ih => simp [full, ih]

theorem full_append_singleton (cap : Nat) (before ops : List Operation) (op : Operation) :
    full cap before (ops ++ [op]) =
      full cap before ops ++ (filledBy? cap (before ++ ops) op).toList := by
  rw [full_append, full, full, List.append_nil]

/-! ### Open groups -/

/-- What stays open of an open group when one more operation arrives. -/
def remain? (cap : Nat) (op : Operation) (g : OperationGroup) : Option OperationGroup :=
  if g.partitionKey = op.partitionKey then
    if g.size + 1 < cap then some (g.push op) else none
  else some g

theorem remain?_of_ne {g : OperationGroup} (h : g.partitionKey ≠ op.partitionKey) :
    remain? cap op g = some g :=
  if_neg h

theorem remain?_of_eq {g : OperationGroup} (h : g.partitionKey = op.partitionKey) :
    remain? cap op g = if g.size + 1 < cap then some (g.push op) else none :=
  if_pos h

theorem partitionKey_of_remain? {g g' : OperationGroup} (h : remain? cap op g = some g') :
    g'.partitionKey = g.partitionKey := by
  unfold remain? at h
  split at h
  · split at h
    · cases h; rfl
    · cases h
  · cases h; rfl

theorem openedBy?_append_singleton (cap : Nat) (before : List Operation) (first : Operation)
    (after : List Operation) (op : Operation) :
    openedBy? cap before first (after ++ [op]) =
      (openedBy? cap before first after).bind (remain? cap op) := by
  by_cases hkey : first.partitionKey = op.partitionKey
  · have hafter : ofKey first.partitionKey (after ++ [op]) = ofKey first.partitionKey after ++ [op] := by
      rw [ofKey_append, hkey, ofKey_singleton_self]
    simp only [openedBy?, hafter, List.length_cons, List.length_append, List.length_nil]
    by_cases hopen : (ofKey first.partitionKey before).length % cap = 0 ∧
        (ofKey first.partitionKey after).length + 1 < cap
    · rw [if_pos hopen, Option.bind_some, remain?_of_eq hkey]
      by_cases hmore : (ofKey first.partitionKey after).length + 1 + 1 < cap
      · simp [hopen.1, hmore, OperationGroup.size, OperationGroup.push]
      · simp [hmore, OperationGroup.size]
    · rw [if_neg hopen, if_neg (by omega)]
      rfl
  · have hother : ofKey first.partitionKey [op] = [] := ofKey_singleton_of_ne (Ne.symm hkey)
    simp only [openedBy?, ofKey_append, hother, List.append_nil]
    split
    · exact (remain?_of_ne hkey).symm
    · rfl

/-- Adding an operation at the end changes the open groups one by one, and may begin another. -/
theorem partials_append_singleton (cap : Nat) (before ops : List Operation) (op : Operation) :
    partials cap before (ops ++ [op]) =
      (partials cap before ops).filterMap (remain? cap op) ++
        (openedBy? cap (before ++ ops) op []).toList := by
  induction ops generalizing before with
  | nil => simp [partials]
  | cons x rest ih =>
    have hhead : (openedBy? cap before x (rest ++ [op])).toList =
        (openedBy? cap before x rest).toList.filterMap (remain? cap op) := by
      rw [openedBy?_append_singleton]
      cases openedBy? cap before x rest with
      | none => rfl
      | some g => cases h : remain? cap op g <;> simp [h]
    simp only [List.cons_append, partials, ih, hhead, List.filterMap_append, List.append_assoc,
      List.nil_append]

/-- The open groups, with a new one for the key of an operation that has none. -/
def withGroupOf (cap : Nat) (ops : List Operation) (op : Operation) : List OperationGroup :=
  partials cap [] ops ++
    if (current cap op.partitionKey ops).size = 0 then [⟨op.partitionKey, []⟩] else []

/-- What is open after one more operation. -/
theorem partials_next (cap : Nat) (ops : List Operation) (op : Operation) :
    partials cap [] (ops ++ [op]) = (withGroupOf cap ops op).filterMap (remain? cap op) := by
  rw [partials_append_singleton, withGroupOf, List.filterMap_append, List.nil_append]
  congr 1
  by_cases hzero : (current cap op.partitionKey ops).size = 0
  · rw [if_pos hzero]
    rw [size_current] at hzero
    by_cases hcap : 1 < cap
    · simp [openedBy?, remain?, hzero, hcap, OperationGroup.size, OperationGroup.push]
    · simp [openedBy?, remain?, hcap, OperationGroup.size]
  · rw [if_neg hzero]
    rw [size_current] at hzero
    simp [openedBy?, hzero]

theorem filter_filterMap_remain? (key : String) (op : Operation) (gs : List OperationGroup) :
    (gs.filterMap (remain? cap op)).filter (·.partitionKey = key) =
      (gs.filter (·.partitionKey = key)).filterMap (remain? cap op) := by
  induction gs with
  | nil => rfl
  | cons g gs ih =>
    by_cases hg : g.partitionKey = key
    · cases h : remain? cap op g with
      | none => simp [hg, h, ih]
      | some g' => simp [hg, h, ih, partitionKey_of_remain? h]
    · cases h : remain? cap op g with
      | none => simp [hg, h, ih]
      | some g' => simp [hg, h, ih, partitionKey_of_remain? h]

def openOf? (cap : Nat) (key : String) (ops : List Operation) : Option OperationGroup :=
  if (current cap key ops).size = 0 then none else some (current cap key ops)

theorem current_eq_of_size_eq_zero (h : (current cap key ops).size = 0) :
    current cap key ops = ⟨key, []⟩ := by
  have hnil : (current cap key ops).operations = [] := List.length_eq_zero_iff.1 h
  exact congrArg (OperationGroup.mk key) hnil

/-- An operation is put at the end of what its key is at, unless that is filled by it. -/
theorem openOf?_append_self (hcap : 0 < cap) (ops : List Operation) (op : Operation) :
    openOf? cap op.partitionKey (ops ++ [op]) =
      remain? cap op (current cap op.partitionKey ops) := by
  have hlt := size_current_lt hcap op.partitionKey ops
  rw [remain?_of_eq rfl]
  by_cases hmore : (current cap op.partitionKey ops).size + 1 < cap
  · have hsize : ((current cap op.partitionKey ops).push op).size ≠ 0 := by simp
    rw [if_pos hmore, openOf?, current_append_of_lt hmore, if_neg hsize]
  · rw [if_neg hmore, openOf?, current_append_of_full (by omega)]
    rfl

/-- Once a new group is there, the key of an operation has exactly one among the open ones. -/
theorem filter_withGroupOf (h : (partials cap [] ops).filter (·.partitionKey = op.partitionKey) =
      (openOf? cap op.partitionKey ops).toList) :
    (withGroupOf cap ops op).filter (·.partitionKey = op.partitionKey) =
      [current cap op.partitionKey ops] := by
  rw [withGroupOf, List.filter_append, h, openOf?]
  by_cases hzero : (current cap op.partitionKey ops).size = 0
  · rw [if_pos hzero, if_pos hzero, current_eq_of_size_eq_zero hzero]
    simp
  · rw [if_neg hzero, if_neg hzero]
    rfl

/-- Of each key at most one group is open, and it holds the end of the operations of the key. -/
theorem filter_partials (hcap : 0 < cap) (key : String) (ops : List Operation) :
    (partials cap [] ops).filter (·.partitionKey = key) = (openOf? cap key ops).toList := by
  induction ops using List.reverseRecOn generalizing key with
  | nil => rfl
  | append_singleton ops op ih =>
    rw [partials_next, filter_filterMap_remain?]
    by_cases hkey : op.partitionKey = key
    · subst hkey
      rw [filter_withGroupOf (ih _), openOf?_append_self hcap]
      cases h : remain? cap op (current cap op.partitionKey ops) <;> simp [h]
    · have hnew : (if (current cap op.partitionKey ops).size = 0 then
          [(⟨op.partitionKey, []⟩ : OperationGroup)] else []).filter (·.partitionKey = key) = [] := by
        split <;> simp [hkey]
      rw [withGroupOf, List.filter_append, ih, hnew, List.append_nil, openOf?, openOf?,
        current_append_of_ne hkey]
      split
      · rfl
      · have hne : (current cap key ops).partitionKey ≠ op.partitionKey := Ne.symm hkey
        simp [remain?_of_ne hne]

theorem eq_current_of_mem_partials (hcap : 0 < cap) {g : OperationGroup}
    (h : g ∈ partials cap [] ops) : g = current cap g.partitionKey ops ∧ g.size ≠ 0 := by
  have hmem : g ∈ (partials cap [] ops).filter (·.partitionKey = g.partitionKey) := by simp [h]
  rw [filter_partials hcap, openOf?] at hmem
  split at hmem
  · simp at hmem
  next hsize =>
    have heq : g = current cap g.partitionKey ops := by simpa using hmem
    exact ⟨heq, by rwa [← heq] at hsize⟩

theorem size_of_mem_partials (hcap : 0 < cap) {g : OperationGroup} (h : g ∈ partials cap [] ops) :
    0 < g.size ∧ g.size < cap := by
  obtain ⟨heq, hne⟩ := eq_current_of_mem_partials hcap h
  have hlt := size_current_lt hcap g.partitionKey ops
  rw [← heq] at hlt
  exact ⟨Nat.pos_of_ne_zero hne, hlt⟩

/-! ### All groups -/

theorem mem_current {x : Operation} (h : x ∈ (current cap key ops).operations) :
    x.partitionKey = key := by
  have hmem : x ∈ ofKey key ops := List.mem_of_mem_drop h
  simpa [ofKey] using (List.mem_filter.1 hmem).2

/-- A full group has as many operations as the cap, all of its key. -/
theorem of_mem_full (hcap : 0 < cap) {g : OperationGroup} (h : g ∈ full cap before ops) :
    g.size = cap ∧ ∀ x ∈ g.operations, x.partitionKey = g.partitionKey := by
  induction ops generalizing before with
  | nil => simp [full] at h
  | cons op rest ih =>
    rw [full, List.mem_append] at h
    rcases h with h | h
    · rw [filledBy?_eq hcap] at h
      split at h
      next hfull =>
        have heq : g = (current cap op.partitionKey before).push op := by simpa using h
        subst heq
        refine ⟨by rwa [OperationGroup.size_push], fun x hx => ?_⟩
        rcases List.mem_append.1 hx with hx | hx
        · exact mem_current hx
        · rw [List.mem_singleton.1 hx]
          rfl
      · simp at h
    · exact ih h

/-- The full groups of a key and then what is open of it are all operations of the key, in order. -/
theorem flatMap_filter_full (hcap : 0 < cap) (key : String) (ops : List Operation) :
    ((full cap [] ops).filter (·.partitionKey = key)).flatMap OperationGroup.operations ++
      (current cap key ops).operations = ofKey key ops := by
  induction ops using List.reverseRecOn with
  | nil => rfl
  | append_singleton ops op ih =>
    rw [full_append_singleton, List.filter_append, List.flatMap_append, List.nil_append,
      filledBy?_eq hcap]
    by_cases hkey : op.partitionKey = key
    · subst hkey
      have hlt := size_current_lt hcap op.partitionKey ops
      rw [ofKey_append, ofKey_singleton_self, ← ih]
      by_cases hfull : (current cap op.partitionKey ops).size + 1 = cap
      · rw [if_pos hfull, current_append_of_full hfull]
        simp
      · rw [if_neg hfull, current_append_of_lt (by omega)]
        simp
    · have hother : (if (current cap op.partitionKey ops).size + 1 = cap then
          some ((current cap op.partitionKey ops).push op) else none).toList.filter
            (·.partitionKey = key) = [] := by
        split <;> simp [hkey]
      rw [hother, List.flatMap_nil, List.append_nil, current_append_of_ne hkey, ih, ofKey_append,
        ofKey_singleton_of_ne hkey, List.append_nil]

/-- Groups that the operations of a list are divided into. -/
structure IsDivision (cap : Nat) (ops : List Operation) (gs : List OperationGroup) : Prop where
  /-- Every operation is in exactly one group. -/
  perm : (gs.flatMap OperationGroup.operations).Perm ops
  /-- The groups of a key, one after another, are its operations in their order. -/
  inOrder : ∀ key,
    (gs.filter (·.partitionKey = key)).flatMap OperationGroup.operations = ofKey key ops
  /-- No group mixes keys. -/
  ofOneKey : ∀ g ∈ gs, ∀ op ∈ g.operations, op.partitionKey = g.partitionKey
  size_pos : ∀ g ∈ gs, 0 < g.size
  size_le : ∀ g ∈ gs, g.size ≤ cap
  /-- Of the groups of a key only the last may be smaller than the cap. -/
  full : ∀ key, ∀ g ∈ (gs.filter (·.partitionKey = key)).dropLast, g.size = cap

/-- Lists of operations with the same operations of each key, in some order of the keys. -/
theorem perm_of_ofKey_eq {xs ys : List Operation} (h : ∀ key, ofKey key xs = ofKey key ys) :
    xs.Perm ys := by
  classical
  rw [List.perm_iff_count]
  intro op
  have hcount (zs : List Operation) : (ofKey op.partitionKey zs).count op = zs.count op :=
    List.count_filter (by simp)
  rw [← hcount xs, ← hcount ys, h]

theorem ofKey_flatMap {gs : List OperationGroup}
    (h : ∀ g ∈ gs, ∀ op ∈ g.operations, op.partitionKey = g.partitionKey) (key : String) :
    ofKey key (gs.flatMap OperationGroup.operations) =
      (gs.filter (·.partitionKey = key)).flatMap OperationGroup.operations := by
  induction gs with
  | nil => rfl
  | cons g gs ih =>
    have hg := h g List.mem_cons_self
    rw [List.flatMap_cons, ofKey_append, ih fun g' hg' => h g' (List.mem_cons_of_mem _ hg')]
    by_cases hkey : g.partitionKey = key
    · have hall : ofKey key g.operations = g.operations :=
        List.filter_eq_self.2 fun op hop => by simp [hg op hop, hkey]
      simp [hkey, hall]
    · have hnone : ofKey key g.operations = [] :=
        List.filter_eq_nil_iff.2 fun op hop => by simp [hg op hop, hkey]
      simp [hkey, hnone]

theorem isDivision_groups (hcap : 0 < cap) (ops : List Operation) :
    IsDivision cap ops (groups cap ops) := by
  have hkey : ∀ g ∈ groups cap ops, ∀ op ∈ g.operations, op.partitionKey = g.partitionKey := by
    intro g hg op hop
    rcases List.mem_append.1 hg with hg | hg
    · exact (of_mem_full hcap hg).2 op hop
    · rw [(eq_current_of_mem_partials hcap hg).1] at hop
      exact mem_current hop
  have horder (key : String) : ((groups cap ops).filter (·.partitionKey = key)).flatMap
      OperationGroup.operations = ofKey key ops := by
    rw [groups, List.filter_append, List.flatMap_append, filter_partials hcap,
      ← flatMap_filter_full hcap key ops, openOf?]
    congr 1
    split
    next hzero => rw [current_eq_of_size_eq_zero hzero]; rfl
    · simp
  have hsize : ∀ g ∈ groups cap ops, 0 < g.size ∧ g.size ≤ cap := by
    intro g hg
    rcases List.mem_append.1 hg with hg | hg
    · rw [(of_mem_full hcap hg).1]
      exact ⟨hcap, Nat.le_refl _⟩
    · obtain ⟨hpos, hlt⟩ := size_of_mem_partials hcap hg
      exact ⟨hpos, Nat.le_of_lt hlt⟩
  refine ⟨perm_of_ofKey_eq fun key => ?_, horder, hkey, fun g hg => (hsize g hg).1,
    fun g hg => (hsize g hg).2, fun key g hg => ?_⟩
  · rw [ofKey_flatMap hkey, horder]
  · rw [groups, List.filter_append, filter_partials hcap] at hg
    have hmem : g ∈ (full cap [] ops).filter (·.partitionKey = key) := by
      unfold openOf? at hg
      split at hg
      · exact List.dropLast_subset _ (by simpa using hg)
      · simpa using hg
    exact (of_mem_full hcap (List.mem_filter.1 hmem).1).1

end Grouping

end TableClient
