import Mathlib.Data.List.Nodup
import TableClient.Batch.Partitioner
import TableClient.Proofs.Batch.Grouping

/-! The partitioner makes the groups of the whole list. What it has open after reading some
operations are the groups that these operations leave open, in the order of their first operations;
its two tables, by number and by key, name the same groups. Reading one more operation gives the
group that it fills, if it fills one, and keeps this so; when nothing is left to read, the open
groups come out in their order. -/

namespace TableClient

namespace OpenGroups

open Grouping (partials withGroupOf remain? current filledBy?)

variable {o : OpenGroups} {cap s : Nat} {g : OperationGroup} {op : Operation} {key : String}
  {before : List Operation}

/-- The open groups without their numbers, the earliest first. -/
def toList (o : OpenGroups) : List OperationGroup := o.groups.map Prod.snd

/-- The two tables agree, and numbers are given out in order. -/
structure Indexed (o : OpenGroups) : Prop where
  ordered : o.groups.Pairwise (·.1 < ·.1)
  below : ∀ p ∈ o.groups, p.1 < o.nextSequence
  /-- A key has a number exactly if the open group of that number is its own. -/
  found : ∀ key s,
    Keyed.find? key o.sequences = some s ↔ ∃ g, (s, g) ∈ o.groups ∧ g.partitionKey = key

theorem indexed_empty : empty.Indexed where
  ordered := .nil
  below := by simp [empty]
  found := by simp [empty, Keyed.find?]

namespace Indexed

/-- A number stands for one group. -/
theorem eq_of_mem (h : o.Indexed) {g' : OperationGroup} (hg : (s, g) ∈ o.groups)
    (hg' : (s, g') ∈ o.groups) : g' = g := by
  have hne : o.groups.Pairwise fun p q => p.1 ≠ q.1 := h.ordered.imp Nat.ne_of_lt
  have hinj := List.inj_on_of_nodup_map (f := Prod.fst) (l := o.groups) (List.pairwise_map.2 hne)
  exact congrArg Prod.snd (hinj hg' hg rfl)

/-- A key has one group. -/
theorem number_eq (h : o.Indexed) {t : Nat} {g' : OperationGroup} (hg : (s, g) ∈ o.groups)
    (hg' : (t, g') ∈ o.groups) (hkey : g'.partitionKey = g.partitionKey) : t = s := by
  have hs := (h.found g.partitionKey s).2 ⟨g, hg, rfl⟩
  have ht := (h.found g.partitionKey t).2 ⟨g', hg', hkey⟩
  exact Option.some.inj (ht.symm.trans hs)

theorem key_eq_iff (h : o.Indexed) {p : Nat × OperationGroup} (hg : (s, g) ∈ o.groups)
    (hp : p ∈ o.groups) : p.2.partitionKey = g.partitionKey ↔ p.1 = s := by
  obtain ⟨t, g'⟩ := p
  refine ⟨h.number_eq hg hp, ?_⟩
  rintro rfl
  rw [h.eq_of_mem hg hp]

theorem group?_eq (h : o.Indexed) (hg : (s, g) ∈ o.groups) : o.group? s = some g := by
  unfold group?
  cases hfind : o.groups.find? (·.1 = s) with
  | none => simpa using List.find?_eq_none.1 hfind _ hg
  | some p =>
    obtain ⟨t, g'⟩ := p
    have hmem := List.mem_of_find?_eq_some hfind
    have ht : t = s := by simpa using List.find?_some hfind
    subst ht
    exact congrArg some (h.eq_of_mem hg hmem)

/-! ### Opening a group -/

theorem sequenceFor (h : o.Indexed) (key : String) : (o.sequenceFor key).2.Indexed := by
  unfold OpenGroups.sequenceFor
  split
  · exact h
  next hnone =>
    refine ⟨?_, ?_, fun key' s' => ?_⟩
    · refine List.pairwise_append.2 ⟨h.ordered, List.pairwise_singleton .., fun p hp q hq => ?_⟩
      rw [List.mem_singleton.1 hq]
      exact h.below p hp
    · intro p hp
      rcases List.mem_append.1 hp with hp | hp
      · exact Nat.lt_succ_of_lt (h.below p hp)
      · rw [List.mem_singleton.1 hp]
        exact Nat.lt_succ_self _
    · simp only [Keyed.find?_insert, List.mem_append, List.mem_singleton, Prod.mk.injEq]
      by_cases hkey : key = key'
      · subst hkey
        have hno : ∀ g, (s', g) ∈ o.groups → g.partitionKey ≠ key := fun g hg heq => by
          have := (h.found key s').2 ⟨g, hg, heq⟩
          rw [hnone] at this
          cases this
        rw [if_pos rfl]
        constructor
        · intro heq
          exact ⟨⟨key, []⟩, .inr ⟨(Option.some.inj heq).symm, rfl⟩, rfl⟩
        · rintro ⟨g, hg | ⟨rfl, -⟩, heq⟩
          · exact absurd heq (hno g hg)
          · rfl
      · rw [if_neg hkey, h.found]
        constructor
        · rintro ⟨g, hg, heq⟩
          exact ⟨g, .inl hg, heq⟩
        · rintro ⟨g, hg | ⟨-, rfl⟩, heq⟩
          · exact ⟨g, hg, heq⟩
          · exact absurd heq hkey

/-- Afterwards the key has a group, of the number that was returned. -/
theorem exists_sequenceFor (h : o.Indexed) (key : String) :
    ∃ g, ((o.sequenceFor key).1, g) ∈ (o.sequenceFor key).2.groups ∧ g.partitionKey = key := by
  unfold OpenGroups.sequenceFor
  split
  next s hs => exact (h.found key s).1 hs
  · exact ⟨⟨key, []⟩, by simp, rfl⟩

theorem toList_sequenceFor (h : o.Indexed) (key : String) :
    (o.sequenceFor key).2.toList =
      o.toList ++ if o.toList.filter (·.partitionKey = key) = [] then [⟨key, []⟩] else [] := by
  unfold OpenGroups.sequenceFor
  split
  next s hs =>
    obtain ⟨g, hg, hkey⟩ := (h.found key s).1 hs
    have hmem : g ∈ o.toList.filter (·.partitionKey = key) :=
      List.mem_filter.2 ⟨List.mem_map.2 ⟨_, hg, rfl⟩, by simp [hkey]⟩
    rw [if_neg (List.ne_nil_of_mem hmem), List.append_nil]
  next hnone =>
    have hnil : o.toList.filter (·.partitionKey = key) = [] := by
      refine List.filter_eq_nil_iff.2 fun g hg => ?_
      obtain ⟨⟨s, g'⟩, hp, rfl⟩ := List.mem_map.1 hg
      intro heq
      have := (h.found key s).2 ⟨g', hp, by simpa using heq⟩
      rw [hnone] at this
      cases this
    rw [if_pos hnil]
    simp [OpenGroups.toList]

/-! ### Adding to a group -/

theorem push (h : o.Indexed) (s : Nat) (op : Operation) : (o.push s op).Indexed := by
  have hkey (t : Nat) (g : OperationGroup) :
      (if t = s then g.push op else g).partitionKey = g.partitionKey := by
    split <;> rfl
  refine ⟨List.pairwise_map.2 h.ordered, ?_, fun key t => ?_⟩
  · intro p hp
    obtain ⟨q, hq, rfl⟩ := List.mem_map.1 hp
    exact h.below q hq
  · refine (h.found key t).trans ⟨?_, ?_⟩
    · rintro ⟨g, hg, heq⟩
      exact ⟨_, List.mem_map.2 ⟨_, hg, rfl⟩, (hkey t g).trans heq⟩
    · rintro ⟨g, hg, heq⟩
      obtain ⟨⟨_, g'⟩, hq, ⟨⟩⟩ := List.mem_map.1 hg
      exact ⟨g', hq, (hkey t g').symm.trans heq⟩

theorem toList_push (h : o.Indexed) (hg : (s, g) ∈ o.groups) (op : Operation) :
    (o.push s op).toList =
      o.toList.map fun g' => if g'.partitionKey = g.partitionKey then g'.push op else g' := by
  simp only [OpenGroups.toList, OpenGroups.push, List.map_map]
  refine List.map_congr_left fun p hp => ?_
  simp only [Function.comp_apply, h.key_eq_iff hg hp]

/-! ### Closing a group -/

theorem close (h : o.Indexed) (hg : (s, g) ∈ o.groups) : (o.close s g).Indexed := by
  refine ⟨h.ordered.filter _, fun p hp => h.below p (List.mem_filter.1 hp).1, fun key t => ?_⟩
  simp only [OpenGroups.close, Keyed.find?_erase, List.mem_filter]
  by_cases hkey : g.partitionKey = key
  · subst hkey
    rw [if_pos rfl]
    constructor
    · intro hnone
      cases hnone
    · rintro ⟨g', ⟨hg', hne⟩, heq⟩
      exact absurd (h.number_eq hg hg' heq) (by simpa using hne)
  · rw [if_neg hkey, h.found]
    constructor
    · rintro ⟨g', hg', heq⟩
      refine ⟨g', ⟨hg', ?_⟩, heq⟩
      have hne : t ≠ s := by
        rintro rfl
        rw [h.eq_of_mem hg hg'] at heq
        exact hkey heq
      simpa using hne
    · rintro ⟨g', ⟨hg', -⟩, heq⟩
      exact ⟨g', hg', heq⟩

theorem toList_close (h : o.Indexed) (hg : (s, g) ∈ o.groups) :
    (o.close s g).toList = o.toList.filter (·.partitionKey ≠ g.partitionKey) := by
  simp only [OpenGroups.toList, OpenGroups.close, List.filter_map]
  congr 1
  refine List.filter_congr fun p hp => ?_
  simp only [Function.comp_apply, ne_eq, h.key_eq_iff hg hp]

/-- The later numbers are larger, so only the first group goes. -/
theorem groups_close_first (h : o.Indexed) {rest : List (Nat × OperationGroup)}
    (hgroups : o.groups = (s, g) :: rest) : (o.close s g).groups = rest := by
  have hordered := h.ordered
  rw [hgroups, List.pairwise_cons] at hordered
  have hkeep : rest.filter (·.1 ≠ s) = rest :=
    List.filter_eq_self.2 fun q hq => by simpa using (Nat.ne_of_lt (hordered.1 q hq)).symm
  simpa [OpenGroups.close, hgroups] using hkeep

/-- A group is taken out by its number exactly if it has reached the cap. -/
theorem takeFull?_eq (h : o.Indexed) (hg : (s, g) ∈ o.groups) (cap : Nat) :
    o.takeFull? cap s = if cap ≤ g.size then some (g, o.close s g) else none := by
  rw [takeFull?, h.group?_eq hg]

/-! ### Adding an operation -/

theorem add (h : o.Indexed) (op : Operation) : (o.add op).2.Indexed :=
  (h.sequenceFor _).push _ _

theorem mem_push (hg : (s, g) ∈ o.groups) (op : Operation) :
    (s, g.push op) ∈ (o.push s op).groups :=
  List.mem_map.2 ⟨_, hg, by simp⟩

/-- The operation stands at the end of the group of its key. -/
theorem exists_add (h : o.Indexed) (op : Operation) :
    ∃ g ∈ (o.sequenceFor op.partitionKey).2.toList, g.partitionKey = op.partitionKey ∧
      ((o.add op).1, g.push op) ∈ (o.add op).2.groups := by
  obtain ⟨g, hg, hkey⟩ := h.exists_sequenceFor op.partitionKey
  exact ⟨g, List.mem_map.2 ⟨_, hg, rfl⟩, hkey, mem_push hg op⟩

theorem toList_add (h : o.Indexed) (op : Operation) :
    (o.add op).2.toList = (o.sequenceFor op.partitionKey).2.toList.map fun g =>
      if g.partitionKey = op.partitionKey then g.push op else g := by
  obtain ⟨g, hg, hkey⟩ := h.exists_sequenceFor op.partitionKey
  have hlist := (h.sequenceFor op.partitionKey).toList_push hg op
  rwa [hkey] at hlist

end Indexed

/-! ### Reading one operation -/

/-- Puts an operation into the group of its key, and takes the group out if it is full. -/
def read (cap : Nat) (o : OpenGroups) (op : Operation) : Option OperationGroup × OpenGroups :=
  match (o.add op).2.takeFull? cap (o.add op).1 with
  | some (g, rest) => (some g, rest)
  | none => (none, (o.add op).2)

/-- What is open are the groups that the operations read so far leave open. -/
structure Reflects (cap : Nat) (before : List Operation) (o : OpenGroups) : Prop where
  indexed : o.Indexed
  toList : o.toList = partials cap [] before

theorem reflects_empty (cap : Nat) : empty.Reflects cap [] := ⟨indexed_empty, rfl⟩

/-- Where no group of the key is filled, adding changes the groups as they remain. -/
theorem map_push_eq {gs : List OperationGroup}
    (h : ∀ g ∈ gs, g.partitionKey = op.partitionKey → g.size + 1 < cap) :
    (gs.map fun g => if g.partitionKey = op.partitionKey then g.push op else g) =
      gs.filterMap (remain? cap op) := by
  induction gs with
  | nil => rfl
  | cons g gs ih =>
    have hrest := ih fun g' hg' => h g' (List.mem_cons_of_mem _ hg')
    by_cases hkey : g.partitionKey = op.partitionKey
    · simp [hkey, Grouping.remain?_of_eq hkey, h g List.mem_cons_self hkey, hrest]
    · simp [hkey, Grouping.remain?_of_ne hkey, hrest]

/-- Where the groups of the key are filled, they go and the others remain. -/
theorem filter_push_eq {gs : List OperationGroup}
    (h : ∀ g ∈ gs, g.partitionKey = op.partitionKey → ¬g.size + 1 < cap) :
    ((gs.map fun g => if g.partitionKey = op.partitionKey then g.push op else g).filter
      (·.partitionKey ≠ op.partitionKey)) = gs.filterMap (remain? cap op) := by
  induction gs with
  | nil => rfl
  | cons g gs ih =>
    have hrest := ih fun g' hg' => h g' (List.mem_cons_of_mem _ hg')
    by_cases hkey : g.partitionKey = op.partitionKey
    · have hfull := h g List.mem_cons_self hkey
      simp [hkey, Grouping.remain?_of_eq hkey, hfull, ← hrest]
    · simp [hkey, Grouping.remain?_of_ne hkey, ← hrest]

namespace Reflects

theorem toList_sequenceFor (hcap : 0 < cap) (h : Reflects cap before o) (op : Operation) :
    (o.sequenceFor op.partitionKey).2.toList = withGroupOf cap before op := by
  rw [h.indexed.toList_sequenceFor, h.toList, Grouping.filter_partials hcap, withGroupOf,
    Grouping.openOf?]
  by_cases hzero : (current cap op.partitionKey before).size = 0 <;> simp [hzero]

/-- Reading an operation gives the group that it fills, and what is open afterwards is what the
operations then leave open. -/
theorem read (hcap : 0 < cap) (h : Reflects cap before o) (op : Operation) :
    (o.read cap op).1 = filledBy? cap before op ∧
      Reflects cap (before ++ [op]) (o.read cap op).2 := by
  obtain ⟨g, hg, hkey, hpush⟩ := h.indexed.exists_add op
  have hadded := h.indexed.add op
  have hlist := h.indexed.toList_add op
  rw [h.toList_sequenceFor hcap] at hg hlist
  -- what is open of the key is what the key is at, so it has one size
  have hcurrent : ∀ g' ∈ withGroupOf cap before op, g'.partitionKey = op.partitionKey →
      g' = current cap op.partitionKey before := by
    intro g' hg' hk
    have hmem : g' ∈ (withGroupOf cap before op).filter (·.partitionKey = op.partitionKey) :=
      List.mem_filter.2 ⟨hg', by simp [hk]⟩
    rw [Grouping.filter_withGroupOf (Grouping.filter_partials hcap _ _)] at hmem
    exact List.mem_singleton.1 hmem
  have hlt := Grouping.size_current_lt hcap op.partitionKey before
  have hsize : g.size = (current cap op.partitionKey before).size := by rw [hcurrent g hg hkey]
  unfold OpenGroups.read
  rw [hadded.takeFull?_eq hpush, OperationGroup.size_push, Grouping.filledBy?_eq hcap]
  by_cases hfull : (current cap op.partitionKey before).size + 1 = cap
  · rw [if_pos (by omega), if_pos hfull, hcurrent g hg hkey]
    have hpush' := hcurrent g hg hkey ▸ hpush
    refine ⟨rfl, hadded.close hpush', ?_⟩
    rw [hadded.toList_close hpush', hlist, Grouping.partials_next]
    refine filter_push_eq fun g' hg' hk => ?_
    rw [hcurrent g' hg' hk]
    omega
  · rw [if_neg (by omega), if_neg hfull]
    refine ⟨rfl, hadded, ?_⟩
    rw [hlist, Grouping.partials_next]
    refine map_push_eq fun g' hg' hk => ?_
    rw [hcurrent g' hg' hk]
    omega

end Reflects

end OpenGroups

namespace Partitioner

open Grouping (full partials filledBy?)

variable {cap : Nat} {o : OpenGroups} {before input : List Operation} {g : OperationGroup}

/-! ### All groups -/

theorem groups_of_next? {p rest : Partitioner} (h : p.next? = some (g, rest)) :
    p.groups = g :: rest.groups := by
  rw [groups]
  split
  next heq =>
    rw [h] at heq
    cases heq
    rfl
  next heq =>
    rw [h] at heq
    cases heq

theorem groups_of_next?_none {p : Partitioner} (h : p.next? = none) : p.groups = [] := by
  rw [groups]
  split
  next heq =>
    rw [h] at heq
    cases heq
  · rfl

/-- When nothing is left to read, the open groups come out in their order. -/
theorem groups_nil (h : o.Indexed) : (⟨cap, o, []⟩ : Partitioner).groups = o.toList := by
  obtain ⟨gs, hgs⟩ : ∃ gs, o.groups = gs := ⟨_, rfl⟩
  induction gs generalizing o with
  | nil =>
    have hnone : (⟨cap, o, []⟩ : Partitioner).next? = none := by
      simp [next?, nextFrom, OpenGroups.takeFirst?, hgs]
    rw [groups_of_next?_none hnone, OpenGroups.toList, hgs, List.map_nil]
  | cons p rest ih =>
    obtain ⟨s, g⟩ := p
    have hmem : (s, g) ∈ o.groups := hgs ▸ List.mem_cons_self
    have hnext : (⟨cap, o, []⟩ : Partitioner).next? = some (g, ⟨cap, o.close s g, []⟩) := by
      simp [next?, nextFrom, OpenGroups.takeFirst?, hgs]
    have hrest := h.groups_close_first hgs
    rw [groups_of_next? hnext, ih (h.close hmem) hrest, OpenGroups.toList, OpenGroups.toList, hrest,
      hgs, List.map_cons]

/-- Reading an operation gives what it fills, before all that comes of the others. -/
theorem groups_cons (cap : Nat) (o : OpenGroups) (op : Operation) (input : List Operation) :
    (⟨cap, o, op :: input⟩ : Partitioner).groups =
      (o.read cap op).1.toList ++ (⟨cap, (o.read cap op).2, input⟩ : Partitioner).groups := by
  unfold OpenGroups.read
  cases hfull : (o.add op).2.takeFull? cap (o.add op).1 with
  | some taken =>
    have hnext : (⟨cap, o, op :: input⟩ : Partitioner).next? =
        some (taken.1, ⟨cap, taken.2, input⟩) := by
      simp [next?, nextFrom, hfull]
    exact groups_of_next? hnext
  | none =>
    have hnext : (⟨cap, o, op :: input⟩ : Partitioner).next? =
        (⟨cap, (o.add op).2, input⟩ : Partitioner).next? := by
      simp [next?, nextFrom, hfull]
    cases hrest : (⟨cap, (o.add op).2, input⟩ : Partitioner).next? with
    | some taken => exact (groups_of_next? (hnext.trans hrest)).trans (groups_of_next? hrest).symm
    | none =>
      exact (groups_of_next?_none (hnext.trans hrest)).trans (groups_of_next?_none hrest).symm

/-- The groups that are still to come, once the operations before have been read. -/
theorem groups_of_reflects (hcap : 0 < cap) (h : o.Reflects cap before) (input : List Operation) :
    (⟨cap, o, input⟩ : Partitioner).groups =
      full cap before input ++ partials cap [] (before ++ input) := by
  induction input generalizing o before with
  | nil => rw [groups_nil h.indexed, h.toList, full, List.nil_append, List.append_nil]
  | cons op input ih =>
    obtain ⟨hfilled, hafter⟩ := h.read hcap op
    rw [groups_cons, ih hafter, hfilled, full, List.append_assoc, List.append_assoc,
      List.singleton_append]

/-! ### Group by group -/

def after (p : Partitioner) : Nat → Partitioner
  | 0 => p
  | n + 1 => p.next.2.after n

theorem count_le_count_add (o : OpenGroups) (op : Operation) : o.count ≤ (o.add op).2.count := by
  simp only [OpenGroups.add, OpenGroups.sequenceFor]
  split <;> simp [OpenGroups.push, OpenGroups.count]

/-- There is no next group only if none is open. -/
theorem groups_eq_nil_of_nextFrom (h : nextFrom cap o input = none) : o.groups = [] := by
  induction input generalizing o with
  | nil =>
    simp only [nextFrom, OpenGroups.takeFirst?, Option.map_eq_none_iff] at h
    split at h
    · assumption
    · cases h
  | cons op rest ih =>
    simp only [nextFrom] at h
    split at h
    · cases h
    · have hcount : (o.add op).2.count = 0 := List.length_eq_zero_iff.2 (ih h)
      have hle := count_le_count_add o op
      exact List.length_eq_zero_iff.1 (by unfold OpenGroups.count at *; omega)

/-- Either there is a next group, and all groups are that one and those that come after it; or there
is none, and there will be none. -/
theorem groups_next (p : Partitioner) :
    (∃ g, p.next.1 = some g ∧ p.groups = g :: p.next.2.groups) ∨
      (p.next.1 = none ∧ p.groups = [] ∧ p.next.2.groups = []) := by
  unfold next
  cases h : p.next? with
  | some taken => exact .inl ⟨taken.1, rfl, groups_of_next? h⟩
  | none =>
    have hempty : p.opened.groups = [] := groups_eq_nil_of_nextFrom h
    have hnone : ({ p with input := [] } : Partitioner).next? = none := by
      simp [next?, nextFrom, OpenGroups.takeFirst?, hempty]
    exact .inr ⟨rfl, groups_of_next?_none h, groups_of_next?_none hnone⟩

/-- Asked again and again, a partitioner gives all its groups in their order, and then none. -/
theorem next_after (p : Partitioner) (n : Nat) : (p.after n).next.1 = p.groups[n]? := by
  induction n generalizing p with
  | zero =>
    rcases p.groups_next with ⟨g, hnext, hgroups⟩ | ⟨hnext, hgroups, -⟩
    · rw [hgroups, List.getElem?_cons_zero]
      exact hnext
    · rw [hgroups, List.getElem?_nil]
      exact hnext
  | succ n ih =>
    rw [after, ih]
    rcases p.groups_next with ⟨g, -, hgroups⟩ | ⟨-, hgroups, hrest⟩
    · rw [hgroups, List.getElem?_cons_succ]
    · rw [hgroups, hrest, List.getElem?_nil, List.getElem?_nil]

/-- Under a valid cap a partitioner of any operations gives, one by one, the groups of the whole
list: the full ones in the order of their last operations, then the others in the order of their
first. After them it gives none, however often it is asked. -/
theorem next_after_start (config : BatchConfig) (h : config.IsValid) (operations : List Operation) :
    ∃ p, start config operations = .ok p ∧ p.groups = Grouping.groups config.cap operations ∧
      (∀ n, (p.after n).next.1 = (Grouping.groups config.cap operations)[n]?) ∧
      Grouping.IsDivision config.cap operations p.groups := by
  have hcap : 0 < config.cap := h.1
  have hgroups : (⟨config.cap, .empty, operations⟩ : Partitioner).groups =
      Grouping.groups config.cap operations :=
    groups_of_reflects hcap (OpenGroups.reflects_empty config.cap) operations
  refine ⟨⟨config.cap, .empty, operations⟩, ?_, hgroups, fun n => ?_, ?_⟩
  · rw [start, BatchConfig.validate, if_pos h]
    rfl
  · rw [next_after, hgroups]
  · rw [hgroups]
    exact Grouping.isDivision_groups hcap operations

/-- A key whose first group was filled comes again after the groups that were opened meanwhile. -/
theorem next_after_start_reopened :
    (⟨2⟩ : BatchConfig).IsValid ∧ ∃ p, start ⟨2⟩ [.retrieve "A" "0", .retrieve "A" "1",
        .retrieve "B" "2", .retrieve "A" "3", .retrieve "C" "4"] = .ok p ∧
      p.groups = [⟨"A", [.retrieve "A" "0", .retrieve "A" "1"]⟩, ⟨"B", [.retrieve "B" "2"]⟩,
        ⟨"A", [.retrieve "A" "3"]⟩, ⟨"C", [.retrieve "C" "4"]⟩] ∧
      (p.after 4).next.1 = none := by
  have hvalid : (⟨2⟩ : BatchConfig).IsValid := by decide
  obtain ⟨p, hstart, hgroups, hnext, -⟩ := next_after_start ⟨2⟩ hvalid [.retrieve "A" "0",
    .retrieve "A" "1", .retrieve "B" "2", .retrieve "A" "3", .retrieve "C" "4"]
  exact ⟨hvalid, p, hstart, hgroups, hnext 4⟩

end Partitioner

end TableClient
