import TableClient.Proofs.Batch.Partitioner

/-! The state of a partitioner between two calls, whatever it was asked for so far. What it has returned
and what it has open are together the groups of the operations that it has read. While it reads, the
open groups are all that these operations leave open; once nothing is left to read, they are the ones
among them that were not returned yet. -/

namespace TableClient

namespace Grouping

variable {cap n m : Nat} {read before ops : List Operation} {g : OperationGroup}

/-! ### Where groups are opened -/

/-- A group was opened by the operation after the first `n`, and has all operations of its key from there
on. -/
def OpenedAfter (read : List Operation) (n : Nat) (g : OperationGroup) : Prop :=
  ∃ op later, read.drop n = op :: later ∧ g = ⟨op.partitionKey, op :: ofKey op.partitionKey later⟩

theorem OpenedAfter.operations_eq (h : OpenedAfter read n g) :
    g.operations = ofKey g.partitionKey (read.drop n) := by
  obtain ⟨op, later, hdrop, rfl⟩ := h
  rw [hdrop]
  simp [ofKey]

/-- From a later place on there are fewer operations of the key. -/
theorem OpenedAfter.not_lt (h : OpenedAfter read n g) (h' : OpenedAfter read m g) : ¬n < m := by
  intro hlt
  have hoperations := h'.operations_eq
  obtain ⟨op, later, hdrop, rfl⟩ := h
  obtain ⟨d, rfl⟩ : ∃ d, m = n + (d + 1) := ⟨m - n - 1, by omega⟩
  rw [← List.drop_drop, hdrop, List.drop_succ_cons] at hoperations
  have hsublist : (ofKey op.partitionKey (later.drop d)).Sublist (ofKey op.partitionKey later) :=
    (List.drop_sublist d later).filter _
  have hle := hsublist.length_le
  rw [← hoperations, List.length_cons] at hle
  omega

theorem OpenedAfter.unique (h : OpenedAfter read n g) (h' : OpenedAfter read m g) : n = m :=
  Nat.le_antisymm (Nat.not_lt.1 (h'.not_lt h)) (Nat.not_lt.1 (h.not_lt h'))

theorem openedAfter_of_openedBy? {op : Operation} {after : List Operation}
    (h : openedBy? cap before op after = some g) : OpenedAfter (before ++ op :: after) before.length g := by
  simp only [openedBy?] at h
  split at h
  · cases h
    exact ⟨op, after, List.drop_left, rfl⟩
  · cases h

theorem exists_openedAfter (h : g ∈ partials cap before ops) :
    ∃ n, before.length ≤ n ∧ OpenedAfter (before ++ ops) n g := by
  induction ops generalizing before with
  | nil => simp [partials] at h
  | cons op rest ih =>
    rcases List.mem_append.1 h with h | h
    · exact ⟨before.length, Nat.le_refl _, openedAfter_of_openedBy? (Option.mem_toList.1 h)⟩
    · obtain ⟨n, hle, hopened⟩ := ih h
      rw [List.length_append] at hle
      rw [List.append_assoc] at hopened
      exact ⟨n, Nat.le_of_add_right_le hle, hopened⟩

/-- The groups that are never filled stand in the order in which they are opened. -/
theorem pairwise_partials (cap : Nat) (before ops : List Operation) :
    (partials cap before ops).Pairwise fun g g' =>
      ∃ n m, n < m ∧ OpenedAfter (before ++ ops) n g ∧ OpenedAfter (before ++ ops) m g' := by
  induction ops generalizing before with
  | nil => exact .nil
  | cons op rest ih =>
    have hrest := ih (before ++ [op])
    rw [List.append_assoc] at hrest
    refine List.pairwise_append.2 ⟨?_, hrest, fun g hg g' hg' => ?_⟩
    · cases openedBy? cap before op rest with
      | none => exact .nil
      | some g => exact List.pairwise_singleton _ _
    · obtain ⟨m, hle, hopened⟩ := exists_openedAfter hg'
      rw [List.length_append, List.length_singleton] at hle
      rw [List.append_assoc] at hopened
      exact ⟨_, m, hle, openedAfter_of_openedBy? (Option.mem_toList.1 hg), hopened⟩

end Grouping

namespace OpenGroups

open Grouping (OpenedAfter ofKey)

variable {o : OpenGroups} {s : Nat} {g : OperationGroup} {key : String}

def keys (o : OpenGroups) : List String := o.toList.map OperationGroup.partitionKey

theorem Indexed.group?_eq_some_iff (h : o.Indexed) : o.group? s = some g ↔ (s, g) ∈ o.groups := by
  refine ⟨fun hgroup => ?_, h.group?_eq⟩
  obtain ⟨⟨t, g'⟩, hfind, rfl⟩ := Option.map_eq_some_iff.1 hgroup
  obtain rfl : t = s := by simpa using List.find?_some hfind
  exact List.mem_of_find?_eq_some hfind

theorem Indexed.nodup_keys (h : o.Indexed) : o.keys.Nodup := by
  have hdistinct : o.groups.Pairwise fun p q => p.2.partitionKey ≠ q.2.partitionKey := by
    refine h.ordered.imp_of_mem fun {p q} hp hq hlt hkey => ?_
    exact Nat.ne_of_gt hlt (h.number_eq hp hq hkey.symm)
  rw [keys, toList, List.map_map]
  exact List.pairwise_map.2 hdistinct

theorem Indexed.mem_keys_iff (h : o.Indexed) :
    key ∈ o.keys ↔ (Keyed.find? key o.sequences).isSome := by
  simp only [keys, toList, List.map_map, List.mem_map, Function.comp_apply, Prod.exists,
    Option.isSome_iff_exists, h.found]

theorem Indexed.filter_toList (h : o.Indexed) (hg : (s, g) ∈ o.groups) :
    o.toList.filter (·.partitionKey = g.partitionKey) = [g] := by
  have hmem : g ∈ o.toList := List.mem_map.2 ⟨_, hg, rfl⟩
  have hinj := List.inj_on_of_nodup_map h.nodup_keys
  have hnodup := (List.Nodup.of_map _ h.nodup_keys).filter (·.partitionKey = g.partitionKey)
  refine List.perm_singleton.1 ((List.perm_ext_iff_of_nodup hnodup (List.nodup_singleton g)).2 ?_)
  intro g'
  rw [List.mem_filter, List.mem_singleton, decide_eq_true_eq]
  constructor
  · rintro ⟨hg', hkey⟩
    exact hinj hg' hmem hkey
  · rintro rfl
    exact ⟨hmem, rfl⟩

/-- What is open of a key is in the group that its number leads to. -/
theorem Indexed.flatMap_filter_toList (h : o.Indexed) (key : String) :
    (o.toList.filter (·.partitionKey = key)).flatMap OperationGroup.operations =
      ((Keyed.find? key o.sequences).bind o.group?).elim [] OperationGroup.operations := by
  cases hfind : Keyed.find? key o.sequences with
  | none =>
    have hnil : o.toList.filter (·.partitionKey = key) = [] := by
      refine List.filter_eq_nil_iff.2 fun g hg heq => ?_
      have hsome := h.mem_keys_iff.1 (List.mem_map.2 ⟨g, hg, of_decide_eq_true heq⟩)
      rw [hfind] at hsome
      cases hsome
    rw [hnil]
    rfl
  | some s =>
    obtain ⟨g, hg, rfl⟩ := (h.found key s).1 hfind
    rw [h.filter_toList hg, Option.bind_some, h.group?_eq hg]
    simp

/-- Open groups as they are when some operations have been read and some groups returned. -/
structure Accounts (cap : Nat) (read : List Operation) (returned : List OperationGroup)
    (o : OpenGroups) : Prop where
  /-- The number of a key leads to the open group of the key, and to no other. -/
  found : ∀ key s,
    Keyed.find? key o.sequences = some s ↔ ∃ g, o.group? s = some g ∧ g.partitionKey = key
  /-- Each key has one open group at most. -/
  nodup_keys : o.keys.Nodup
  mem_keys : ∀ key, key ∈ o.keys ↔ (Keyed.find? key o.sequences).isSome
  count_eq : o.count = o.keys.length
  size : ∀ s g, o.group? s = some g → 1 ≤ g.size ∧ g.size ≤ cap - 1
  ofOneKey : ∀ s g, o.group? s = some g → ∀ op ∈ g.operations, op.partitionKey = g.partitionKey
  below : ∀ s g, o.group? s = some g → s < o.nextSequence
  opened : ∀ s g, o.group? s = some g → ∃ n, OpenedAfter read n g
  /-- Of two groups the one that was opened earlier has the smaller number. -/
  ordered : ∀ s g n t g' m, o.group? s = some g → o.group? t = some g' → OpenedAfter read n g →
    OpenedAfter read m g' → (s < t ↔ n < m)
  /-- The operations of a key that were returned, and then those in its open group, are the operations
  of the key that were read. -/
  inOrder : ∀ key, ofKey key (returned.flatMap OperationGroup.operations) ++
    ((Keyed.find? key o.sequences).bind o.group?).elim [] OperationGroup.operations = ofKey key read

end OpenGroups

namespace Partitioner

open Grouping (full partials filledBy? OpenedAfter ofKey)

variable {cap : Nat} {read : List Operation} {gs : List OperationGroup} {p : Partitioner}

/-! ### Between two calls -/

def returned (p : Partitioner) : Nat → List OperationGroup
  | 0 => []
  | n + 1 => p.next.1.toList ++ p.next.2.returned n

/-- A partitioner that has read some operations and returned some groups: the full ones and, once
nothing is left to read, the first ones of those that are never filled. The others are open. -/
structure Reached (cap : Nat) (read : List Operation) (gs : List OperationGroup) (p : Partitioner) :
    Prop where
  cap_eq : p.cap = cap
  indexed : p.opened.Indexed
  flushed : ∃ first, gs = full cap [] read ++ first ∧
    partials cap [] read = first ++ p.opened.toList ∧ (p.input ≠ [] → first = [])

theorem reached_of_reflects {o : OpenGroups} (h : o.Reflects cap read) (input : List Operation) :
    Reached cap read (full cap [] read) ⟨cap, o, input⟩ where
  cap_eq := rfl
  indexed := h.indexed
  flushed := ⟨[], (List.append_nil _).symm, h.toList.symm, fun _ => rfl⟩

/-- While operations are left to read, no group was returned but full ones. -/
theorem Reached.reflects (h : Reached cap read gs p) (hinput : p.input ≠ []) :
    p.opened.Reflects cap read ∧ gs = full cap [] read := by
  obtain ⟨first, rfl, hopen, hfirst⟩ := h.flushed
  obtain rfl := hfirst hinput
  exact ⟨⟨h.indexed, hopen.symm⟩, List.append_nil _⟩

/-- A call either reads up to an operation that fills a group, or reads all that is left. -/
theorem nextFrom_cases (hcap : 0 < cap) {o : OpenGroups} (h : o.Reflects cap read)
    (input : List Operation) :
    (∃ passed op rest g o', input = passed ++ op :: rest ∧ full cap read passed = [] ∧
      nextFrom cap o input = some (g, ⟨cap, o', rest⟩) ∧ filledBy? cap (read ++ passed) op = some g ∧
      o'.Reflects cap (read ++ passed ++ [op])) ∨
    (∃ o', full cap read input = [] ∧ nextFrom cap o input = nextFrom cap o' [] ∧
      o'.Reflects cap (read ++ input)) := by
  induction input generalizing o read with
  | nil => exact .inr ⟨o, rfl, rfl, by rwa [List.append_nil]⟩
  | cons op rest ih =>
    obtain ⟨hfilled, hafter⟩ := h.read hcap op
    unfold OpenGroups.read at hfilled hafter
    rw [nextFrom]
    cases htake : (o.add op).2.takeFull? cap (o.add op).1 with
    | some taken =>
      simp only [htake] at hfilled hafter
      refine .inl ⟨[], op, rest, taken.1, taken.2, rfl, rfl, rfl, ?_, ?_⟩
      · rw [List.append_nil, ← hfilled]
      · rwa [List.append_nil]
    | none =>
      simp only [htake] at hfilled hafter
      have hfull (ops : List Operation) : full cap read (op :: ops) = full cap (read ++ [op]) ops := by
        rw [full, ← hfilled]
        rfl
      rcases ih hafter with ⟨passed, op', rest', g, o', rfl, hnone, hnext, hg, ho'⟩ |
        ⟨o', hnone, hnext, ho'⟩
      · refine .inl ⟨op :: passed, op', rest', g, o', rfl, ?_, hnext, ?_, ?_⟩
        · rw [hfull, hnone]
        · rwa [List.append_cons read op]
        · rwa [List.append_cons read op]
      · refine .inr ⟨o', ?_, hnext, ?_⟩
        · rw [hfull, hnone]
        · rwa [List.append_cons read op]

/-- With nothing left to read, a call returns the first open group, if there is one. -/
theorem Reached.next_of_nil (h : Reached cap read gs p) (hinput : p.input = []) :
    p.next.2.input = [] ∧ (∀ g, p.next.1 = some g → g ∈ partials cap [] read) ∧
      Reached cap read (gs ++ p.next.1.toList) p.next.2 := by
  obtain ⟨cap', o, input⟩ := p
  obtain rfl : input = [] := hinput
  obtain rfl : cap' = cap := h.cap_eq
  obtain ⟨first, hgs, hopen, -⟩ := h.flushed
  have hindexed : o.Indexed := h.indexed
  change partials cap' [] read = first ++ o.toList at hopen
  cases hgroups : o.groups with
  | nil =>
    have hnext : (⟨cap', o, []⟩ : Partitioner).next = (none, ⟨cap', o, []⟩) := by
      simp [next, next?, nextFrom, OpenGroups.takeFirst?, hgroups]
    rw [hnext]
    refine ⟨rfl, fun g hg => absurd hg (Option.some_ne_none g).symm, ?_⟩
    rwa [Option.toList_none, List.append_nil]
  | cons q rest =>
    obtain ⟨s, g⟩ := q
    have hnext : (⟨cap', o, []⟩ : Partitioner).next = (some g, ⟨cap', o.close s g, []⟩) := by
      simp [next, next?, nextFrom, OpenGroups.takeFirst?, hgroups]
    have hmem : (s, g) ∈ o.groups := hgroups ▸ List.mem_cons_self
    have hlist : o.toList = g :: (o.close s g).toList := by
      rw [OpenGroups.toList, OpenGroups.toList, hindexed.groups_close_first hgroups, hgroups,
        List.map_cons]
    rw [hnext]
    refine ⟨rfl, ?_, rfl, hindexed.close hmem, first ++ [g], ?_, ?_, fun hne => absurd rfl hne⟩
    · rintro _ ⟨⟩
      rw [hopen, hlist]
      simp
    · rw [hgs, List.append_assoc]
      rfl
    · rw [hopen, hlist, ← List.append_cons]

/-- One call: it returns the group that an operation fills, and has read exactly up to that one; or it
has read all that was left, and returns a group that is never filled, if there is one. -/
theorem Reached.next_cases (hcap : 0 < cap) (h : Reached cap read gs p) :
    (∃ passed op g, p.input = passed ++ op :: p.next.2.input ∧ p.next.1 = some g ∧
      filledBy? cap (read ++ passed) op = some g ∧
      Reached cap (read ++ (passed ++ [op])) (gs ++ p.next.1.toList) p.next.2) ∨
    (p.next.2.input = [] ∧ (∀ g, p.next.1 = some g → g ∈ partials cap [] (read ++ p.input)) ∧
      Reached cap (read ++ p.input) (gs ++ p.next.1.toList) p.next.2) := by
  by_cases hinput : p.input = []
  · rw [hinput, List.append_nil]
    exact .inr (h.next_of_nil hinput)
  obtain ⟨hreflects, rfl⟩ := h.reflects hinput
  obtain ⟨cap', o, input⟩ := p
  obtain rfl : cap' = cap := h.cap_eq
  rcases nextFrom_cases hcap hreflects input with
    ⟨passed, op, rest, g, o', rfl, hnone, hnext, hg, ho'⟩ | ⟨o', hnone, hnext, ho'⟩
  · have hcall : (⟨cap', o, passed ++ op :: rest⟩ : Partitioner).next = (some g, ⟨cap', o', rest⟩) := by
      simp [next, next?, hnext]
    refine .inl ⟨passed, op, g, ?_⟩
    rw [hcall]
    refine ⟨rfl, rfl, hg, ?_⟩
    have hreached := reached_of_reflects ho' rest
    have hfull : full cap' [] (read ++ passed ++ [op]) = full cap' [] read ++ [g] := by
      rw [Grouping.full_append_singleton, Grouping.full_append, List.nil_append, hnone,
        List.append_nil, List.nil_append, hg]
      rfl
    rwa [hfull, List.append_assoc] at hreached
  · -- the call is that of a partitioner that has read all
    have hreached := reached_of_reflects ho' []
    have hfull : full cap' [] (read ++ input) = full cap' [] read := by
      rw [Grouping.full_append, List.nil_append, hnone, List.append_nil]
    rw [hfull] at hreached
    obtain ⟨hrest, hmem, hafter⟩ := hreached.next_of_nil rfl
    refine .inr ?_
    cases htaken : nextFrom cap' o' [] with
    | some taken =>
      have hcall : (⟨cap', o, input⟩ : Partitioner).next = (⟨cap', o', []⟩ : Partitioner).next := by
        simp [next, next?, hnext, htaken]
      rw [hcall]
      exact ⟨hrest, hmem, hafter⟩
    | none =>
      have hcall : (⟨cap', o, input⟩ : Partitioner).next = (none, ⟨cap', o, []⟩) := by
        simp [next, next?, hnext, htaken]
      have hempty : o.groups = [] := groups_eq_nil_of_nextFrom (hnext.trans htaken)
      have hempty' : o'.groups = [] := groups_eq_nil_of_nextFrom htaken
      rw [hcall]
      refine ⟨rfl, fun g hg => absurd hg (Option.some_ne_none g).symm, rfl, hreflects.indexed, [], ?_, ?_,
        fun _ => rfl⟩
      · rw [hfull]
        rfl
      · rw [← ho'.toList, OpenGroups.toList, OpenGroups.toList, hempty, hempty']
        rfl

/-- The returned groups and the open ones are the groups of the operations that were read. -/
theorem Reached.groups_eq (h : Reached cap read gs p) :
    gs ++ p.opened.toList = Grouping.groups cap read := by
  obtain ⟨first, rfl, hopen, -⟩ := h.flushed
  rw [Grouping.groups, hopen, List.append_assoc]

/-- In a list in the order of opening, numbers compare as places do. -/
theorem lt_iff_of_pairwise {groups : List (Nat × OperationGroup)} {q q' : Nat × OperationGroup}
    {n m : Nat} (h : groups.Pairwise fun q q' => q.1 < q'.1 ∧
      ∃ n m, n < m ∧ OpenedAfter read n q.2 ∧ OpenedAfter read m q'.2)
    (hq : q ∈ groups) (hq' : q' ∈ groups) (hn : OpenedAfter read n q.2)
    (hm : OpenedAfter read m q'.2) : q.1 < q'.1 ↔ n < m := by
  obtain ⟨i, hi, rfl⟩ := List.getElem_of_mem hq
  obtain ⟨j, hj, rfl⟩ := List.getElem_of_mem hq'
  have hpairwise := List.pairwise_iff_getElem.1 h
  rcases Nat.lt_trichotomy i j with hlt | rfl | hlt
  · obtain ⟨hnumbers, n', m', hplaces, hn', hm'⟩ := hpairwise i j hi hj hlt
    rw [hn.unique hn', hm.unique hm']
    exact iff_of_true hnumbers hplaces
  · rw [hn.unique hm]
    exact iff_of_false (Nat.lt_irrefl _) (Nat.lt_irrefl _)
  · obtain ⟨hnumbers, m', n', hplaces, hm', hn'⟩ := hpairwise j i hj hi hlt
    rw [hn.unique hn', hm.unique hm']
    exact iff_of_false (Nat.lt_asymm hnumbers) (Nat.lt_asymm hplaces)

theorem Reached.accounts (hcap : 0 < cap) (h : Reached cap read gs p) :
    p.opened.Accounts cap read gs := by
  have hindexed := h.indexed
  have hdivision := Grouping.isDivision_groups hcap read
  rw [← h.groups_eq] at hdivision
  obtain ⟨first, -, hopen, -⟩ := h.flushed
  have hmem {s : Nat} {g : OperationGroup} (hg : p.opened.group? s = some g) :
      g ∈ p.opened.toList :=
    List.mem_map.2 ⟨_, hindexed.group?_eq_some_iff.1 hg, rfl⟩
  have hpartial {g : OperationGroup} (hg : g ∈ p.opened.toList) : g ∈ partials cap [] read := by
    rw [hopen]
    exact List.mem_append_right _ hg
  have hordered : p.opened.groups.Pairwise fun q q' => q.1 < q'.1 ∧
      ∃ n m, n < m ∧ OpenedAfter read n q.2 ∧ OpenedAfter read m q'.2 := by
    have hpairwise := Grouping.pairwise_partials cap [] read
    rw [hopen] at hpairwise
    exact hindexed.ordered.and (List.pairwise_map.1 (List.pairwise_append.1 hpairwise).2.1)
  refine ⟨fun key s => ?_, hindexed.nodup_keys, fun key => hindexed.mem_keys_iff, ?_, ?_, ?_, ?_, ?_,
    ?_, fun key => ?_⟩
  · simp only [hindexed.group?_eq_some_iff, hindexed.found]
  · simp [OpenGroups.keys, OpenGroups.toList, OpenGroups.count]
  · intro s g hg
    have hsize := Grouping.size_of_mem_partials hcap (hpartial (hmem hg))
    omega
  · intro s g hg
    exact hdivision.ofOneKey g (List.mem_append_right _ (hmem hg))
  · intro s g hg
    exact hindexed.below _ (hindexed.group?_eq_some_iff.1 hg)
  · intro s g hg
    obtain ⟨n, -, hopened⟩ := Grouping.exists_openedAfter (hpartial (hmem hg))
    exact ⟨n, hopened⟩
  · intro s g n t g' m hg hg' hn hm
    exact lt_iff_of_pairwise hordered (hindexed.group?_eq_some_iff.1 hg)
      (hindexed.group?_eq_some_iff.1 hg') hn hm
  · have hreturned := Grouping.ofKey_flatMap (fun g hg => hdivision.ofOneKey g
      (List.mem_append_left _ hg)) key
    rw [hreturned, ← hindexed.flatMap_filter_toList, ← List.flatMap_append, ← List.filter_append]
    exact hdivision.inOrder key

theorem after_succ (p : Partitioner) (n : Nat) : p.after (n + 1) = (p.after n).next.2 := by
  induction n generalizing p with
  | zero => rfl
  | succ n ih => exact ih p.next.2

theorem returned_succ (p : Partitioner) (n : Nat) :
    p.returned (n + 1) = p.returned n ++ (p.after n).next.1.toList := by
  induction n generalizing p with
  | zero => simp [returned, after]
  | succ n ih =>
    rw [returned, ih, returned, after, List.append_assoc]

/-- After any number of calls. -/
theorem reached_after (hcap : 0 < cap) (operations : List Operation) (n : Nat) :
    let p : Partitioner := ⟨cap, .empty, operations⟩
    ∃ read, operations = read ++ (p.after n).input ∧ Reached cap read (p.returned n) (p.after n) := by
  intro p
  induction n with
  | zero => exact ⟨[], rfl, reached_of_reflects (OpenGroups.reflects_empty cap) operations⟩
  | succ n ih =>
    obtain ⟨read, hread, hreached⟩ := ih
    rw [after_succ, returned_succ]
    rcases hreached.next_cases hcap with ⟨passed, op, g, hinput, -, -, hafter⟩ | ⟨hinput, -, hafter⟩
    · refine ⟨_, ?_, hafter⟩
      rw [hread, hinput]
      simp
    · refine ⟨_, ?_, hafter⟩
      rw [hinput, List.append_nil]
      exact hread

/-- Under a valid cap, however often a partitioner of some operations was asked: the two tables of open
groups name the same groups, these are not empty and not full, their numbers are in the order in which
they were opened, and with the groups that were returned they have the operations that were read. A call
that returns a full group reads up to the operation that fills it. -/
theorem accounts_after_start (config : BatchConfig) (h : config.IsValid) (operations : List Operation) :
    ∃ p, start config operations = .ok p ∧ ∀ n, ∃ read, operations = read ++ (p.after n).input ∧
      (p.after n).opened.Accounts config.cap read (p.returned n) ∧
      ∀ g, (p.after n).next.1 = some g → config.cap ≤ g.size →
        ∃ passed op, (p.after n).input = passed ++ op :: (p.after n).next.2.input ∧
          filledBy? config.cap (read ++ passed) op = some g := by
  have hcap : 0 < config.cap := h.1
  refine ⟨⟨config.cap, .empty, operations⟩, ?_, fun n => ?_⟩
  · rw [start, BatchConfig.validate, if_pos h]
    rfl
  obtain ⟨read, hread, hreached⟩ := reached_after hcap operations n
  refine ⟨read, hread, hreached.accounts hcap, fun g hg hfull => ?_⟩
  rcases hreached.next_cases hcap with ⟨passed, op, g', hinput, hg', hfilled, -⟩ | ⟨-, hpartial, -⟩
  · obtain rfl : g' = g := Option.some.inj (hg'.symm.trans hg)
    exact ⟨passed, op, hinput, hfilled⟩
  · have hsize := Grouping.size_of_mem_partials hcap (hpartial g hg)
    omega

/-- After two calls the groups `A` and `C` are open, and `A` has a number again. -/
theorem accounts_after_start_reopened :
    (⟨2⟩ : BatchConfig).IsValid ∧ ∃ p, start ⟨2⟩ [.retrieve "A" "0", .retrieve "A" "1",
        .retrieve "B" "2", .retrieve "A" "3", .retrieve "C" "4"] = .ok p ∧
      (p.after 2).opened.groups =
        [(2, ⟨"A", [.retrieve "A" "3"]⟩), (3, ⟨"C", [.retrieve "C" "4"]⟩)] ∧
      (p.after 2).opened.Accounts 2 [.retrieve "A" "0", .retrieve "A" "1", .retrieve "B" "2",
          .retrieve "A" "3", .retrieve "C" "4"]
        [⟨"A", [.retrieve "A" "0", .retrieve "A" "1"]⟩, ⟨"B", [.retrieve "B" "2"]⟩] := by
  have hvalid : (⟨2⟩ : BatchConfig).IsValid := by decide
  obtain ⟨p, hstart, hafter⟩ := accounts_after_start ⟨2⟩ hvalid [.retrieve "A" "0",
    .retrieve "A" "1", .retrieve "B" "2", .retrieve "A" "3", .retrieve "C" "4"]
  obtain rfl := Except.ok.inj hstart
  obtain ⟨read, hread, haccounts, -⟩ := hafter 2
  obtain rfl := hread.trans (List.append_nil read)
  exact ⟨hvalid, _, hstart, rfl, haccounts⟩

end Partitioner

end TableClient
