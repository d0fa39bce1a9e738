import TableClient.Batch.Config
import TableClient.Entity.Basic
import TableClient.Log.Line
import TableClient.Record.Layout

/-! Groups of operations that may be sent to the store at once: of one partition key, and no more
than a cap. Operations are read one by one into the open group of their key. A group is complete as
soon as it is as large as the cap; when no operations are left the open groups follow, in the order
in which they were opened. -/

namespace TableClient

structure OperationGroup where
  partitionKey : String
  operations : List Operation

namespace OperationGroup

def size (g : OperationGroup) : Nat := g.operations.length

def push (g : OperationGroup) (op : Operation) : OperationGroup :=
  { g with operations := g.operations ++ [op] }

/-- What is logged when a group is complete. -/
def report (g : OperationGroup) : LogEntry :=
  .ofEvent .batchFlushed
    [("operations", String.ofList (Text.decimal g.size)), ("partition_key", g.partitionKey)]

end OperationGroup

/-! ### Open groups -/

/-- The groups that may still grow. Each has a sequence number, given out when it was opened. -/
structure OpenGroups where
  /-- By sequence number, the earliest first. -/
  groups : List (Nat × OperationGroup)
  /-- The sequence number of the group of each key. -/
  sequences : List (String × Nat)
  nextSequence : Nat

namespace OpenGroups

def empty : OpenGroups := ⟨[], [], 0⟩

def count (o : OpenGroups) : Nat := o.groups.length

/-- The group of a sequence number. -/
def group? (o : OpenGroups) (sequence : Nat) : Option OperationGroup :=
  (o.groups.find? (·.1 = sequence)).map Prod.snd

/-- The sequence number of the group of a key, which is opened if need be. -/
def sequenceFor (o : OpenGroups) (key : String) : Nat × OpenGroups :=
  match Keyed.find? key o.sequences with
  | some sequence => (sequence, o)
  | none =>
    (o.nextSequence,
      ⟨o.groups ++ [(o.nextSequence, ⟨key, []⟩)], Keyed.insert key o.nextSequence o.sequences,
        o.nextSequence + 1⟩)

/-- Puts an operation at the end of a group. -/
def push (o : OpenGroups) (sequence : Nat) (op : Operation) : OpenGroups :=
  { o with groups := o.groups.map fun (s, g) => (s, if s = sequence then g.push op else g) }

/-- Puts an operation at the end of the group of its key, whose sequence number is returned. -/
def add (o : OpenGroups) (op : Operation) : Nat × OpenGroups :=
  let (sequence, o) := o.sequenceFor op.partitionKey
  (sequence, o.push sequence op)

/-- Takes a group out. -/
def close (o : OpenGroups) (sequence : Nat) (g : OperationGroup) : OpenGroups :=
  { o with
    groups := o.groups.filter (·.1 ≠ sequence)
    sequences := Keyed.erase g.partitionKey o.sequences }

/-- Takes a group out if it has reached the cap. -/
def takeFull? (cap : Nat) (o : OpenGroups) (sequence : Nat) :
    Option (OperationGroup × OpenGroups) :=
  match o.group? sequence with
  | some g => if cap ≤ g.size then some (g, o.close sequence g) else none
  | none => none

/-- Takes the group out that was opened first. -/
def takeFirst? (o : OpenGroups) : Option (OperationGroup × OpenGroups) :=
  match o.groups with
  | [] => none
  | (sequence, g) :: _ => some (g, o.close sequence g)

theorem count_add_le (o : OpenGroups) (op : Operation) : (o.add op).2.count ≤ o.count + 1 := by
  simp only [add, sequenceFor]
  split <;> simp [push, count]

theorem count_close_lt {o : OpenGroups} {sequence : Nat} {g : OperationGroup}
    (h : (sequence, g) ∈ o.groups) : (o.close sequence g).count < o.count := by
  simp only [close, count]
  exact List.length_filter_lt_length_iff_exists.2 ⟨_, h, by simp⟩

theorem count_lt_of_takeFull? {cap : Nat} {o : OpenGroups} {sequence : Nat}
    {result : OperationGroup × OpenGroups} (h : o.takeFull? cap sequence = some result) :
    result.2.count < o.count := by
  simp only [takeFull?] at h
  split at h
  · next g found =>
    split at h
    · obtain ⟨⟨s, g'⟩, member, same⟩ := Option.map_eq_some_iff.1 found
      have key := List.find?_some member
      simp only [decide_eq_true_eq] at key same
      subst key same
      cases h
      exact count_close_lt (List.mem_of_find?_eq_some member)
    · cases h
  · cases h

theorem count_lt_of_takeFirst? {o : OpenGroups} {result : OperationGroup × OpenGroups}
    (h : o.takeFirst? = some result) : result.2.count < o.count := by
  simp only [takeFirst?] at h
  split at h
  · cases h
  · next s g rest same =>
    cases h
    exact count_close_lt (by simp [same])

end OpenGroups

/-! ### Partitioning -/

/-- Operations that are being grouped. -/
structure Partitioner where
  cap : Nat
  opened : OpenGroups
  /-- The operations that were not read yet. -/
  input : List Operation

namespace Partitioner

def start (config : BatchConfig) (operations : List Operation) : Except BatchError Partitioner := do
  config.validate
  .ok ⟨config.cap, .empty, operations⟩

/-- Reads operations until a group is complete, or takes an open one when none are left. -/
def nextFrom (cap : Nat) (o : OpenGroups) : List Operation → Option (OperationGroup × Partitioner)
  | [] => o.takeFirst?.map fun (g, o) => (g, ⟨cap, o, []⟩)
  | op :: rest =>
    match (o.add op).2.takeFull? cap (o.add op).1 with
    | some (g, o) => some (g, ⟨cap, o, rest⟩)
    | none => nextFrom cap (o.add op).2 rest

/-- The next group. -/
def next? (p : Partitioner) : Option (OperationGroup × Partitioner) :=
  nextFrom p.cap p.opened p.input

/-- The next group if there is one, and the partitioner afterwards. -/
def next (p : Partitioner) : Option OperationGroup × Partitioner :=
  match p.next? with
  | some (g, p) => (some g, p)
  | none => (none, { p with input := [] })

/-- What is left to do: operations to read and groups to take out. -/
def pending (p : Partitioner) : Nat := p.input.length + p.opened.count

theorem pending_nextFrom {cap : Nat} {o : OpenGroups} {input : List Operation}
    {result : OperationGroup × Partitioner} (h : nextFrom cap o input = some result) :
    result.2.pending < input.length + o.count := by
  induction input generalizing o with
  | nil =>
    obtain ⟨taken, found, same⟩ := Option.map_eq_some_iff.1 h
    subst same
    simpa [pending] using OpenGroups.count_lt_of_takeFirst? found
  | cons op rest ih =>
    have grown := o.count_add_le op
    simp only [nextFrom] at h
    split at h
    · next g o' found =>
      cases h
      have shrunk := OpenGroups.count_lt_of_takeFull? found
      simp only [pending, List.length_cons] at *
      omega
    · have smaller := ih h
      simp only [List.length_cons]
      omega

theorem pending_next? {p : Partitioner} {result : OperationGroup × Partitioner}
    (h : p.next? = some result) : result.2.pending < p.pending :=
  pending_nextFrom h

/-- All groups, one after another. -/
def groups (p : Partitioner) : List OperationGroup :=
  match _h : p.next? with
  | some (g, rest) => g :: groups rest
  | none => []
termination_by p.pending
decreasing_by exact pending_next? _h

end Partitioner

/-- The groups of the operations on the entities of records. All records are converted before the
first group is made. -/
def Layout.partition {R : Type} (l : Layout R) (records : List R) (operation : Entity → Operation)
    (config : BatchConfig) : Except BatchError (List OperationGroup) := do
  let entities ← (records.mapM l.toEntity).mapError BatchError.mapping
  .ok (← Partitioner.start config (entities.map operation)).groups

end TableClient
