import TableClient.Filter.Condition
import TableClient.Proofs.Expr.Reduce

/-! The order of values and their loose equality, seen from both sides: exchanging two values reverses
their order, and leaves their equality as it is. A relation between values is therefore kept if its
operator is mirrored while its operands change sides. -/

namespace TableClient

open Std (OrientedOrd)

theorem BinaryOp.isComparison_mirrored {op : BinaryOp} (h : op.isComparison) :
    op.mirrored.isComparison := by
  cases op <;> first | rfl | exact absurd h (by decide)

theorem Binary64.compare_swap (x y : Binary64) : y.compare x = (x.compare y).map Ordering.swap := by
  unfold Binary64.compare
  rw [Bool.or_comm, OrientedOrd.eq_swap (a := y.key)]
  split <;> rfl

theorem Binary64.sameNumber_comm (x y : Binary64) : y.sameNumber x = x.sameNumber y := by
  rw [Binary64.sameNumber, Binary64.sameNumber, Bool.and_comm (!y.isNaN), Bool.beq_comm]

theorem Guid.compare_swap (g h : Guid) : h.compare g = (g.compare h).swap :=
  OrientedOrd.eq_swap

theorem Instant.compare_swap (s t : Instant) : t.compare s = (s.compare t).swap := by
  simp only [Instant.compare, Ordering.swap_then]
  rw [← OrientedOrd.eq_swap (a := t.seconds), ← OrientedOrd.eq_swap (a := t.nanos)]

namespace Value

/-- A double against a value of another kind sees the integer that the value is. -/
theorem compare_double_left (x : Binary64) {b : Value} (h : ∀ y, b ≠ double y) :
    (double x).compare b = b.integer?.bind fun n => x.compare (.ofInt n.toInt) :=
  Value.compare.eq_7 b x h

theorem compare_double_right (x : Binary64) {b : Value} (h : ∀ y, b ≠ double y) :
    b.compare (double x) = b.integer?.bind fun n => (Binary64.ofInt n.toInt).compare x :=
  Value.compare.eq_8 b x h

theorem compare_double_swap (x : Binary64) {b : Value} (h : ∀ y, b ≠ double y) :
    (double x).compare b = (b.compare (double x)).map Ordering.swap ∧
      b.compare (double x) = ((double x).compare b).map Ordering.swap := by
  rw [compare_double_left x h, compare_double_right x h, Option.map_bind, Option.map_bind]
  constructor
  · refine congrArg _ (funext fun n => ?_)
    rw [Function.comp_apply, Binary64.compare_swap]
  · refine congrArg _ (funext fun n => ?_)
    rw [Function.comp_apply, Binary64.compare_swap]

theorem compare_swap (a b : Value) : b.compare a = (a.compare b).map Ordering.swap := by
  have hswap {α : Type} [Ord α] [OrientedOrd α] (x y : α) :
      some (Ord.compare y x) = (some (Ord.compare x y)).map Ordering.swap :=
    congrArg some OrientedOrd.eq_swap
  cases a with
  | double x =>
    cases b with
    | double y => exact Binary64.compare_swap x y
    | _ => exact (compare_double_swap x (by simp)).2
  | _ =>
    cases b with
    | double y => exact (compare_double_swap y (by simp)).1
    | _ =>
      -- kinds without an order between them are left to `rfl`
      first
        | exact hswap _ _
        | exact congrArg some (Guid.compare_swap _ _)
        | exact congrArg some (Instant.compare_swap _ _)
        | rfl

mutual

theorem equal_comm (a b : Value) : b.equal a = a.equal b := by
  cases a <;> cases b <;> first
    | exact Bool.beq_comm
    | exact Binary64.sameNumber_comm _ _
    | exact equalItems_comm _ _
    | exact equalMembers_comm _ _
    | rfl

theorem equalItems_comm (as bs : List Value) : equalItems bs as = equalItems as bs := by
  cases as <;> cases bs
  case cons.cons a as b bs => rw [equalItems, equalItems, equal_comm a b, equalItems_comm as bs]
  all_goals rfl

theorem equalMembers_comm (as bs : List (String × Value)) :
    equalMembers bs as = equalMembers as bs := by
  cases as <;> cases bs
  case cons.cons a as b bs =>
    obtain ⟨k, a⟩ := a
    obtain ⟨l, b⟩ := b
    rw [equalMembers, equalMembers, Bool.beq_comm, equal_comm a b, equalMembers_comm as bs]
  all_goals rfl

end

theorem looselyEquals_comm (a b : Value) : b.looselyEquals a = a.looselyEquals b := by
  have hbeq : (b == a) = (a == b) := equal_comm a b
  rw [looselyEquals, looselyEquals, compare_swap a b, Bool.or_comm, Bool.and_comm, hbeq]
  cases a.compare b <;> simp

/-! ### Relations -/

theorem isNull_of_compare {a b : Value} {o : Ordering} (h : a.compare b = some o) :
    a.isNull = false ∧ b.isNull = false := by
  have hnull (c : Value) : null.compare c = none := by
    cases c <;> rfl
  constructor
  · cases a with
    | null => rw [hnull] at h; cases h
    | _ => rfl
  · cases b with
    | null => rw [compare_swap null a, hnull] at h; cases h
    | _ => rfl

theorem looselyEquals_of_compare {a b : Value} {o : Ordering} (h : a.compare b = some o) :
    a.looselyEquals b = o.isEq := by
  obtain ⟨ha, hb⟩ := isNull_of_compare h
  simp [looselyEquals, ha, hb, h]

/-- Between values that have an order, a relation is what the operator makes of the order. -/
theorem relate_of_compare {a b : Value} {o : Ordering} (h : a.compare b = some o) {op : BinaryOp}
    (hop : op.isComparison) : a.relate op b = .ok (bool (op.holds o)) := by
  cases op with
  | eq => rw [relate, looselyEquals_of_compare h, BinaryOp.holds]
  | ne => rw [relate, looselyEquals_of_compare h]; cases o <;> rfl
  | and | or => exact absurd hop (by decide)
  | _ => simp only [relate, h]

/-- Values without an order are in no relation but equality, and if one of them is null then in none
of the others. -/
theorem relate_eq_ok_of_not_compare {a b : Value} {op : BinaryOp} {c : Bool}
    (hc : a.compare b = none) (heq : op ≠ .eq) (hne : op ≠ .ne) :
    a.relate op b = .ok (bool c) ↔ (a.isNull || b.isNull) ∧ c = false := by
  have hrelate : a.relate op b =
      if a.isNull || b.isNull then .ok (bool false) else incomparable a b := by
    cases op <;> first | exact absurd rfl heq | exact absurd rfl hne | simp only [relate, hc]
  rw [hrelate]
  split
  next hnull => simp [hnull, eq_comm]
  next hnull => simp [hnull, incomparable]

/-- Values that an operator relates are related or are not. -/
theorem exists_bool_of_relate {a b v : Value} {op : BinaryOp} (h : a.relate op b = .ok v) :
    ∃ c, v = bool c := by
  rw [relate.eq_def] at h
  split at h
  · cases h
    exact ⟨_, rfl⟩
  · cases h
    exact ⟨_, rfl⟩
  · split at h
    · cases h
      exact ⟨_, rfl⟩
    · split at h
      · cases h
        exact ⟨_, rfl⟩
      · cases h

/-- Exchanging the operands of a relation and mirroring its operator does not change its value. -/
theorem relate_mirrored {a b : Value} {op : BinaryOp} {c : Bool} (hop : op.isComparison)
    (h : b.relate op a = .ok (bool c)) : a.relate op.mirrored b = .ok (bool c) := by
  by_cases heq : op = .eq
  · subst heq
    show a.relate .eq b = .ok (bool c)
    rwa [relate, looselyEquals_comm b a]
  by_cases hne : op = .ne
  · subst hne
    show a.relate .ne b = .ok (bool c)
    rwa [relate, looselyEquals_comm b a]
  have hswap := compare_swap b a
  cases hc : b.compare a with
  | some o =>
    rw [hc, Option.map_some] at hswap
    rw [relate_of_compare hswap (BinaryOp.isComparison_mirrored hop), BinaryOp.holds_mirrored, Ordering.swap_swap,
      ← relate_of_compare hc hop, h]
  | none =>
    have hmirrored : op.mirrored ≠ .eq ∧ op.mirrored ≠ .ne := by
      cases op <;> first | exact absurd rfl heq | exact absurd rfl hne | exact ⟨by decide, by decide⟩
    rw [hc, Option.map_none] at hswap
    rw [relate_eq_ok_of_not_compare hc heq hne, Bool.or_comm] at h
    exact (relate_eq_ok_of_not_compare hswap hmirrored.1 hmirrored.2).2 h

/-- A test of a filter decides as the relation between the values does. -/
theorem satisfies_of_relate {a b : Value} {op : BinaryOp} {c : Bool}
    (h : a.relate op b = .ok (bool c)) : Filter.satisfies op a b = c := by
  by_cases heq : op = .eq
  · subst heq
    simpa [relate, Filter.satisfies] using h
  by_cases hne : op = .ne
  · subst hne
    simpa [relate, Filter.satisfies] using h
  have hsatisfies : Filter.satisfies op a b = (a.compare b).any op.holds := by
    cases op <;> first | rfl | exact absurd rfl heq | exact absurd rfl hne
  rw [hsatisfies]
  cases hc : a.compare b with
  | some o =>
    have hrelate : a.relate op b = .ok (bool (op.holds o)) := by
      cases op <;> first | exact absurd rfl heq | exact absurd rfl hne | simp only [relate, hc]
    rw [hrelate] at h
    simpa using h
  | none => rw [((relate_eq_ok_of_not_compare hc heq hne).1 h).2]; rfl

end Value

end TableClient
