import TableClient.Proofs.Binary64.Order
import TableClient.Proofs.Filter.Meaning
import TableClient.Proofs.Value.Number

/-! Comparisons whose operands change sides. With the operator mirrored they evaluate to the same, whatever
the operands are, or fail in both ways. A comparison of an order with zero can be mirrored twice: as a
comparison, and inside the call that gives the order. -/

namespace TableClient

open TableClient.Filter

namespace Value

variable {a b k v : Value} {op : BinaryOp}

theorem relate_mirrored_iff (hop : op.isComparison) :
    b.relate op.mirrored a = .ok v ↔ a.relate op b = .ok v := by
  constructor
  · intro h
    obtain ⟨c, rfl⟩ := exists_bool_of_relate h
    have hback := relate_mirrored (BinaryOp.isComparison_mirrored hop) h
    rwa [BinaryOp.mirrored_mirrored] at hback
  · intro h
    obtain ⟨c, rfl⟩ := exists_bool_of_relate h
    exact relate_mirrored hop h

/-- Two values that have an order have the opposite one the other way round, null included. -/
theorem exists_order_swap (h : a.order b = .ok k) :
    ∃ o, k = orderNumber o ∧ b.order a = .ok (orderNumber o.swap) := by
  by_cases ha : a = null
  · subst ha
    cases b with
    | null => exact ⟨.eq, (Except.ok.inj h).symm, rfl⟩
    | _ => exact ⟨.lt, (Except.ok.inj h).symm, rfl⟩
  · by_cases hb : b = null
    · subst hb
      cases a with
      | null => exact absurd rfl ha
      | _ => exact ⟨.gt, (Except.ok.inj h).symm, rfl⟩
    · obtain ⟨o, ho, rfl⟩ := order_eq_ok h ha hb
      refine ⟨o, rfl, ?_⟩
      have hswap := compare_swap a b
      rw [ho, Option.map_some] at hswap
      rw [order.eq_def]
      split
      · exact absurd rfl ha
      · exact absurd rfl hb
      · exact absurd rfl ha
      · rw [hswap]
        cases o <;> rfl

/-- Against a zero of any width the number of an order has that order. -/
theorem compare_orderNumber_zero (o : Ordering) {z : Value} (hz : z.number? = some 0) :
    (orderNumber o).compare z = some o := by
  cases z with
  | int32 n =>
    have hzero : n.toInt = 0 := Int.cast_injective (Option.some.inj hz)
    exact compare_orderNumber o rfl ((Int32.toInt_toInt64 n).trans hzero)
  | int64 n => exact compare_orderNumber o rfl (Int.cast_injective (Option.some.inj hz))
  | double x =>
    have hkey : x.isNaN = false ∧ x.key = 0 := Binary64.key_of_toRat?_zero hz
    have hnumber (k : Int32) (hk : (Binary64.ofInt k.toInt64.toInt).isNaN = false) :
        (int32 k).compare (double x) =
          some (Ord.compare (Binary64.ofInt k.toInt64.toInt).key 0) := by
      rw [compare_double_right x (by simp), integer?, Option.bind_some, Binary64.compare, hk, hkey.1, hkey.2]
      rfl
    cases o
    · exact (hnumber (-1) (by decide +kernel)).trans (by decide +kernel)
    · exact (hnumber 0 (by decide +kernel)).trans (by decide +kernel)
    · exact (hnumber 1 (by decide +kernel)).trans (by decide +kernel)
  | _ => cases hz

end Value

namespace Expr

variable {env : Bindings} {op : BinaryOp}

/-- A comparison gives a boolean or fails, and mirrored it does the same. -/
theorem evaluate_mirrored_cases (hop : op.isComparison) (env : Bindings) (l r : Expr) :
    (∃ c, (binary op l r).evaluate env = .ok (.bool c) ∧
        (binary op.mirrored r l).evaluate env = .ok (.bool c)) ∨
      (∃ e, (binary op l r).evaluate env = .error e) ∧
        ∃ e, (binary op.mirrored r l).evaluate env = .error e := by
  rw [evaluate_comparison hop, evaluate_comparison (BinaryOp.isComparison_mirrored hop)]
  cases hl : l.evaluate env with
  | error e =>
    cases hr : r.evaluate env with
    | error e' => exact .inr ⟨⟨e, rfl⟩, e', rfl⟩
    | ok b => exact .inr ⟨⟨e, rfl⟩, e, rfl⟩
  | ok a =>
    cases hr : r.evaluate env with
    | error e => exact .inr ⟨⟨e, rfl⟩, e, rfl⟩
    | ok b =>
      simp only [ok_bind]
      cases hrelate : a.relate op b with
      | ok v =>
        obtain ⟨c, rfl⟩ := Value.exists_bool_of_relate hrelate
        exact .inl ⟨c, rfl, (Value.relate_mirrored_iff hop).2 hrelate⟩
      | error e =>
        cases hmirrored : b.relate op.mirrored a with
        | ok v => rw [(Value.relate_mirrored_iff hop).1 hmirrored] at hrelate; cases hrelate
        | error e' => exact .inr ⟨⟨e, rfl⟩, e', rfl⟩

/-- An order that is compared with zero can be compared from the other side, or be the order the other way
round. -/
theorem evaluate_mirrored_order (hop : op.isComparison) (call : OrderCall) {l r zero : Expr} {k z : Value}
    (hk : (call.call l r).evaluate env = .ok k) (hzero : zero.evaluate env = .ok z)
    (hz : z.number? = some 0) :
    ∃ c, (binary op (call.call l r) zero).evaluate env = .ok (.bool c) ∧
      (binary op.mirrored zero (call.call l r)).evaluate env = .ok (.bool c) ∧
      (binary op.mirrored (call.call r l) zero).evaluate env = .ok (.bool c) := by
  have hmirrored := BinaryOp.isComparison_mirrored hop
  obtain ⟨a, ha, hrest⟩ := bind_eq_ok_iff.1 ((evaluate_call call l r).symm.trans hk)
  obtain ⟨b, hb, horder⟩ := bind_eq_ok_iff.1 hrest
  obtain ⟨o, rfl, hswap⟩ := Value.exists_order_swap horder
  have hrelate := Value.relate_of_compare (Value.compare_orderNumber_zero o hz) hop
  refine ⟨op.holds o, ?_, ?_, ?_⟩
  · rw [evaluate_comparison hop, hk, hzero]
    exact hrelate
  · rw [evaluate_comparison hmirrored, hk, hzero]
    exact (Value.relate_mirrored_iff hop).2 hrelate
  · have hback : (call.call r l).evaluate env = .ok (Value.orderNumber o.swap) := by
      rw [evaluate_call, ha, hb]
      exact hswap
    rw [evaluate_comparison hmirrored, hback, hzero, ok_bind, ok_bind,
      Value.relate_of_compare (Value.compare_orderNumber_zero o.swap hz) hmirrored, BinaryOp.holds_mirrored,
      Ordering.swap_swap]

/-- Exchanging the operands of a comparison and mirroring its operator gives the same boolean, or both
fail. An order that a call gives is compared with zero to the same boolean from the other side, and with the
operands of the call exchanged. -/
theorem evaluate_mirrored (hop : op.isComparison) (env : Bindings) :
    (∀ l r : Expr, (∃ c, (binary op l r).evaluate env = .ok (.bool c) ∧
        (binary op.mirrored r l).evaluate env = .ok (.bool c)) ∨
      (∃ e, (binary op l r).evaluate env = .error e) ∧
        ∃ e, (binary op.mirrored r l).evaluate env = .error e) ∧
    ∀ (call : OrderCall) (l r zero : Expr) (k z : Value), (call.call l r).evaluate env = .ok k →
      zero.evaluate env = .ok z → z.number? = some 0 →
      ∃ c, (binary op (call.call l r) zero).evaluate env = .ok (.bool c) ∧
        (binary op.mirrored zero (call.call l r)).evaluate env = .ok (.bool c) ∧
        (binary op.mirrored (call.call r l) zero).evaluate env = .ok (.bool c) :=
  ⟨evaluate_mirrored_cases hop env, fun call _ _ _ _ _ hk hzero hz =>
    evaluate_mirrored_order hop call hk hzero hz⟩

/-- Null comes before a text, and an integer is compared with a double that is not a number. -/
theorem evaluate_mirrored_null :
    BinaryOp.isComparison .lt ∧
      (∃ c, (binary .lt (OrderCall.compareTo.call (constant .null) (constant (.string "x")))
          (constant (.int32 0))).evaluate [] = .ok (.bool c) ∧
        (binary .gt (constant (.int32 0))
          (OrderCall.compareTo.call (constant .null) (constant (.string "x")))).evaluate [] = .ok (.bool c) ∧
        (binary .gt (OrderCall.compareTo.call (constant (.string "x")) (constant .null))
          (constant (.int32 0))).evaluate [] = .ok (.bool c)) ∧
      ((∃ c, (binary .lt (constant (.int32 1)) (constant (.double .nan))).evaluate [] = .ok (.bool c) ∧
          (binary .gt (constant (.double .nan)) (constant (.int32 1))).evaluate [] = .ok (.bool c)) ∨
        (∃ e, (binary .lt (constant (.int32 1)) (constant (.double .nan))).evaluate [] = .error e) ∧
          ∃ e, (binary .gt (constant (.double .nan)) (constant (.int32 1))).evaluate [] = .error e) := by
  have hop : BinaryOp.isComparison .lt := by decide
  obtain ⟨hcomparison, horder⟩ := evaluate_mirrored hop []
  exact ⟨hop, horder .compareTo _ _ _ (.int32 (-1)) (.int32 0) rfl rfl rfl, hcomparison _ _⟩

end Expr

end TableClient
