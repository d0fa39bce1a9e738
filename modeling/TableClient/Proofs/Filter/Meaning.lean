import TableClient.Proofs.Filter.Shape

/-! What a filter says of a row, against what its formula is of the row. The rows of the store have the
members that the formula tests under the names of their columns. Where the formula is true or false, its
value and what the filter says are an outcome of its shape. -/

namespace TableClient

open TableClient.Filter

/-! ### Values of tests -/

namespace Value

theorem toCondition_eq_ok_iff {v : Value} {b : Bool} : v.toCondition = .ok b ↔ v = bool b := by
  cases v <;> simp [toCondition, bool?]

theorem negate_eq_ok_iff {v : Value} {b : Bool} : v.negate = .ok (bool b) ↔ v = bool !b := by
  cases v with
  | bool c => cases b <;> cases c <;> simp [negate]
  | _ => simp [negate]

theorem getD_member? {row : Value} {name : String} {v : Value} (h : row.readMember name = .ok v) :
    (row.member? name).getD null = v := by
  cases row with
  | record members =>
    rw [readMember] at h
    split at h
    next w hfind =>
      cases h
      simp [member?, hfind]
    next => cases h
  | null => cases h; rfl
  | _ => cases h

def orderNumber : Ordering → Value
  | .lt => int32 (-1)
  | .eq => int32 0
  | .gt => int32 1

theorem order_eq_ok {a b w : Value} (h : a.order b = .ok w) (ha : a ≠ null) (hb : b ≠ null) :
    ∃ o, a.compare b = some o ∧ w = orderNumber o := by
  rw [order.eq_def] at h
  split at h
  · exact absurd rfl ha
  · exact absurd rfl ha
  · exact absurd rfl hb
  · split at h
    next o ho =>
      cases h
      exact ⟨o, ho, by cases o <;> rfl⟩
    next => cases h

/-- Against zero the number of an order has that order. -/
theorem compare_orderNumber (o : Ordering) {z : Value} {n : Int64} (hz : z.integer? = some n)
    (h0 : n.toInt = 0) : (orderNumber o).compare z = some o := by
  have hnumber (k : Int32) : (int32 k).compare z = some (Ord.compare k.toInt64.toInt 0) := by
    cases z with
    | int32 m | int64 m =>
      simp only [integer?, Option.some.injEq] at hz
      subst hz
      simp only [Value.compare, integer?, Option.bind_eq_bind, Option.bind_some, h0]
    | _ => cases hz
  cases o <;> exact hnumber _

end Value

namespace Expr

variable {env : Bindings}

theorem evaluate_field (param name : String) (row : Value) :
    (field param name).evaluate [(param, row)] = row.readMember name := by
  simp [evaluate, Keyed.find?]

theorem evaluate_comparison {op : BinaryOp} (h : op.isComparison) (l r : Expr) :
    (binary op l r).evaluate env =
      (do let a ← l.evaluate env; let b ← r.evaluate env; a.relate op b) := by
  cases op <;> first | rfl | exact absurd h (by decide)

/-- On whichever side an expression stands, it is compared by the operator seen from the left. -/
theorem evaluate_place {op : BinaryOp} (hop : op.isComparison) (side : Side) {e other : Expr}
    {v : Value} {c : Bool} (hv : other.evaluate env = .ok v)
    (h : (side.place (binary op) e other).evaluate env = .ok (.bool c)) :
    ∃ a, e.evaluate env = .ok a ∧ a.relate (side.orient op) v = .ok (.bool c) := by
  cases side with
  | left =>
    rw [Side.place, evaluate_comparison hop, hv] at h
    obtain ⟨a, ha, hrelate⟩ := bind_eq_ok_iff.1 h
    exact ⟨a, ha, hrelate⟩
  | right =>
    rw [Side.place, evaluate_comparison hop, hv, ok_bind] at h
    obtain ⟨a, ha, hrelate⟩ := bind_eq_ok_iff.1 h
    exact ⟨a, ha, Value.relate_mirrored hop hrelate⟩

theorem evaluate_call (c : OrderCall) (a b : Expr) :
    (c.call a b).evaluate env =
      (do let v ← a.evaluate env; let w ← b.evaluate env; v.order w) := by
  cases c with
  | compareTo =>
    cases ha : a.evaluate env <;> cases hb : b.evaluate env <;>
      simp [OrderCall.call, evaluate, evaluateReceiver, evaluateAll, Method.invoke, ha, hb]
  | compare | compareOrdinal =>
    cases ha : a.evaluate env <;> cases hb : b.evaluate env <;>
      simp [OrderCall.call, evaluate, evaluateReceiver, evaluateAll, Method.invoke, ha, hb]

/-- A conjunction stops at a false side, and else is its second side. -/
theorem evaluate_and {l r : Expr} {b : Bool}
    (h : (binary .and l r).evaluate env = .ok (.bool b)) :
    (l.evaluate env = .ok (.bool false) ∧ b = false) ∨
      (l.evaluate env = .ok (.bool true) ∧ r.evaluate env = .ok (.bool b)) := by
  rw [evaluate] at h
  obtain ⟨v, hv, hcond⟩ := bind_eq_ok_iff.1 h
  obtain ⟨c, hc, hrest⟩ := bind_eq_ok_iff.1 hcond
  rw [Value.toCondition_eq_ok_iff.1 hc] at hv
  cases c with
  | false =>
    cases hrest
    exact .inl ⟨hv, rfl⟩
  | true =>
    obtain ⟨w, hw, hright⟩ := bind_eq_ok_iff.1 hrest
    obtain ⟨d, hd, ⟨⟩⟩ := bind_eq_ok_iff.1 hright
    rw [Value.toCondition_eq_ok_iff.1 hd] at hw
    exact .inr ⟨hv, hw⟩

theorem evaluate_or {l r : Expr} {b : Bool}
    (h : (binary .or l r).evaluate env = .ok (.bool b)) :
    (l.evaluate env = .ok (.bool true) ∧ b = true) ∨
      (l.evaluate env = .ok (.bool false) ∧ r.evaluate env = .ok (.bool b)) := by
  rw [evaluate] at h
  obtain ⟨v, hv, hcond⟩ := bind_eq_ok_iff.1 h
  obtain ⟨c, hc, hrest⟩ := bind_eq_ok_iff.1 hcond
  rw [Value.toCondition_eq_ok_iff.1 hc] at hv
  cases c with
  | true =>
    cases hrest
    exact .inl ⟨hv, rfl⟩
  | false =>
    obtain ⟨w, hw, hright⟩ := bind_eq_ok_iff.1 hrest
    obtain ⟨d, hd, ⟨⟩⟩ := bind_eq_ok_iff.1 hright
    rw [Value.toCondition_eq_ok_iff.1 hd] at hw
    exact .inr ⟨hv, hw⟩

end Expr

theorem Value.IsLiteral.ne_null {v : Value} (h : v.IsLiteral) : v ≠ .null := by
  rintro rfl
  cases h

/-! ### Rows of the store -/

def RowTest.isOrder : RowTest → Bool
  | order .. => true
  | _ => false

/-- The row `wire` has each member that the formula tests under the name of its column. -/
def Formula.Stored (f : Formula) (renames : Renames) (row wire : Value) : Prop :=
  ∀ t ∈ f.tests, wire.member? (renames.column t.field) = row.member? t.field

/-- No order is asked of a null member. -/
def Formula.Ordered (f : Formula) (row : Value) : Prop :=
  ∀ t ∈ f.tests, t.isOrder → row.readMember t.field ≠ .ok .null

/-- What relates a test on a row to its filter on the stored row. -/
structure RowTest.Fits (renames : Renames) (row wire : Value) (t : RowTest) : Prop where
  translatable : t.Translatable renames
  stored : wire.member? (renames.column t.field) = row.member? t.field
  ordered : t.isOrder → row.readMember t.field ≠ .ok .null

theorem Formula.fits {f : Formula} {renames : Renames} {row wire : Value}
    (h : f.Translatable renames) (hstored : f.Stored renames row wire) (hordered : f.Ordered row) :
    ∀ t ∈ f.tests, t.Fits renames row wire :=
  fun t ht => ⟨h t ht, hstored t ht, hordered t ht⟩

def RowTest.shape : RowTest → Shape
  | @search _ [] _ => .emptySearch
  | _ => .test

def Formula.shape : Formula → Shape
  | test t => t.shape
  | not f => .not f.shape
  | and f g => .and f.shape g.shape
  | or f g => .or f.shape g.shape

/-! ### What phrases say -/

namespace Filter.Phrase

/-- What a fragment says of a row, if it puts a constraint. -/
abbrev verdict (c : Option Phrase) (row : Value) : Option Bool := c.map (·.holds row)

variable {row : Value}

theorem verdict_both (l r : Option Phrase) :
    verdict (both l r) row = meet (verdict l row) (verdict r row) := by
  cases l <;> cases r <;> rfl

theorem verdict_either (l r : Option Phrase) :
    verdict (either l r) row = join (verdict l row) (verdict r row) := by
  cases l <;> cases r <;> rfl

theorem holds_negated (atomic : Bool) (p : Phrase) : (negated atomic p).holds row = !p.holds row := by
  unfold negated
  split <;> rfl

theorem verdict_negated (atomic : Bool) (c : Option Phrase) :
    verdict (c.map (negated atomic)) row = (verdict c row).map (!·) := by
  cases c with
  | none => rfl
  | some p => exact congrArg some (holds_negated atomic p)

theorem holds_chain_or (row : Value) (p : Phrase) (ps : List Phrase) :
    (chain or p ps).holds row = (p :: ps).any (·.holds row) := by
  induction ps generalizing p with
  | nil => simp [chain]
  | cons q qs ih =>
    rw [List.any_cons, ← ih q]
    rfl

theorem holds_chain_and (row : Value) (p : Phrase) (ps : List Phrase) :
    (chain and p ps).holds row = (p :: ps).all (·.holds row) := by
  induction ps generalizing p with
  | nil => simp [chain]
  | cons q qs ih =>
    rw [List.all_cons, ← ih q]
    rfl

theorem holds_testOf {name : String} {a : Value} (h : (row.member? name).getD .null = a)
    (op : BinaryOp) (v : Value) : (testOf name op v).holds row = satisfies op a v := by
  subst h
  rfl

/-- A search accepts the rows whose column equals an item. -/
theorem verdict_search {name : String} {a : Value} (h : (row.member? name).getD .null = a) (v : Value)
    (vs : List Value) :
    verdict (search name false (v :: vs)) row = some ((v :: vs).any (a.looselyEquals ·)) := by
  have hholds := holds_chain_or row (testOf name .eq v) (vs.map (testOf name .eq))
  rw [← List.map_cons, List.any_map] at hholds
  subst h
  exact congrArg some hholds

/-- The negated search says the opposite. -/
theorem verdict_search_negated (name : String) (items : List Value) :
    verdict (search name true items) row = (verdict (search name false items) row).map (!·) := by
  cases items with
  | nil => rfl
  | cons v vs =>
    have hand := holds_chain_and row (testOf name .ne v) (vs.map (testOf name .ne))
    have hor := holds_chain_or row (testOf name .eq v) (vs.map (testOf name .eq))
    rw [← List.map_cons, List.all_map] at hand
    rw [← List.map_cons, List.any_map] at hor
    have hopposite := hand.trans (List.not_any_eq_all_not ..).symm
    refine congrArg some (hopposite.trans ?_)
    exact congrArg (!·) hor.symm

end Filter.Phrase

/-! ### Outcomes -/

section Outcomes

variable {renames : Renames} {param : String} {row wire : Value} {b : Bool}

/-- The order between a member and an operand, whichever stands first, relates to zero as the two
relate to each other. -/
theorem Value.relate_of_order {op : BinaryOp} (hop : op.isComparison) (inside : Side)
    {a v k z : Value} {n : Int64} (hz : z.integer? = some n) (h0 : n.toInt = 0) (ha : a ≠ .null)
    (hv : v ≠ .null)
    (hk : (match inside with | .left => a.order v | .right => v.order a) = .ok k)
    (hrelate : k.relate op z = .ok (.bool b)) : a.relate (inside.orient op) v = .ok (.bool b) := by
  cases inside with
  | left =>
    obtain ⟨o, ho, rfl⟩ := order_eq_ok hk ha hv
    rw [relate_of_compare (compare_orderNumber o hz h0) hop] at hrelate
    rw [Side.orient, relate_of_compare ho hop, hrelate]
  | right =>
    obtain ⟨o, ho, rfl⟩ := order_eq_ok hk hv ha
    rw [relate_of_compare (compare_orderNumber o hz h0) hop] at hrelate
    exact relate_mirrored hop ((relate_of_compare ho hop).trans hrelate)

/-- A call for an order evaluates its operands where they stand. -/
theorem Expr.evaluate_place_call (c : OrderCall) (inside : Side) {e other : Expr} {env : Bindings}
    {v k : Value} (hv : other.evaluate env = .ok v)
    (h : (inside.place c.call e other).evaluate env = .ok k) :
    ∃ a, e.evaluate env = .ok a ∧
      (match inside with | .left => a.order v | .right => v.order a) = .ok k := by
  cases inside with
  | left =>
    rw [Side.place, evaluate_call, hv] at h
    obtain ⟨a, ha, horder⟩ := bind_eq_ok_iff.1 h
    exact ⟨a, ha, horder⟩
  | right =>
    rw [Side.place, evaluate_call, hv, ok_bind] at h
    obtain ⟨a, ha, horder⟩ := bind_eq_ok_iff.1 h
    exact ⟨a, ha, horder⟩

theorem RowTest.verdict_of_evaluate {t : RowTest} (h : t.Fits renames row wire)
    (heval : (t.body param).evaluate [(param, row)] = .ok (.bool b)) :
    (b, Phrase.verdict (t.phrase? renames) wire) ∈ t.shape.outcomes := by
  obtain ⟨h, hstored, hordered⟩ := h
  have hmem (c : Bool) : (c, some c) ∈ Shape.test.outcomes := by cases c <;> decide
  have hvalue {a : Value} (ha : row.readMember t.field = .ok a) :
      (wire.member? (renames.column t.field)).getD .null = a := by
    rw [hstored, Value.getD_member? ha]
  cases t with
  | member field =>
    rw [body, Expr.evaluate_field] at heval
    have hget : (wire.member? (renames.column field)).getD .null = .bool b := hvalue heval
    have hsome : wire.member? (renames.column field) = some (.bool b) := by
      cases hm : wire.member? (renames.column field) with
      | none => rw [hm] at hget; cases hget
      | some w => rw [hm] at hget; exact congrArg some hget
    have hholds : (Phrase.column (renames.column field)).holds wire = b := by
      rw [Phrase.holds, Phrase.condition, Condition.holds, hsome]
      cases b <;> rfl
    subst hholds
    exact hmem _
  | @compare op side field v operand =>
    obtain ⟨-, hop, hv⟩ := h
    obtain ⟨a, ha, hrelate⟩ := Expr.evaluate_place hop side (operand.evaluate_eq _) heval
    rw [Expr.evaluate_field] at ha
    have hholds := Phrase.holds_testOf (hvalue ha) (side.orient op) v
    rw [Value.satisfies_of_relate hrelate] at hholds
    subst hholds
    exact hmem _
  | @order c op side inside field v z operand zero =>
    obtain ⟨-, hop, hv, n, hn, hz⟩ := h
    obtain ⟨k, hk, houter⟩ := Expr.evaluate_place hop side (zero.evaluate_eq _) heval
    obtain ⟨a, ha, horder⟩ := Expr.evaluate_place_call c inside (operand.evaluate_eq _) hk
    rw [Expr.evaluate_field] at ha
    have hnull : a ≠ .null := by
      rintro rfl
      exact hordered rfl ha
    have horient := side.isComparison_orient hop
    have hrelate := Value.relate_of_order horient inside hn hz hnull hv.ne_null horder houter
    have hholds := Phrase.holds_testOf (hvalue ha) (inside.orient (side.orient op)) v
    rw [Value.satisfies_of_relate hrelate] at hholds
    subst hholds
    exact hmem _
  | @search field items collection =>
    rw [body, Expr.evaluate, Expr.evaluateReceiver, collection.evaluate_eq, ok_bind, ok_bind,
      Expr.evaluateAll, Expr.evaluate_field] at heval
    obtain ⟨as, has, hinvoke⟩ := bind_eq_ok_iff.1 heval
    obtain ⟨a, ha, ⟨⟩⟩ := bind_eq_ok_iff.1 has
    have hany : items.any (·.looselyEquals a) = b := by
      simpa [Method.invoke, Value.contains] using hinvoke
    cases items with
    | nil =>
      subst hany
      show (false, none) ∈ Shape.emptySearch.outcomes
      decide
    | cons v vs =>
      have hget : (wire.member? (renames.column field)).getD .null = a := hvalue ha
      have hverdict := Phrase.verdict_search hget v vs
      simp only [← Value.looselyEquals_comm a, hany] at hverdict
      rw [phrase?, hverdict]
      exact hmem b

theorem RowTest.isSome_phrase? (t : RowTest) :
    (t.phrase? renames).isSome = t.shape.constrains := by
  cases t with
  | @search field items collection => cases items <;> rfl
  | _ => rfl

namespace Formula

/-- The negation says the opposite, whichever way it is written. -/
theorem verdict_not (f : Formula) :
    Phrase.verdict ((not f).phrase? renames) wire =
      (Phrase.verdict (f.phrase? renames) wire).map (!·) := by
  rcases f.search_or_ne with ⟨field, items, c, rfl⟩ | hne
  · exact Phrase.verdict_search_negated _ items
  · rw [phrase?_not hne, Phrase.verdict_negated]

/-- The filter puts a constraint exactly where the shape says so. -/
theorem isSome_verdict (f : Formula) (renames : Renames) (wire : Value) :
    (Phrase.verdict (f.phrase? renames) wire).isSome = f.shape.constrains := by
  induction f with
  | test t =>
    rw [Option.isSome_map]
    exact t.isSome_phrase?
  | not f ih => rw [verdict_not, Option.isSome_map, ih, shape, Shape.constrains]
  | and f g ihf ihg =>
    rw [phrase?, Phrase.verdict_both, shape, Shape.constrains, ← ihf, ← ihg]
    cases Phrase.verdict (f.phrase? renames) wire <;>
      cases Phrase.verdict (g.phrase? renames) wire <;> rfl
  | or f g ihf ihg =>
    rw [phrase?, Phrase.verdict_either, shape, Shape.constrains, ← ihf, ← ihg]
    cases Phrase.verdict (f.phrase? renames) wire <;>
      cases Phrase.verdict (g.phrase? renames) wire <;> rfl

/-- Where a formula is true or false of a row, that and what its filter says of the stored row are an
outcome of its shape. A side that was not evaluated may say anything the shape allows. -/
theorem verdict_of_evaluate {f : Formula} (h : ∀ t ∈ f.tests, t.Fits renames row wire)
    (heval : (f.body param).evaluate [(param, row)] = .ok (.bool b)) :
    (b, Phrase.verdict (f.phrase? renames) wire) ∈ f.shape.outcomes := by
  induction f generalizing b with
  | test t => exact t.verdict_of_evaluate (h t List.mem_cons_self) heval
  | not f ih =>
    rw [body, Expr.evaluate] at heval
    obtain ⟨v, hv, hnegate⟩ := bind_eq_ok_iff.1 heval
    rw [Value.negate_eq_ok_iff.1 hnegate] at hv
    have hmem := Shape.mem_outcomes_not (ih h hv)
    rw [Bool.not_not] at hmem
    rwa [verdict_not]
  | and f g ihf ihg =>
    rw [tests, List.forall_mem_append] at h
    rw [phrase?, Phrase.verdict_both, shape]
    rcases Expr.evaluate_and heval with ⟨hf, rfl⟩ | ⟨hf, hg⟩
    · obtain ⟨w, hw⟩ := Shape.exists_mem_outcomes (g.isSome_verdict renames wire)
      exact Shape.mem_outcomes_and (ihf h.1 hf) hw
    · exact Shape.mem_outcomes_and (ihf h.1 hf) (ihg h.2 hg)
  | or f g ihf ihg =>
    rw [tests, List.forall_mem_append] at h
    rw [phrase?, Phrase.verdict_either, shape]
    rcases Expr.evaluate_or heval with ⟨hf, rfl⟩ | ⟨hf, hg⟩
    · obtain ⟨w, hw⟩ := Shape.exists_mem_outcomes (g.isSome_verdict renames wire)
      exact Shape.mem_outcomes_or (ihf h.1 hf) hw
    · exact Shape.mem_outcomes_or (ihf h.1 hf) (ihg h.2 hg)

end Formula

end Outcomes

end TableClient
