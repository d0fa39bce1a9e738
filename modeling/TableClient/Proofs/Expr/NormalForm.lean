import Mathlib.Data.List.Forall2
import TableClient.Proofs.Expr.Reduce

/-! Normal forms of expressions. Reducing leaves nothing to fold at any depth: below a lambda, beside
the row, or in a branch that evaluation would not reach. An expression with nothing to fold is reduced
to itself, so reducing twice is reducing once. -/

namespace TableClient.Expr

/-! ### Parts -/

def parts : Expr → List Expr
  | constant _ | parameter _ | source _ => []
  | member target _ => [target]
  | not operand => [operand]
  | binary _ left right => [left, right]
  | call _ receiver args => receiver.toList ++ args
  | newArray _ items => items
  | new members => members.map Prod.snd
  | lambda _ body => [body]

/-- An expression stands in another one, at any depth. -/
inductive IsWithin (s : Expr) : Expr → Prop
  | self : IsWithin s s
  | inside {c e : Expr} : c ∈ e.parts → IsWithin s c → IsWithin s e

/-- Nothing is left to fold: no closed part reads a member, makes an array or calls anything but an
operator. -/
def IsNormal (e : Expr) : Prop :=
  ∀ s, IsWithin s e → s.isClosed → (∀ target name, s ≠ member target name) ∧
    (∀ element items, s ≠ newArray element items) ∧
    ∀ method receiver args, s = call method receiver args → ∃ space name, method = .operator space name

theorem sizeOf_lt_of_mem_parts {c e : Expr} (h : c ∈ e.parts) : sizeOf c < sizeOf e := by
  cases e with
  | constant | parameter | source => cases h
  | not =>
    cases List.mem_singleton.1 h
    rw [not.sizeOf_spec]
    omega
  | member =>
    cases List.mem_singleton.1 h
    rw [member.sizeOf_spec]
    omega
  | lambda =>
    cases List.mem_singleton.1 h
    rw [lambda.sizeOf_spec]
    omega
  | binary op left right =>
    rw [binary.sizeOf_spec]
    rcases List.mem_pair.1 h with rfl | rfl <;> omega
  | call method receiver args =>
    rw [call.sizeOf_spec]
    rcases List.mem_append.1 h with h | h
    · cases Option.mem_toList.1 h
      rw [Option.some.sizeOf_spec]
      omega
    · have hlt := List.sizeOf_lt_of_mem h
      omega
  | newArray element items =>
    have hlt : sizeOf c < sizeOf items := List.sizeOf_lt_of_mem h
    rw [newArray.sizeOf_spec]
    omega
  | new members =>
    obtain ⟨⟨name, c⟩, hm, rfl⟩ := List.mem_map.1 h
    have hlt := List.sizeOf_lt_of_mem hm
    rw [Prod.mk.sizeOf_spec] at hlt
    rw [new.sizeOf_spec]
    show sizeOf c < _
    omega

/-- What passes from the parts of a node to the node holds of every expression. -/
theorem parts_induction {motive : Expr → Prop}
    (step : ∀ e, (∀ c ∈ e.parts, motive c) → motive e) (e : Expr) : motive e :=
  step e fun c _ => parts_induction step c
termination_by sizeOf e
decreasing_by exact sizeOf_lt_of_mem_parts ‹_›

/-- The kinds that fold, other than a constant. -/
theorem isFoldable_imp_constant_iff {e : Expr} : (e.isFoldable → ∃ v, e = constant v) ↔
    (∀ target name, e ≠ member target name) ∧ (∀ element items, e ≠ newArray element items) ∧
      ∀ method receiver args, e = call method receiver args → ∃ space name, method = .operator space name := by
  cases e with
  | call method receiver args => cases method <;> simp [isFoldable, Method.isOperator]
  | _ => simp [isFoldable]

theorem isNormal_iff {e : Expr} :
    e.IsNormal ↔ (e.isClosed → e.isFoldable → ∃ v, e = constant v) ∧ ∀ c ∈ e.parts, c.IsNormal := by
  rw [isFoldable_imp_constant_iff]
  constructor
  · intro h
    exact ⟨h e .self, fun c hc s hs => h s (.inside hc hs)⟩
  · rintro ⟨hself, hparts⟩ s hs
    cases hs with
    | self => exact hself
    | inside hc hs => exact hparts _ hc s hs

theorem isNormal_constant (v : Value) : (constant v).IsNormal :=
  isNormal_iff.2 ⟨fun _ _ => ⟨v, rfl⟩, nofun⟩

/-! ### Closedness by parts -/

/-- The nodes that no value stands for without a row: the row, a source, and a function of a row. -/
def isOpenNode : Expr → Bool
  | parameter _ | source _ | lambda .. => true
  | _ => false

theorem areClosed_eq (es : List Expr) : areClosed es = es.all isClosed := by
  induction es with
  | nil => rfl
  | cons e es ih => rw [areClosed, ih, List.all_cons]

theorem areClosedMembers_eq (members : List (String × Expr)) :
    areClosedMembers members = (members.map Prod.snd).all isClosed := by
  induction members with
  | nil => rfl
  | cons m rest ih => rw [areClosedMembers, ih, List.map_cons, List.all_cons]

theorem isClosed_eq (e : Expr) : e.isClosed = (!e.isOpenNode && e.parts.all isClosed) := by
  cases e with
  | call method receiver args =>
    cases receiver <;>
      simp [isClosed, isClosedReceiver, areClosed_eq, isOpenNode, parts]
  | _ => simp [isClosed, areClosed_eq, areClosedMembers_eq, isOpenNode, parts]

/-! ### What reducing does to a node -/

theorem forall₂_reduceReceiver {receiver r : Option Expr} (h : reduceReceiver receiver = .ok r) :
    List.Forall₂ (fun c d => c.reduce = .ok d) receiver.toList r.toList := by
  cases receiver with
  | none =>
    cases h
    exact .nil
  | some e =>
    obtain ⟨d, hd, ⟨⟩⟩ := bind_eq_ok_iff.1 h
    exact .cons hd .nil

theorem forall₂_reduceAll {es rs : List Expr} (h : reduceAll es = .ok rs) :
    List.Forall₂ (fun c d => c.reduce = .ok d) es rs := by
  induction es generalizing rs with
  | nil =>
    cases h
    exact .nil
  | cons e es ih =>
    obtain ⟨d, hd, hrest⟩ := bind_eq_ok_iff.1 h
    obtain ⟨ds, hds, ⟨⟩⟩ := bind_eq_ok_iff.1 hrest
    exact .cons hd (ih hds)

theorem forall₂_reduceMembers {members rs : List (String × Expr)}
    (h : reduceMembers members = .ok rs) :
    List.Forall₂ (fun c d => c.reduce = .ok d) (members.map Prod.snd) (rs.map Prod.snd) := by
  induction members generalizing rs with
  | nil =>
    cases h
    exact .nil
  | cons m rest ih =>
    obtain ⟨d, hd, hrest⟩ := bind_eq_ok_iff.1 h
    obtain ⟨ds, hds, ⟨⟩⟩ := bind_eq_ok_iff.1 hrest
    exact .cons hd (ih hds)

/-- A closed node of a kind that folds becomes a constant. Any other node keeps its kind, and its
parts are reduced. -/
theorem reduce_cases {e r : Expr} (h : e.reduce = .ok r) :
    (e.isClosed ∧ ∃ v, r = constant v) ∨
      ((e.isClosed && e.isFoldable) = false ∧ r.isOpenNode = e.isOpenNode ∧
        r.isFoldable = e.isFoldable ∧
        List.Forall₂ (fun c d => c.reduce = .ok d) e.parts r.parts) := by
  rw [reduce.eq_def] at h
  split at h
  next hfolds =>
    obtain ⟨v, -, rfl⟩ := map_eq_ok_iff.1 h
    exact .inl ⟨(Bool.and_eq_true_iff.1 hfolds).1, v, rfl⟩
  next hkept =>
    refine .inr ⟨Bool.eq_false_iff.2 hkept, ?_⟩
    cases e with
    | constant | parameter | source =>
      cases h
      exact ⟨rfl, rfl, .nil⟩
    | member | not | lambda =>
      obtain ⟨d, hd, ⟨⟩⟩ := bind_eq_ok_iff.1 h
      exact ⟨rfl, rfl, .cons hd .nil⟩
    | binary op left right =>
      obtain ⟨l, hl, hrest⟩ := bind_eq_ok_iff.1 h
      obtain ⟨r, hr, ⟨⟩⟩ := bind_eq_ok_iff.1 hrest
      exact ⟨rfl, rfl, .cons hl (.cons hr .nil)⟩
    | call method receiver args =>
      obtain ⟨d, hd, hrest⟩ := bind_eq_ok_iff.1 h
      obtain ⟨ds, hds, ⟨⟩⟩ := bind_eq_ok_iff.1 hrest
      exact ⟨rfl, rfl, List.rel_append (forall₂_reduceReceiver hd) (forall₂_reduceAll hds)⟩
    | newArray element items =>
      obtain ⟨ds, hds, ⟨⟩⟩ := bind_eq_ok_iff.1 h
      exact ⟨rfl, rfl, forall₂_reduceAll hds⟩
    | new members =>
      obtain ⟨ds, hds, ⟨⟩⟩ := bind_eq_ok_iff.1 h
      exact ⟨rfl, rfl, forall₂_reduceMembers hds⟩

theorem exists_mem_of_forall₂ {P : Expr → Expr → Prop} {es rs : List Expr}
    (h : List.Forall₂ P es rs) {d : Expr} (hd : d ∈ rs) : ∃ c ∈ es, P c d := by
  induction h with
  | nil => cases hd
  | cons hhead _ ih =>
    rcases List.mem_cons.1 hd with rfl | hd
    · exact ⟨_, List.mem_cons_self, hhead⟩
    · obtain ⟨c, hc, hcd⟩ := ih hd
      exact ⟨c, List.mem_cons_of_mem _ hc, hcd⟩

theorem all_eq_of_forall₂ {p : Expr → Bool} {es rs : List Expr}
    (h : List.Forall₂ (fun c d => p d = p c) es rs) : rs.all p = es.all p := by
  induction h with
  | nil => rfl
  | cons hhead _ ih => rw [List.all_cons, List.all_cons, hhead, ih]

/-- A reduced expression is closed exactly if the expression was. -/
theorem isClosed_reduce {e r : Expr} (h : e.reduce = .ok r) : r.isClosed = e.isClosed := by
  induction e using parts_induction generalizing r with
  | step e ih =>
    rcases reduce_cases h with ⟨hclosed, v, rfl⟩ | ⟨-, hopen, -, hparts⟩
    · exact hclosed.symm
    · have hsame : List.Forall₂ (fun c d => d.isClosed = c.isClosed) e.parts r.parts :=
        ((List.forall₂_and_left _ _).2 ⟨fun c hc => @ih c hc, hparts⟩).imp
          fun c d hcd => hcd.1 hcd.2
      rw [isClosed_eq, isClosed_eq e, hopen, all_eq_of_forall₂ hsame]

/-- Reducing leaves nothing to fold. -/
theorem isNormal_reduce {e r : Expr} (h : e.reduce = .ok r) : r.IsNormal := by
  induction e using parts_induction generalizing r with
  | step e ih =>
    rcases reduce_cases h with ⟨-, v, rfl⟩ | ⟨hkept, -, hfoldable, hparts⟩
    · exact isNormal_constant v
    · refine isNormal_iff.2 ⟨fun hclosed hfolds => ?_, fun d hd => ?_⟩
      · rw [isClosed_reduce h] at hclosed
        rw [hfoldable] at hfolds
        rw [hclosed, hfolds] at hkept
        cases hkept
      · obtain ⟨c, hc, hreduce⟩ := exists_mem_of_forall₂ hparts hd
        exact ih c hc hreduce

/-- Only a parameter is reduced to it. -/
theorem eq_parameter_of_reduce {e : Expr} {param : String} (h : e.reduce = .ok (parameter param)) :
    e = parameter param := by
  rcases reduce_cases h with ⟨-, v, ⟨⟩⟩ | ⟨hkept, -, -, -⟩
  rw [reduce.eq_def, if_neg (by simp [hkept])] at h
  cases e with
  | parameter name =>
    cases h
    rfl
  | constant | source => cases h
  | member | not | lambda =>
    obtain ⟨d, -, ⟨⟩⟩ := bind_eq_ok_iff.1 h
  | binary | call =>
    obtain ⟨d, -, hrest⟩ := bind_eq_ok_iff.1 h
    obtain ⟨d', -, ⟨⟩⟩ := bind_eq_ok_iff.1 hrest
  | newArray | new =>
    obtain ⟨ds, -, ⟨⟩⟩ := bind_eq_ok_iff.1 h

/-- Reducing brings in no reads of the row. -/
theorem isWithin_of_reduce {e r : Expr} {param name : String} (h : e.reduce = .ok r)
    (hr : IsWithin (member (parameter param) name) r) :
    IsWithin (member (parameter param) name) e := by
  induction e using parts_induction generalizing r with
  | step e ih =>
    rcases reduce_cases h with ⟨-, v, rfl⟩ | ⟨hkept, -, -, hparts⟩
    · cases hr with
      | inside hc _ => cases hc
    · cases hr with
      | inside hc hwithin =>
        obtain ⟨c, hmem, hreduce⟩ := exists_mem_of_forall₂ hparts hc
        exact .inside hmem (ih c hmem hreduce hwithin)
      | self =>
        rw [reduce.eq_def, if_neg (by simp [hkept])] at h
        cases e with
        | member target field =>
          obtain ⟨d, hd, ⟨⟩⟩ := bind_eq_ok_iff.1 h
          rw [eq_parameter_of_reduce hd]
          exact .self
        | constant | parameter | source => cases h
        | not | lambda =>
          obtain ⟨d, -, ⟨⟩⟩ := bind_eq_ok_iff.1 h
        | binary | call =>
          obtain ⟨d, -, hrest⟩ := bind_eq_ok_iff.1 h
          obtain ⟨d', -, ⟨⟩⟩ := bind_eq_ok_iff.1 hrest
        | newArray | new =>
          obtain ⟨ds, -, ⟨⟩⟩ := bind_eq_ok_iff.1 h

/-! ### Reducing what is reduced -/

theorem reduceAll_self {es : List Expr} (h : ∀ c ∈ es, c.reduce = .ok c) :
    reduceAll es = .ok es := by
  induction es with
  | nil => rfl
  | cons e es ih =>
    obtain ⟨he, hes⟩ := List.forall_mem_cons.1 h
    rw [reduceAll, he, ih hes]
    rfl

theorem reduceMembers_self {members : List (String × Expr)}
    (h : ∀ c ∈ members.map Prod.snd, c.reduce = .ok c) : reduceMembers members = .ok members := by
  induction members with
  | nil => rfl
  | cons m rest ih =>
    obtain ⟨hm, hrest⟩ := List.forall_mem_cons.1 h
    rw [reduceMembers, hm, ih hrest]
    rfl

theorem reduce_self_of_parts {e : Expr} (hkept : (e.isClosed && e.isFoldable) = false)
    (h : ∀ c ∈ e.parts, c.reduce = .ok c) : e.reduce = .ok e := by
  rw [reduce.eq_def, if_neg (by simp [hkept])]
  cases e with
  | constant | parameter | source => rfl
  | member | not | lambda =>
    have hpart := h _ (List.mem_singleton_self _)
    simp only [hpart, ok_bind]
  | binary op left right =>
    have hleft := h left List.mem_cons_self
    have hright := h right (List.mem_cons_of_mem _ List.mem_cons_self)
    simp only [hleft, hright, ok_bind]
  | call method receiver args =>
    obtain ⟨hreceiver, hargs⟩ := List.forall_mem_append.1 h
    have hr : reduceReceiver receiver = .ok receiver := by
      cases receiver with
      | none => rfl
      | some e => rw [reduceReceiver, hreceiver e (List.mem_singleton_self e), ok_bind]
    simp only [hr, reduceAll_self hargs, ok_bind]
  | newArray element items =>
    have hitems : reduceAll items = .ok items := reduceAll_self h
    simp only [hitems, ok_bind]
  | new members =>
    have hmembers : reduceMembers members = .ok members := reduceMembers_self h
    simp only [hmembers, ok_bind]

theorem reduce_of_isNormal {e : Expr} (h : e.IsNormal) : e.reduce = .ok e := by
  induction e using parts_induction with
  | step e ih =>
    obtain ⟨hself, hparts⟩ := isNormal_iff.1 h
    cases hfolds : e.isClosed && e.isFoldable with
    | false => exact reduce_self_of_parts hfolds fun c hc => ih c hc (hparts c hc)
    | true =>
      obtain ⟨hclosed, hfoldable⟩ := Bool.and_eq_true_iff.1 hfolds
      obtain ⟨v, rfl⟩ := hself hclosed hfoldable
      rw [reduce.eq_def]
      rfl

/-- A reduced expression evaluates as the expression did, be it to a value or to a failure, under any
bindings; it has nothing left to fold and is reduced to itself. And what an expression folds to is its
value under any bindings. -/
theorem reduce_normalizes (e : Expr) :
    (∀ r, e.reduce = .ok r → (∀ env : Bindings, r.evaluate env = e.evaluate env) ∧
      r.reduce = .ok r ∧ r.IsNormal) ∧
    ∀ v, e.fold = .ok v → ∀ env : Bindings, e.evaluate env = .ok v := by
  refine ⟨fun r h => ?_, fun v h env => evaluate_of_fold env e v h⟩
  have hnormal := isNormal_reduce h
  exact ⟨fun env => evaluate_reduce env e r h, reduce_of_isNormal hnormal, hnormal⟩

/-- A predicate with a closed negation, which stays, and captured bytes, which fold. -/
def capturedBytes : Expr :=
  lambda "e" (binary .and (not (constant (.bool false)))
    (binary .eq (member (parameter "e") "Key")
      (newArray .byte [constant (.int32 7), member (constant (.record [("N", .int64 255)])) "N"])))

theorem reduce_normalizes_bytes :
    ∃ r, capturedBytes.reduce = .ok r ∧
      r = lambda "e" (binary .and (not (constant (.bool false)))
        (binary .eq (member (parameter "e") "Key") (constant (.binary [7, 255])))) ∧
      r.reduce = .ok r ∧ r.IsNormal := by
  have h : capturedBytes.reduce = .ok (lambda "e" (binary .and (not (constant (.bool false)))
      (binary .eq (member (parameter "e") "Key") (constant (.binary [7, 255]))))) := rfl
  obtain ⟨-, hsame, hnormal⟩ := (reduce_normalizes capturedBytes).1 _ h
  exact ⟨_, h, rfl, hsame, hnormal⟩

end TableClient.Expr
