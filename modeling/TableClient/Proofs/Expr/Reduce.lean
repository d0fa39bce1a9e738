import TableClient.Expr.Fold
import TableClient.Proofs.Outcome

/-! Folding and reducing keep the value of an expression, whatever its parameters stand for. A closed
expression that folds evaluates to the same value without bindings or with any; a reduced expression
evaluates as the expression did, failures included. -/

namespace TableClient.Expr

mutual

/-- What an expression folds to is its value under any bindings. -/
theorem evaluate_of_fold (env : Bindings) (e : Expr) (v : Value) (h : e.fold = .ok v) :
    e.evaluate env = .ok v := by
  cases e with
  | constant w => exact h
  | member target name =>
    rw [fold] at h
    obtain ⟨t, ht, hread⟩ := bind_eq_ok_iff.1 h
    rw [evaluate, evaluate_of_fold env target t ht]
    exact hread
  | call method receiver args =>
    have hcall : (do let r ← foldReceiver receiver; let vs ← foldAll args; method.invoke r vs) = .ok v := by
      cases method <;> first | exact h | (rw [fold] at h; cases h)
    obtain ⟨r, hr, hrest⟩ := bind_eq_ok_iff.1 hcall
    obtain ⟨vs, hvs, hinvoke⟩ := bind_eq_ok_iff.1 hrest
    rw [evaluate, evaluateReceiver_of_fold env receiver r hr, ok_bind,
      evaluateAll_of_fold env args vs hvs]
    exact hinvoke
  | newArray element items =>
    rw [fold] at h
    obtain ⟨vs, hvs, hof⟩ := bind_eq_ok_iff.1 h
    rw [evaluate, evaluateAll_of_fold env items vs hvs]
    exact hof
  | parameter name | source name => cases h
  | not operand | binary op left right | new members | lambda p body => cases h

theorem evaluateReceiver_of_fold (env : Bindings) (receiver : Option Expr) (r : Option Value)
    (h : foldReceiver receiver = .ok r) : evaluateReceiver env receiver = .ok r := by
  cases receiver with
  | none => exact h
  | some e =>
    rw [foldReceiver] at h
    obtain ⟨v, hv, hr⟩ := bind_eq_ok_iff.1 h
    rw [evaluateReceiver, evaluate_of_fold env e v hv]
    exact hr

theorem evaluateAll_of_fold (env : Bindings) (es : List Expr) (vs : List Value)
    (h : foldAll es = .ok vs) : evaluateAll env es = .ok vs := by
  cases es with
  | nil => exact h
  | cons e es =>
    rw [foldAll] at h
    obtain ⟨v, hv, hrest⟩ := bind_eq_ok_iff.1 h
    obtain ⟨ws, hws, hcons⟩ := bind_eq_ok_iff.1 hrest
    rw [evaluateAll, evaluate_of_fold env e v hv, ok_bind, evaluateAll_of_fold env es ws hws]
    exact hcons

end

/-- A connective or a comparison depends on its operands only through their values. -/
theorem evaluate_binary_congr {env : Bindings} {l l' r r' : Expr} (op : BinaryOp)
    (hl : l'.evaluate env = l.evaluate env) (hr : r'.evaluate env = r.evaluate env) :
    (binary op l' r').evaluate env = (binary op l r).evaluate env := by
  cases op <;> simp only [evaluate, hl, hr]

mutual

/-- Reducing an expression does not change what it evaluates to, be it a value or a failure. -/
theorem evaluate_reduce (env : Bindings) (e r : Expr) (h : e.reduce = .ok r) :
    r.evaluate env = e.evaluate env := by
  rw [reduce.eq_def] at h
  split at h
  · obtain ⟨v, hv, rfl⟩ := map_eq_ok_iff.1 h
    rw [evaluate_of_fold env e v hv, evaluate]
  · cases e with
    | constant v => cases h; rfl
    | parameter name => cases h; rfl
    | source name => cases h; rfl
    | member target name =>
      obtain ⟨t, ht, ⟨⟩⟩ := bind_eq_ok_iff.1 h
      rw [evaluate, evaluate, evaluate_reduce env target t ht]
    | not operand =>
      obtain ⟨t, ht, ⟨⟩⟩ := bind_eq_ok_iff.1 h
      rw [evaluate, evaluate, evaluate_reduce env operand t ht]
    | binary op left right =>
      obtain ⟨l, hl, hrest⟩ := bind_eq_ok_iff.1 h
      obtain ⟨r, hr, ⟨⟩⟩ := bind_eq_ok_iff.1 hrest
      exact evaluate_binary_congr op (evaluate_reduce env left l hl)
        (evaluate_reduce env right r hr)
    | call method receiver args =>
      obtain ⟨c, hc, hrest⟩ := bind_eq_ok_iff.1 h
      obtain ⟨es, hes, ⟨⟩⟩ := bind_eq_ok_iff.1 hrest
      rw [evaluate, evaluate, evaluateReceiver_reduce env receiver c hc,
        evaluateAll_reduce env args es hes]
    | newArray element items =>
      obtain ⟨es, hes, ⟨⟩⟩ := bind_eq_ok_iff.1 h
      rw [evaluate, evaluate, evaluateAll_reduce env items es hes]
    | new members =>
      obtain ⟨es, hes, ⟨⟩⟩ := bind_eq_ok_iff.1 h
      rw [evaluate, evaluate, evaluateMembers_reduce env members es hes]
    | lambda p body =>
      obtain ⟨b, -, ⟨⟩⟩ := bind_eq_ok_iff.1 h
      rfl

theorem evaluateReceiver_reduce (env : Bindings) (receiver r : Option Expr)
    (h : reduceReceiver receiver = .ok r) : evaluateReceiver env r = evaluateReceiver env receiver := by
  cases receiver with
  | none => cases h; rfl
  | some e =>
    rw [reduceReceiver] at h
    obtain ⟨t, ht, ⟨⟩⟩ := bind_eq_ok_iff.1 h
    rw [evaluateReceiver, evaluateReceiver, evaluate_reduce env e t ht]

theorem evaluateAll_reduce (env : Bindings) (es rs : List Expr) (h : reduceAll es = .ok rs) :
    evaluateAll env rs = evaluateAll env es := by
  cases es with
  | nil => cases h; rfl
  | cons e es =>
    rw [reduceAll] at h
    obtain ⟨t, ht, hrest⟩ := bind_eq_ok_iff.1 h
    obtain ⟨ts, hts, ⟨⟩⟩ := bind_eq_ok_iff.1 hrest
    rw [evaluateAll, evaluateAll, evaluate_reduce env e t ht, evaluateAll_reduce env es ts hts]

theorem evaluateMembers_reduce (env : Bindings) (members rs : List (String × Expr))
    (h : reduceMembers members = .ok rs) :
    evaluateMembers env rs = evaluateMembers env members := by
  cases members with
  | nil => cases h; rfl
  | cons m rest =>
    obtain ⟨name, e⟩ := m
    rw [reduceMembers] at h
    obtain ⟨t, ht, hrest⟩ := bind_eq_ok_iff.1 h
    obtain ⟨ts, hts, ⟨⟩⟩ := bind_eq_ok_iff.1 hrest
    rw [evaluateMembers, evaluateMembers, evaluate_reduce env e t ht,
      evaluateMembers_reduce env rest ts hts]

end

end TableClient.Expr

namespace TableClient

/-- A lambda with a reduced body has the same value at every argument. -/
theorem Lambda.apply_reduce {f : Lambda} {body : Expr} (h : f.body.reduce = .ok body)
    (argument : Value) : (Lambda.mk f.parameter body).apply argument = f.apply argument :=
  Expr.evaluate_reduce _ f.body body h

end TableClient
