import TableClient.Filter.Condition
import TableClient.Proofs.Filter.Literal
import TableClient.Proofs.Value.Order
import TableClient.Query.Chain

/-! Formulas: the predicates that have a filter. Connectives join tests of one member of the row each:
a member that is true or false by itself, a comparison with a closed operand on either side, a
comparison of an order between the two with zero, and a search for the member in a closed list. -/

namespace TableClient

/-- A closed expression that folds to a value. -/
structure Operand (v : Value) where
  expr : Expr
  isClosed : expr.isClosed
  fold_eq : expr.fold = .ok v

def Operand.literal (v : Value) : Operand v := ⟨.constant v, rfl, rfl⟩

namespace Expr

theorem isFoldable_of_fold {e : Expr} {v : Value} (h : e.fold = .ok v) : e.isFoldable := by
  cases e with
  | constant | member | newArray => rfl
  | call method receiver args => cases method <;> first | rfl | (rw [fold] at h; cases h)
  | parameter | source | not | binary | new | lambda => cases h

theorem reduce_of_fold {e : Expr} {v : Value} (hc : e.isClosed) (h : e.fold = .ok v) :
    e.reduce = .ok (constant v) := by
  rw [reduce.eq_def, if_pos (by simp [hc, isFoldable_of_fold h]), h]
  rfl

abbrev field (param name : String) : Expr := member (parameter param) name

theorem reduce_field (param name : String) :
    (field param name).reduce = .ok (field param name) := by
  rw [reduce.eq_def]
  have hparam : (parameter param).reduce = .ok (parameter param) := by
    rw [reduce.eq_def]
    rfl
  simp [isClosed, hparam]

theorem reduce_not {operand r : Expr} (h : operand.reduce = .ok r) :
    (not operand).reduce = .ok (not r) := by
  rw [reduce.eq_def]
  simp [isFoldable, h]

theorem reduce_binary {left right l r : Expr} (op : BinaryOp) (hl : left.reduce = .ok l)
    (hr : right.reduce = .ok r) : (binary op left right).reduce = .ok (binary op l r) := by
  rw [reduce.eq_def]
  simp [isFoldable, hl, hr]

theorem reduce_call {method : Method} {receiver r : Option Expr} {args es : List Expr}
    (hc : (call method receiver args).isClosed = false) (hr : reduceReceiver receiver = .ok r)
    (hes : reduceAll args = .ok es) :
    (call method receiver args).reduce = .ok (call method r es) := by
  rw [reduce.eq_def]
  simp [hc, hr, hes]

end Expr

namespace Operand

variable {v : Value}

theorem reduce_eq (o : Operand v) : o.expr.reduce = .ok (.constant v) :=
  Expr.reduce_of_fold o.isClosed o.fold_eq

theorem evaluate_eq (o : Operand v) (env : Bindings) : o.expr.evaluate env = .ok v :=
  Expr.evaluate_of_fold env o.expr v o.fold_eq

end Operand

inductive OrderCall where
  | compareTo | compare | compareOrdinal

def OrderCall.call (c : OrderCall) (a b : Expr) : Expr :=
  match c with
  | compareTo => .call .compareTo (some a) [b]
  | compare => .call .compare none [a, b]
  | compareOrdinal => .call .compareOrdinal none [a, b]

/-- The side of a comparison on which the member of the row, or the call of an order, stands. -/
inductive Side where
  | left | right
  deriving DecidableEq

namespace Side

def place {α : Type} (s : Side) (f : Expr → Expr → α) (e other : Expr) : α :=
  match s with
  | left => f e other
  | right => f other e

/-- The operator after the expression has been brought to the left. -/
def orient (s : Side) (op : BinaryOp) : BinaryOp :=
  match s with
  | left => op
  | right => op.mirrored

theorem isComparison_orient (s : Side) {op : BinaryOp} (h : op.isComparison) :
    (s.orient op).isComparison := by
  cases s with
  | left => exact h
  | right => exact BinaryOp.isComparison_mirrored h

end Side

inductive RowTest where
  | member (field : String)
  | compare (op : BinaryOp) (side : Side) (field : String) {v : Value} (operand : Operand v)
  /-- The order between a member and an operand, compared with zero. -/
  | order (c : OrderCall) (op : BinaryOp) (side inside : Side) (field : String) {v z : Value}
      (operand : Operand v) (zero : Operand z)
  | search (field : String) {items : List Value} (collection : Operand (.list items))

namespace RowTest

def body (param : String) : RowTest → Expr
  | member field => .field param field
  | compare op side field operand => side.place (.binary op) (.field param field) operand.expr
  | order c op side inside field operand zero =>
    side.place (.binary op) (inside.place c.call (.field param field) operand.expr) zero.expr
  | search field collection => .call .contains (some collection.expr) [.field param field]

/-- The body with each closed operand folded. -/
def reduced (param : String) : RowTest → Expr
  | member field => .field param field
  | @compare op side field v _ => side.place (.binary op) (.field param field) (.constant v)
  | @order c op side inside field v z _ _ =>
    side.place (.binary op) (inside.place c.call (.field param field) (.constant v)) (.constant z)
  | @search field items _ => .call .contains (some (.constant (.list items))) [.field param field]

def field : RowTest → String
  | member field => field
  | compare _ _ field _ => field
  | order _ _ _ _ field _ _ => field
  | search field _ => field

end RowTest

inductive Formula where
  | test (t : RowTest)
  | not (f : Formula)
  | and (f g : Formula)
  | or (f g : Formula)

namespace Formula

def body (param : String) : Formula → Expr
  | test t => t.body param
  | not f => .not (f.body param)
  | and f g => .binary .and (f.body param) (g.body param)
  | or f g => .binary .or (f.body param) (g.body param)

def reduced (param : String) : Formula → Expr
  | test t => t.reduced param
  | not f => .not (f.reduced param)
  | and f g => .binary .and (f.reduced param) (g.reduced param)
  | or f g => .binary .or (f.reduced param) (g.reduced param)

def lambda (f : Formula) (param : String) : Lambda := ⟨param, f.body param⟩

def tests : Formula → List RowTest
  | test t => [t]
  | not f => f.tests
  | and f g => f.tests ++ g.tests
  | or f g => f.tests ++ g.tests

end Formula

/-! ### Reducing formulas -/

theorem OrderCall.reduce_call (c : OrderCall) {a b l r : Expr}
    (hopen : a.isClosed = false ∨ b.isClosed = false) (hl : a.reduce = .ok l)
    (hr : b.reduce = .ok r) : (c.call a b).reduce = .ok (c.call l r) := by
  have hclosed : (c.call a b).isClosed = false := by
    rcases hopen with h | h <;> cases c <;>
      simp [call, Expr.isClosed, Expr.isClosedReceiver, Expr.areClosed, h]
  cases c <;> exact Expr.reduce_call hclosed
    (by simp [Expr.reduceReceiver, hl]) (by simp [Expr.reduceAll, hl, hr])

theorem RowTest.reduce_body (t : RowTest) (param : String) :
    (t.body param).reduce = .ok (t.reduced param) := by
  cases t with
  | member field => exact Expr.reduce_field param field
  | compare op side field operand =>
    cases side with
    | left => exact Expr.reduce_binary op (Expr.reduce_field param field) operand.reduce_eq
    | right => exact Expr.reduce_binary op operand.reduce_eq (Expr.reduce_field param field)
  | @order c op side inside field v z operand zero =>
    have hcall : (inside.place c.call (.field param field) operand.expr).reduce =
        .ok (inside.place c.call (.field param field) (.constant v)) := by
      cases inside with
      | left => exact c.reduce_call (.inl rfl) (Expr.reduce_field param field) operand.reduce_eq
      | right => exact c.reduce_call (.inr rfl) operand.reduce_eq (Expr.reduce_field param field)
    cases side with
    | left => exact Expr.reduce_binary op hcall zero.reduce_eq
    | right => exact Expr.reduce_binary op zero.reduce_eq hcall
  | search field collection =>
    refine Expr.reduce_call ?_ ?_ ?_
    · simp [Expr.isClosed, Expr.areClosed]
    · simp [Expr.reduceReceiver, collection.reduce_eq]
    · simp [Expr.reduceAll, Expr.reduce_field]

theorem Formula.reduce_body (f : Formula) (param : String) :
    (f.body param).reduce = .ok (f.reduced param) := by
  induction f with
  | test t => exact t.reduce_body param
  | not f ih => exact Expr.reduce_not ih
  | and f g ihf ihg => exact Expr.reduce_binary .and ihf ihg
  | or f g ihf ihg => exact Expr.reduce_binary .or ihf ihg

end TableClient
