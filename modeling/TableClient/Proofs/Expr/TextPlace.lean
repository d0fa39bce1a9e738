import TableClient.Proofs.Expr.NormalForm
import TableClient.Proofs.Filter.Formula

/-! Places: expressions with a place for a text in them. The text is compared with a member of the row, or
it is an item of a list in which something that depends on a row is searched. The expression around it is
any that has this in one place and whatever else beside it. Nothing around the place is closed, so that
reducing leaves the text where it is. -/

namespace TableClient

/-- An expression with a place for a text, which is an operand beside a member of the row or an item. -/
inductive TextPlace where
  | compared (op : BinaryOp) (isComparison : op.isComparison) (side : Side) (name : String)
  | ordered (c : OrderCall) (side : Side) (name : String)
  | item (before after : List Value) (needle : Expr) (isOpen : needle.isClosed = false)
  | not (p : TextPlace)
  | left (op : BinaryOp) (p : TextPlace) (r : Expr)
  | right (op : BinaryOp) (l : Expr) (p : TextPlace)
  | target (p : TextPlace) (name : String)
  | receiver (method : Method) (p : TextPlace) (args : List Expr)
  | argument (method : Method) (object : Option Expr) (before : List Expr) (p : TextPlace)
      (after : List Expr)
  | element (type : ElementType) (before : List Expr) (p : TextPlace) (after : List Expr)
  | entry (before : List (String × Expr)) (name : String) (p : TextPlace) (after : List (String × Expr))
  | body (parameter : String) (p : TextPlace)

namespace TextPlace

def fill (param : String) (s : String) : TextPlace → Expr
  | compared op _ side name => side.place (.binary op) (.field param name) (.constant (.string s))
  | ordered c side name => side.place c.call (.field param name) (.constant (.string s))
  | item before after needle _ =>
    .call .contains (some (.constant (.list (before ++ .string s :: after)))) [needle]
  | not p => .not (p.fill param s)
  | left op p r => .binary op (p.fill param s) r
  | right op l p => .binary op l (p.fill param s)
  | target p name => .member (p.fill param s) name
  | receiver method p args => .call method (some (p.fill param s)) args
  | argument method object before p after =>
    .call method object (before ++ p.fill param s :: after)
  | element type before p after => .newArray type (before ++ p.fill param s :: after)
  | entry before name p after => .new (before ++ (name, p.fill param s) :: after)
  | body q p => .lambda q (p.fill param s)

/-- Whether an `or` around the place has no text on its other side. -/
def IsAbsorbed (text : Expr → Except QueryError String) : TextPlace → Prop
  | compared .. | ordered .. | item .. => False
  | left op p r => (op = .or ∧ text r = .ok "") ∨ p.IsAbsorbed text
  | right op l p => (op = .or ∧ text l = .ok "") ∨ p.IsAbsorbed text
  | not p | target p _ | receiver _ p _ | argument _ _ _ p _ | element _ _ p _ | entry _ _ p _ |
    body _ p => p.IsAbsorbed text

variable {param : String} (p : TextPlace)

theorem isClosed_fill (s : String) : (p.fill param s).isClosed = false := by
  induction p with
  | compared op _ side name => cases side <;> simp [fill, Side.place, Expr.isClosed]
  | ordered c side name =>
    cases c <;> cases side <;>
      simp [fill, Side.place, OrderCall.call, Expr.isClosed, Expr.isClosedReceiver, Expr.areClosed]
  | item before after needle hopen => simp [fill, Expr.isClosed, Expr.areClosed, hopen]
  | not p ih => exact ih
  | left op p r ih => simp [fill, Expr.isClosed, ih]
  | right op l p ih => simp [fill, Expr.isClosed, ih]
  | target p name ih => exact ih
  | receiver method p args ih => simp [fill, Expr.isClosed, Expr.isClosedReceiver, ih]
  | argument method object before p after ih => simp [fill, Expr.isClosed, Expr.areClosed_eq, ih]
  | element type before p after ih => simp [fill, Expr.isClosed, Expr.areClosed_eq, ih]
  | entry before name p after ih => simp [fill, Expr.isClosed, Expr.areClosedMembers_eq, ih]
  | body q p ih => rfl

end TextPlace

/-! ### Reducing around a place -/

namespace Expr

def reduceInside : Expr → Except QueryError Expr
  | constant v => .ok (constant v)
  | parameter name => .ok (parameter name)
  | source name => .ok (source name)
  | member target name => do .ok (member (← target.reduce) name)
  | not operand => do .ok (not (← operand.reduce))
  | binary op left right => do
    let l ← left.reduce
    let r ← right.reduce
    .ok (binary op l r)
  | call method receiver args => do
    let r ← reduceReceiver receiver
    let es ← reduceAll args
    .ok (call method r es)
  | newArray element items => do .ok (newArray element (← reduceAll items))
  | new members => do .ok (new (← reduceMembers members))
  | lambda p body => do .ok (lambda p (← body.reduce))

theorem reduce_of_isClosed_eq_false {e : Expr} (h : e.isClosed = false) : e.reduce = e.reduceInside := by
  rw [reduce.eq_def, h, Bool.false_and, if_neg Bool.false_ne_true]
  cases e <;> rfl

theorem reduceAll_append (es fs : List Expr) :
    reduceAll (es ++ fs) = (do
      let rs ← reduceAll es
      let ts ← reduceAll fs
      .ok (rs ++ ts)) := by
  induction es with
  | nil =>
    rw [List.nil_append, reduceAll, ok_bind]
    cases reduceAll fs <;> rfl
  | cons e es ih =>
    rw [List.cons_append, reduceAll, reduceAll, ih]
    cases e.reduce with
    | error => rfl
    | ok d =>
      cases reduceAll es with
      | error => rfl
      | ok rs => cases reduceAll fs <;> rfl

theorem reduceMembers_append (ms ns : List (String × Expr)) :
    reduceMembers (ms ++ ns) = (do
      let rs ← reduceMembers ms
      let ts ← reduceMembers ns
      .ok (rs ++ ts)) := by
  induction ms with
  | nil =>
    rw [List.nil_append, reduceMembers, ok_bind]
    cases reduceMembers ns <;> rfl
  | cons m ms ih =>
    rw [List.cons_append, reduceMembers, reduceMembers, ih]
    cases m.2.reduce with
    | error => rfl
    | ok d =>
      cases reduceMembers ms with
      | error => rfl
      | ok rs => cases reduceMembers ns <;> rfl

end Expr

namespace TextPlace

variable {param : String}

/-- Reducing reduces what is beside the place, and fails or not whatever the text. -/
theorem reduce_fill (p : TextPlace) (text : Expr → Except QueryError String) :
    Uniform (fun s => (p.fill param s).reduce) (fun (q : TextPlace) s => q.fill param s)
      fun q : TextPlace => q.IsAbsorbed text ↔ p.IsAbsorbed fun e => e.reduce >>= text := by
  have hopen (p : TextPlace) (s : String) : (p.fill param s).reduce = (p.fill param s).reduceInside :=
    Expr.reduce_of_isClosed_eq_false (p.isClosed_fill s)
  have hfield (name : String) := Expr.reduce_field param name
  have hconstant (v : Value) : (Expr.constant v).reduce = .ok (.constant v) := Expr.reduce_of_fold rfl rfl
  induction p with
  | compared op hop side name =>
    refine .ok (k := .compared op hop side name) Iff.rfl fun s => ?_
    cases side with
    | left => exact Expr.reduce_binary op (hfield name) (hconstant _)
    | right => exact Expr.reduce_binary op (hconstant _) (hfield name)
  | ordered c side name =>
    refine .ok (k := .ordered c side name) Iff.rfl fun s => ?_
    cases side with
    | left => exact c.reduce_call (.inl rfl) (hfield name) (hconstant _)
    | right => exact c.reduce_call (.inr rfl) (hconstant _) (hfield name)
  | item before after needle hneedle =>
    have hall (s : String) : ((item before after needle hneedle).fill param s).reduce = (do
        let d ← needle.reduce
        .ok (.call .contains (some (.constant (.list (before ++ .string s :: after)))) [d])) := by
      rw [hopen, fill, Expr.reduceInside, Expr.reduceReceiver, hconstant, Expr.reduceAll]
      cases needle.reduce <;> rfl
    refine (Uniform.const_bind fun d hd => ?_).congr hall
    have hclosed : d.isClosed = false := (Expr.isClosed_reduce hd).trans hneedle
    exact .ok (k := .item before after d hclosed) Iff.rfl fun s => rfl
  | not p ih =>
    refine (ih.bind fun q hq => ?_).congr (hopen (.not p))
    exact .ok (k := .not q) hq fun s => rfl
  | left op p r ih =>
    refine (ih.bind fun q hq => .const_bind fun d hd => ?_).congr (hopen (.left op p r))
    refine .ok (k := .left op q d) ?_ fun s => rfl
    rw [IsAbsorbed, IsAbsorbed, hq, hd, ok_bind]
  | right op l p ih =>
    refine (Uniform.const_bind fun d hd => ih.bind fun q hq => ?_).congr (hopen (.right op l p))
    refine .ok (k := .right op d q) ?_ fun s => rfl
    rw [IsAbsorbed, IsAbsorbed, hq, hd, ok_bind]
  | target p name ih =>
    refine (ih.bind fun q hq => ?_).congr (hopen (.target p name))
    exact .ok (k := .target q name) hq fun s => rfl
  | receiver method p args ih =>
    have hall (s : String) : ((receiver method p args).fill param s).reduce = (do
        let e ← (p.fill param s).reduce
        let ds ← Expr.reduceAll args
        .ok (.call method (some e) ds)) := by
      rw [hopen, fill, Expr.reduceInside, Expr.reduceReceiver]
      cases (p.fill param s).reduce <;> rfl
    refine (ih.bind fun q hq => .const_bind fun ds _ => ?_).congr hall
    exact .ok (k := .receiver method q ds) hq fun s => rfl
  | argument method object before p after ih =>
    have hall (s : String) : ((argument method object before p after).fill param s).reduce = (do
        let d ← Expr.reduceReceiver object
        let bs ← Expr.reduceAll before
        let e ← (p.fill param s).reduce
        let as ← Expr.reduceAll after
        .ok (.call method d (bs ++ e :: as))) := by
      rw [hopen, fill, Expr.reduceInside]
      simp only [Expr.reduceAll_append, Expr.reduceAll, bind_assoc, ok_bind]
    refine (Uniform.const_bind fun d _ => .const_bind fun bs _ => ih.bind fun q hq =>
      .const_bind fun as _ => ?_).congr hall
    exact .ok (k := .argument method d bs q as) hq fun s => rfl
  | element type before p after ih =>
    have hall (s : String) : ((element type before p after).fill param s).reduce = (do
        let bs ← Expr.reduceAll before
        let e ← (p.fill param s).reduce
        let as ← Expr.reduceAll after
        .ok (.newArray type (bs ++ e :: as))) := by
      rw [hopen, fill, Expr.reduceInside]
      simp only [Expr.reduceAll_append, Expr.reduceAll, bind_assoc, ok_bind]
    refine (Uniform.const_bind fun bs _ => ih.bind fun q hq => .const_bind fun as _ => ?_).congr hall
    exact .ok (k := .element type bs q as) hq fun s => rfl
  | entry before name p after ih =>
    have hall (s : String) : ((entry before name p after).fill param s).reduce = (do
        let bs ← Expr.reduceMembers before
        let e ← (p.fill param s).reduce
        let as ← Expr.reduceMembers after
        .ok (.new (bs ++ (name, e) :: as))) := by
      rw [hopen, fill, Expr.reduceInside]
      simp only [Expr.reduceMembers_append, Expr.reduceMembers, bind_assoc, ok_bind]
    refine (Uniform.const_bind fun bs _ => ih.bind fun q hq => .const_bind fun as _ => ?_).congr hall
    exact .ok (k := .entry bs name q as) hq fun s => rfl
  | body r p ih =>
    refine (ih.bind fun q hq => ?_).congr (hopen (.body r p))
    exact .ok (k := .body r q) hq fun s => rfl

end TextPlace

end TableClient
