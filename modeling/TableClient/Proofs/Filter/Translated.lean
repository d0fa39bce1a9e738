import TableClient.Proofs.Expr.TextPlace
import TableClient.Proofs.Filter.Family

/-! What the translator writes for an expression with a place for a text. The texts of all its instances are
those of one template: one text with a gap for the literal, or one text without a gap if an `or` around the
place absorbs it. If one instance has no translation then none has. -/

namespace TableClient.Filter

/-! ### What an expression with a place is to the translator -/

section Kind

variable {scope : RowScope} {param : String} (p : TextPlace) (s t : String)

theorem kindName_fill : (p.fill param s).kindName = (p.fill param t).kindName := by
  cases p with
  | compared op _ side name => cases side <;> rfl
  | ordered c side name => cases c <;> cases side <;> rfl
  | _ => rfl

theorem describe_fill : describe (p.fill param s) = describe (p.fill param t) := by
  cases p with
  | compared op _ side name => cases side <;> rfl
  | ordered c side name => cases c <;> cases side <;> rfl
  | target p name =>
    exact congrArg (fun kind => "member access '" ++ name ++ "' on " ++ kind) (kindName_fill p s t)
  | _ => rfl

theorem isZero_fill : isZero (p.fill param s) = false := by
  cases p with
  | compared op _ side name => cases side <;> rfl
  | ordered c side name => cases c <;> cases side <;> rfl
  | _ => rfl

theorem column?_fill : scope.column? (p.fill param s) = none := by
  cases p with
  | compared op _ side name => cases side <;> rfl
  | ordered c side name => cases c <;> cases side <;> rfl
  | target p name =>
    cases p with
    | compared op _ side name => cases side <;> rfl
    | ordered c side name => cases c <;> cases side <;> rfl
    | _ => rfl
  | _ => rfl

/-- Outside of the nodes that the translator takes apart there is nothing for it. -/
theorem literalOf_fill : literalOf (p.fill param s) = unsupported (describe (p.fill param "")) := by
  rw [literalOf, p.isClosed_fill, if_neg Bool.false_ne_true, describe_fill p s ""]

theorem alike_fill : Alike scope (p.fill param s) (p.fill param t) := by
  cases p with
  | compared op _ side name => cases side <;> exact ⟨rfl, rfl, rfl, rfl, rfl, rfl⟩
  | ordered c side name => cases c <;> cases side <;> exact ⟨rfl, rfl, rfl, rfl, rfl, rfl⟩
  | target p name =>
    refine ⟨?_, rfl, rfl, rfl, rfl, rfl⟩
    rw [column?_fill, column?_fill]
  | _ => exact ⟨rfl, rfl, rfl, rfl, rfl, rfl⟩

end Kind

/-! ### The node of a place -/

variable {scope : RowScope} {p : TextPlace} {e : Expr} {absorbed : Prop}

theorem translated_fill
    (hwhole : Translates absorbed fun s => fragment scope (p.fill scope.parameter s))
    (horder : ∀ op, Translates absorbed fun s => orderFragment scope (p.fill scope.parameter s) op)
    (hnegated : Translates absorbed fun s => fragment scope (.not (p.fill scope.parameter s))) :
    Translated scope absorbed fun s => p.fill scope.parameter s where
  alike s := alike_fill p s ""
  absorbed_of_isZero hz := by
    rw [isZero_fill] at hz
    cases hz
  whole := hwhole
  order := horder
  negated := hnegated

theorem orderFragment_of_no_call (h : e.call? = none) (op : BinaryOp) :
    orderFragment scope e op = unsupported (describe e) := by
  cases e with
  | call => cases h
  | _ => rfl

/-- A node that is no call. -/
theorem translated_of_no_call (hcall : ∀ s, (p.fill scope.parameter s).call? = none)
    (hwhole : Translates absorbed fun s => fragment scope (p.fill scope.parameter s)) :
    Translated scope absorbed fun s => p.fill scope.parameter s := by
  refine translated_fill hwhole (fun op => ?_) (hwhole.negated (alike_fill p · "") fun s => ?_)
  · exact .unsupported fun s => by rw [orderFragment_of_no_call (hcall s), describe_fill p s ""]
  · intro receiver args heq
    have hnone := hcall s
    rw [heq] at hnone
    cases hnone

/-- A node that the translator does not take apart. -/
theorem translated_of_literalOf
    (hfragment : ∀ s, fragment scope (p.fill scope.parameter s) = literalOf (p.fill scope.parameter s))
    (hne : ∀ s receiver args, p.fill scope.parameter s ≠ .call .contains receiver args)
    (horder : ∀ op, Translates absorbed fun s => orderFragment scope (p.fill scope.parameter s) op) :
    Translated scope absorbed fun s => p.fill scope.parameter s := by
  have hwhole : Translates absorbed fun s => fragment scope (p.fill scope.parameter s) :=
    .unsupported fun s => (hfragment s).trans (literalOf_fill p s)
  exact translated_fill hwhole horder (hwhole.negated (alike_fill p · "") hne)

/-- A search, by itself or negated. It is no call for an order. -/
theorem translated_of_contains {receiver : String → Option Expr} {args : String → List Expr}
    (hfill : ∀ s, p.fill scope.parameter s = .call .contains (receiver s) (args s))
    (h : ∀ negated, Translates absorbed fun s => contains scope negated (receiver s) (args s)) :
    Translated scope absorbed fun s => p.fill scope.parameter s := by
  refine translated_fill ?_ (fun op => ?_) ?_
  · exact (h false).congr fun s => by rw [hfill, fragment]
  · have hshape (s : String) : orderFragment scope (p.fill scope.parameter s) op =
        unsupported "Contains call shape" := by
      have hnone : (Call.mk .contains (receiver s) (args s)).compareOperands? = none := by
        cases receiver s <;> rfl
      rw [hfill, orderFragment_eq, hnone]
      rfl
    exact .unsupported hshape
  · exact (h true).congr fun s => by rw [hfill, fragment]

/-! ### Texts beside a member of the row, and in lists -/

/-- A member of the row against a text. -/
theorem translates_field (op : BinaryOp) (side : Side) {name : String}
    (h : '\x27' ∉ (scope.renames.column name).toList) :
    Translates False fun s =>
      side.place (comparison scope op) (.field scope.parameter name) (.constant (.string s)) := by
  let column : Template := .fixed (scope.renames.column name) (.of_not_mem h)
  let literal : Template := .gap .bare
  have hall (s : String) :
      side.place (comparison scope op) (.field scope.parameter name) (.constant (.string s)) =
        compareFragments (side.orient op) false (column.fill s) (literal.fill s) := by
    have hrender : Literal.render (.string s) = .ok (literal.fill s) :=
      congrArg Except.ok (ofList_fill_bare s).symm
    rw [comparison_field_constant, hrender, ok_bind]
    rfl
  have hone : ¬(column.IsGap ∧ literal.IsGap) := fun hboth => hboth.1
  refine ((Template.uniform_compareFragments (side.orient op) false hone).mono fun v hv => ?_).congr hall
  exact iff_of_true (hv.2 (.inr trivial)) id

theorem contains_list_of_no_column (negated : Bool) (items : List Value)
    (h : scope.column? e = .none) : contains scope negated (some (.constant (.list items))) [e] =
      unsupported "Contains argument must be a member of the queried row" := by
  rw [contains, h]
  rfl

/-! ### Searches around a place -/

/-- A search has a closed receiver and a member of the row as its one argument. -/
theorem contains_receiver (negated : Bool) (args : List Expr) :
    ∃ what, ∀ s, contains scope negated (some (p.fill scope.parameter s)) args = unsupported what := by
  rcases args with _ | ⟨needle, _ | ⟨e, args⟩⟩
  · exact ⟨_, fun s => rfl⟩
  · refine ⟨"Contains on a row member; only captured collections can be searched", fun s => ?_⟩
    rw [contains, p.isClosed_fill]
    rfl
  · exact ⟨_, fun s => rfl⟩

theorem contains_argument (negated : Bool) (object : Option Expr) (before after : List Expr) :
    ∃ what, ∀ s, contains scope negated object (before ++ p.fill scope.parameter s :: after) =
      unsupported what := by
  cases object with
  | none => exact ⟨_, fun s => rfl⟩
  | some collection =>
    rcases before with _ | ⟨b, _ | ⟨c, before⟩⟩
    · cases after with
      | nil =>
        cases hclosed : collection.isClosed with
        | false =>
          refine ⟨"Contains on a row member; only captured collections can be searched", fun s => ?_⟩
          rw [List.nil_append, contains, hclosed]
          rfl
        | true =>
          refine ⟨"Contains argument must be a member of the queried row", fun s => ?_⟩
          rw [List.nil_append, contains, hclosed, column?_fill]
          rfl
      | cons a after => exact ⟨_, fun s => rfl⟩
    · exact ⟨_, fun s => rfl⟩
    · exact ⟨_, fun s => rfl⟩

/-! ### One node around a place -/

theorem translated_compared {op : BinaryOp} (hop : op.isComparison) (side : Side) {name : String}
    (h : '\x27' ∉ (scope.renames.column name).toList) :
    Translated scope False fun s => (TextPlace.compared op hop side name).fill scope.parameter s := by
  refine translated_of_no_call (fun s => by cases side <;> rfl) ?_
  refine (translates_field op side h).congr fun s => ?_
  cases side with
  | left => exact fragment_comparison hop _ _
  | right => exact fragment_comparison hop _ _

theorem translated_ordered (c : OrderCall) (side : Side) {name : String}
    (h : '\x27' ∉ (scope.renames.column name).toList) :
    Translated scope False fun s => (TextPlace.ordered c side name).fill scope.parameter s := by
  refine translated_of_literalOf (fun s => ?_) (fun s => ?_) fun op => ?_
  · cases c <;> cases side <;> rfl
  · cases c <;> cases side <;> rintro _ _ ⟨⟩
  · refine (translates_field op side h).congr fun s => ?_
    cases side with
    | left => exact orderFragment_call c op _ _
    | right => exact orderFragment_call c op _ _

theorem translated_item (before after : List Value) {needle : Expr} (hopen : needle.isClosed = false)
    (h : QuoteFree scope needle) :
    Translated scope False fun s => (TextPlace.item before after needle hopen).fill scope.parameter s := by
  refine translated_of_contains (fun s => rfl) fun negated => ?_
  cases hcolumn : scope.column? needle with
  | none => exact .unsupported fun s => contains_list_of_no_column negated _ hcolumn
  | some column =>
    have hmembership := uniform_membership negated (h.column hcolumn) before after
    refine (hmembership.mono fun v hv => ?_).congr fun s => contains_list negated _ hcolumn
    exact iff_of_true hv id

theorem translated_left (op : BinaryOp) (hp : Translated scope absorbed fun s => p.fill scope.parameter s)
    (he : QuoteFree scope e) :
    Translated scope ((op = .or ∧ fragment scope e = .ok "") ∨ absorbed) fun s =>
      (TextPlace.left op p e).fill scope.parameter s := by
  have hbinary := translates_binary op hp (.fixed he) (.inr trivial)
  refine translated_of_no_call (fun s => rfl) (hbinary.congr_absorbed ?_)
  -- the place is absorbed already if it leaves no text
  have hempty : fragment scope (p.fill scope.parameter "") = .ok "" → absorbed :=
    hp.whole.absorbed_of_empty
  grind

theorem translated_right (op : BinaryOp) (hp : Translated scope absorbed fun s => p.fill scope.parameter s)
    (he : QuoteFree scope e) :
    Translated scope ((op = .or ∧ fragment scope e = .ok "") ∨ absorbed) fun s =>
      (TextPlace.right op e p).fill scope.parameter s := by
  have hbinary := translates_binary op (.fixed he) hp (.inl trivial)
  refine translated_of_no_call (fun s => rfl) (hbinary.congr_absorbed ?_)
  have hempty : fragment scope (p.fill scope.parameter "") = .ok "" → absorbed :=
    hp.whole.absorbed_of_empty
  grind

theorem translated_target (p : TextPlace) (name : String) :
    Translated scope absorbed fun s => (TextPlace.target p name).fill scope.parameter s := by
  have hliteral (s : String) : fragment scope ((TextPlace.target p name).fill scope.parameter s) =
      literalOf ((TextPlace.target p name).fill scope.parameter s) := by
    have hcolumn : scope.column? ((TextPlace.target p name).fill scope.parameter s) = .none :=
      column?_fill _ s
    rw [TextPlace.fill] at hcolumn ⊢
    rw [fragment, hcolumn]
  exact translated_of_no_call (fun s => rfl)
    (.unsupported fun s => (hliteral s).trans (literalOf_fill _ s))

theorem translated_receiver (method : Method) {args : List Expr}
    (hp : Translated scope absorbed fun s => p.fill scope.parameter s)
    (hargs : ∀ e ∈ args, QuoteFree scope e) :
    Translated scope absorbed fun s => (TextPlace.receiver method p args).fill scope.parameter s := by
  by_cases hmethod : method = .contains
  · subst hmethod
    refine translated_of_contains (fun s => rfl) fun negated => ?_
    obtain ⟨what, hwhat⟩ := contains_receiver negated args
    exact .unsupported hwhat
  · refine translated_of_literalOf (fun s => fragment_call hmethod _ _) (fun s => ?_)
      (translates_order_receiver hp hargs)
    rintro _ _ ⟨⟩
    exact hmethod rfl

theorem translated_argument (method : Method) {object : Option Expr} {before after : List Expr}
    (hp : Translated scope absorbed fun s => p.fill scope.parameter s)
    (hbefore : ∀ e ∈ object.toList ++ before, QuoteFree scope e)
    (hafter : ∀ e ∈ after, QuoteFree scope e) :
    Translated scope absorbed fun s =>
      (TextPlace.argument method object before p after).fill scope.parameter s := by
  by_cases hmethod : method = .contains
  · subst hmethod
    refine translated_of_contains (fun s => rfl) fun negated => ?_
    obtain ⟨what, hwhat⟩ := contains_argument negated object before after
    exact .unsupported hwhat
  · refine translated_of_literalOf (fun s => fragment_call hmethod _ _) (fun s => ?_)
      (translates_order_argument hp hbefore hafter)
    rintro _ _ ⟨⟩
    exact hmethod rfl

/-- The fragments of an expression with a place are those of one template, which has a gap unless an `or`
absorbs the place. -/
theorem translated (p : TextPlace) (h : QuoteFree scope (p.fill scope.parameter "")) :
    Translated scope (p.IsAbsorbed (fragment scope)) fun s => p.fill scope.parameter s := by
  induction p with
  | compared op hop side name =>
    refine translated_compared hop side (h.field_of_mem ?_)
    cases side with
    | left => exact List.mem_cons_self
    | right => exact List.mem_cons_of_mem _ List.mem_cons_self
  | ordered c side name =>
    refine translated_ordered c side (h.field_of_mem ?_)
    cases c <;> cases side <;>
      first | exact List.mem_cons_self | exact List.mem_cons_of_mem _ List.mem_cons_self
  | item before after needle hopen =>
    exact translated_item before after hopen (h.part (List.mem_cons_of_mem _ List.mem_cons_self))
  | not p ih => exact translated_of_no_call (fun s => rfl) (ih (h.part List.mem_cons_self)).negated
  | left op p r ih =>
    exact translated_left op (ih (h.part List.mem_cons_self))
      (h.part (List.mem_cons_of_mem _ List.mem_cons_self))
  | right op l p ih =>
    exact translated_right op (ih (h.part (List.mem_cons_of_mem _ List.mem_cons_self)))
      (h.part List.mem_cons_self)
  | target p name => exact translated_target p name
  | receiver method p args ih =>
    exact translated_receiver method (ih (h.part List.mem_cons_self))
      fun e he => h.part (List.mem_cons_of_mem _ he)
  | argument method object before p after ih =>
    have hmem (e : Expr) : e ∈ object.toList ++ (before ++ p.fill scope.parameter "" :: after) ↔
        e ∈ object.toList ++ before ∨ e = p.fill scope.parameter "" ∨ e ∈ after := by
      simp [or_assoc]
    exact translated_argument method (ih (h.part ((hmem _).2 (.inr (.inl rfl)))))
      (fun e he => h.part ((hmem e).2 (.inl he))) fun e he => h.part ((hmem e).2 (.inr (.inr he)))
  | element type before p after =>
    exact translated_of_no_call (fun s => rfl)
      (.unsupported fun s => literalOf_fill (.element type before p after) s)
  | entry before name p after =>
    exact translated_of_no_call (fun s => rfl)
      (.unsupported fun s => literalOf_fill (.entry before name p after) s)
  | body q p =>
    exact translated_of_no_call (fun s => rfl) (.unsupported fun s => literalOf_fill (.body q p) s)

/-! ### Filters of predicates -/

theorem QuoteFree.reduce {r : Expr} (h : QuoteFree scope e) (hr : e.reduce = .ok r) :
    QuoteFree scope r :=
  fun name hname => h name (Expr.isWithin_of_reduce hr hname)

theorem closes_toFilter {f : Lambda} {renames : Renames} (h : QuoteFree ⟨f.parameter, renames⟩ f.body) :
    Closes (f.toFilter renames) := by
  intro text htext
  obtain ⟨r, hr, hfragment⟩ := bind_eq_ok_iff.1 htext
  exact (closes_fragment (h.reduce hr)).1 text hfragment

theorem translates_toFilter {param : String} {renames : Renames}
    (h : QuoteFree ⟨param, renames⟩ (p.fill param "")) :
    Translates (p.IsAbsorbed fun e => (Lambda.mk param e).toFilter renames) fun s =>
      (Lambda.mk param (p.fill param s)).toFilter renames := by
  let scope : RowScope := ⟨param, renames⟩
  have htoFilter (s : String) : (Lambda.mk param (p.fill param s)).toFilter renames =
      (p.fill param s).reduce >>= fragment scope := rfl
  rcases @TextPlace.reduce_fill param p (fragment scope) with ⟨error, herror⟩ | ⟨q, hq, hreduce⟩
  · exact .error fun s => (htoFilter s).trans (congrArg (· >>= fragment scope) (herror s))
  · have hall (s : String) : (Lambda.mk param (p.fill param s)).toFilter renames =
        fragment scope (q.fill param s) :=
      (htoFilter s).trans (congrArg (· >>= fragment scope) (hreduce s))
    exact ((translated q (h.reduce (hreduce ""))).whole.congr_absorbed hq.symm).congr hall

end TableClient.Filter
