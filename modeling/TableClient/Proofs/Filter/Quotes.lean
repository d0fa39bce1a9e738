import TableClient.Proofs.Expr.NormalForm
import TableClient.Proofs.Filter.Gap
import TableClient.Proofs.Filter.Translation

/-! Fragments close their quotes. Literals do, since quotes within them are doubled, and so do columns
without quotes. Nothing else that the translator writes has a quote in it. -/

namespace TableClient.Filter

variable {scope : RowScope} {op : BinaryOp} {l r t : String}

def Closes (x : Except QueryError String) : Prop :=
  ∀ t, x = .ok t → QuotesClosed t.toList

/-! ### Texts of operators -/

theorem toList_joined (op : BinaryOp) (l r : String) :
    (joined op l r).toList = joinedChars op l.toList r.toList := by
  simp [joined, joinedChars]

theorem toList_grouped (t : String) : (grouped t).toList = group t.toList := by
  simp [grouped, group]

theorem quotesClosed_joined (op : BinaryOp) (hl : QuotesClosed l.toList) (hr : QuotesClosed r.toList) :
    QuotesClosed (joined op l r).toList := by
  rw [toList_joined]
  exact hl.joinedChars op hr

theorem quotesClosed_grouped (h : QuotesClosed t.toList) : QuotesClosed (grouped t).toList := by
  rw [toList_grouped]
  exact h.group

theorem quotesClosed_connect (op : BinaryOp) (hl : QuotesClosed l.toList) (hr : QuotesClosed r.toList) :
    QuotesClosed (connect op l r).toList := by
  rw [connect]
  split
  · exact .nil
  · split
    · exact .nil
    · split
      · exact hr
      · split
        · exact hl
        · exact quotesClosed_grouped (quotesClosed_joined op hl hr)

theorem quotesClosed_negate (atomic : Bool) (h : QuotesClosed t.toList) :
    QuotesClosed (negate atomic t).toList := by
  have hnot {u : String} (hu : QuotesClosed u.toList) : QuotesClosed ("not " ++ u).toList := by
    rw [String.toList_append]
    exact QuotesClosed.append (.of_not_mem (by decide)) hu
  rw [negate]
  split
  · exact .nil
  · split
    · exact hnot h
    · exact hnot (quotesClosed_grouped h)

theorem closes_compareFragments (op : BinaryOp) (compound : Bool) (hl : QuotesClosed l.toList)
    (hr : QuotesClosed r.toList) : Closes (compareFragments op compound l r) := by
  intro t ht
  rw [compareFragments] at ht
  split at ht
  · cases ht
  · split at ht
    · cases ht
      exact quotesClosed_grouped (quotesClosed_joined op hl hr)
    · cases ht
      exact quotesClosed_joined op hl hr

/-! ### Literals -/

theorem closes_render (v : Value) : Closes (Literal.render v) := by
  have hmarked {mark : String} {body : List Char} (hm : '\x27' ∉ mark.toList)
      (hb : ∀ quoted, quotedAfter quoted body = quoted) :
      QuotesClosed (Literal.marked mark body).toList := by
    rw [Literal.toList_marked]
    refine QuotesClosed.append (.of_not_mem hm) ?_
    show quotedAfter true (body ++ ['\x27']) = false
    rw [quotedAfter_append, hb]
    rfl
  have hplain {cs : List Char} (h : '\x27' ∉ cs) : QuotesClosed (String.ofList cs).toList := by
    rw [String.toList_ofList]
    exact .of_not_mem h
  have hinteger (n : Int) : '\x27' ∉ Text.integer n :=
    Literal.not_mem_integer (by decide) (by decide) n
  intro t ht
  cases v with
  | string s => cases ht; exact hmarked (by decide) fun _ => quotedAfter_doubleQuotes _ _
  | binary bytes =>
    cases ht
    exact hmarked (by decide) (quotedAfter_of_not_mem (Literal.quote_not_mem_hexBytes bytes))
  | bool b => cases ht; cases b <;> exact .of_not_mem (by decide)
  | int32 n => cases ht; exact hplain (hinteger _)
  | int64 n => cases ht; exact hplain (by simp [hinteger])
  | double x =>
    rw [Literal.render] at ht
    split at ht
    · cases ht
      exact hplain (Literal.quote_not_mem_doubleText x)
    · cases ht
  | guid g =>
    obtain rfl : Literal.marked "guid" g.hyphenated = t := Except.ok.inj ht
    exact hmarked (by decide) (quotedAfter_of_not_mem (Literal.quote_not_mem_hyphenated g))
  | dateTime d =>
    obtain rfl : Literal.marked "datetime" d.zuluText = t := Except.ok.inj ht
    exact hmarked (by decide) (quotedAfter_of_not_mem (Literal.quote_not_mem_zuluText d))
  | null | list | record => cases ht

theorem closes_literalOf (e : Expr) : Closes (literalOf e) := by
  intro t ht
  rw [literalOf] at ht
  split at ht
  · obtain ⟨v, -, hv⟩ := bind_eq_ok_iff.1 ht
    exact closes_render v t hv
  · cases ht

/-! ### Searches -/

theorem quotesClosed_intercalate (op : BinaryOp) {tests : List String}
    (h : ∀ t ∈ tests, QuotesClosed t.toList) :
    QuotesClosed ((" " ++ op.keyword ++ " ").intercalate tests).toList := by
  induction tests with
  | nil => exact .nil
  | cons t ts ih =>
    rw [List.forall_mem_cons] at h
    cases ts with
    | nil => simpa using h.1
    | cons u us =>
      rw [intercalate_cons op t (List.cons_ne_nil u us)]
      exact quotesClosed_joined op h.1 (ih h.2)

def testText (op : BinaryOp) (column : String) (v : Value) : Except QueryError String := do
  .ok (joined op column (← Literal.render v))

theorem quotesClosed_of_mapM {column : String} (op : BinaryOp) (h : '\x27' ∉ column.toList)
    {items : List Value} {tests : List String} (hm : items.mapM (testText op column) = .ok tests) :
    ∀ t ∈ tests, QuotesClosed t.toList := by
  induction items generalizing tests with
  | nil =>
    cases hm
    exact nofun
  | cons v vs ih =>
    rw [List.mapM_cons] at hm
    obtain ⟨test, htest, hrest⟩ := bind_eq_ok_iff.1 hm
    obtain ⟨lit, hlit, ⟨⟩⟩ := bind_eq_ok_iff.1 htest
    obtain ⟨ts, hts, ⟨⟩⟩ := bind_eq_ok_iff.1 hrest
    exact List.forall_mem_cons.2
      ⟨quotesClosed_joined op (.of_not_mem h) (closes_render v lit hlit), ih hts⟩

/-- The tests of a search, and what stands between them. -/
theorem membership_eq_tests (column : String) (negated : Bool) {items : List Value} (h : items ≠ []) :
    membership column negated items = (do
      let tests ← items.mapM (testText (if negated then .ne else .eq) column)
      .ok (grouped ((" " ++ (if negated then BinaryOp.and else .or).keyword ++ " ").intercalate tests))) := by
  rw [membership, if_neg (by simpa using h)]
  cases negated <;> rfl

theorem closes_membership {column : String} (negated : Bool) (items : List Value)
    (h : '\x27' ∉ column.toList) : Closes (membership column negated items) := by
  intro t ht
  cases items with
  | nil =>
    cases ht
    exact .nil
  | cons v vs =>
    rw [membership_eq_tests column negated (List.cons_ne_nil v vs)] at ht
    obtain ⟨tests, hm, ⟨⟩⟩ := bind_eq_ok_iff.1 ht
    exact quotesClosed_grouped (quotesClosed_intercalate _ (quotesClosed_of_mapM _ h hm))

/-! ### Fragments -/

/-- No column that the expression reads off the row has a quote in its name. -/
def QuoteFree (scope : RowScope) (e : Expr) : Prop :=
  ∀ name, Expr.IsWithin (.field scope.parameter name) e → '\x27' ∉ (scope.renames.column name).toList

theorem QuoteFree.part {c e : Expr} (h : QuoteFree scope e) (hc : c ∈ e.parts) : QuoteFree scope c :=
  fun name hw => h name (.inside hc hw)

theorem QuoteFree.of_parts {e : Expr}
    (h : ∀ name, e = .field scope.parameter name → '\x27' ∉ (scope.renames.column name).toList)
    (hparts : ∀ c ∈ e.parts, QuoteFree scope c) : QuoteFree scope e := by
  intro name hname
  cases hname with
  | self => exact h name rfl
  | inside hc hin => exact hparts _ hc name hin

theorem QuoteFree.field_of_mem {e : Expr} {name : String} (h : QuoteFree scope e)
    (hname : .field scope.parameter name ∈ e.parts) : '\x27' ∉ (scope.renames.column name).toList :=
  h name (.inside hname .self)

theorem quoteFree_constant (v : Value) : QuoteFree scope (.constant v) :=
  .of_parts nofun nofun

theorem quoteFree_field {name : String} (h : '\x27' ∉ (scope.renames.column name).toList) :
    QuoteFree scope (.field scope.parameter name) := by
  refine .of_parts ?_ fun c hc => ?_
  · rintro _ ⟨⟩
    exact h
  · rw [List.mem_singleton.1 hc]
    exact .of_parts nofun nofun

theorem QuoteFree.binary {e d : Expr} (he : QuoteFree scope e) (hd : QuoteFree scope d) (op : BinaryOp) :
    QuoteFree scope (.binary op e d) := by
  refine .of_parts nofun fun c hc => ?_
  rcases List.mem_pair.1 hc with rfl | rfl
  · exact he
  · exact hd

theorem QuoteFree.column {e : Expr} {column : String} (h : QuoteFree scope e)
    (hcolumn : scope.column? e = some column) : '\x27' ∉ column.toList := by
  obtain ⟨name, hname, rfl⟩ := Option.map_eq_some_iff.1 hcolumn
  cases e with
  | member target field =>
    cases target with
    | parameter p =>
      rw [Expr.parameterMember?] at hname
      split at hname
      next hp =>
        cases hname
        subst hp
        exact h name .self
      next => cases hname
    | _ => cases hname
  | _ => cases hname

theorem closes_contains (negated : Bool) {receiver : Option Expr} {args : List Expr}
    (h : ∀ c ∈ args, QuoteFree scope c) : Closes (contains scope negated receiver args) := by
  intro t ht
  rw [contains.eq_def] at ht
  split at ht
  · cases ht
  next collection needle =>
    split at ht
    · cases ht
    · split at ht
      · cases ht
      next column hcolumn =>
        obtain ⟨v, -, hv⟩ := bind_eq_ok_iff.1 ht
        split at hv
        · exact closes_membership negated _ ((h needle List.mem_cons_self).column hcolumn) t hv
        · cases hv
  · cases ht

theorem closes_compareExprs {op : BinaryOp} {left right : Expr}
    {leftText rightText : Except QueryError String}
    {leftOrder rightOrder : BinaryOp → Except QueryError String} (hl : Closes leftText)
    (hr : Closes rightText) (hlo : ∀ op, Closes (leftOrder op)) (hro : ∀ op, Closes (rightOrder op)) :
    Closes (compareExprs scope op left right leftText rightText leftOrder rightOrder) := by
  intro t ht
  rw [compareExprs] at ht
  split at ht
  · split at ht
    · exact hlo _ t ht
    · cases ht
  · split at ht
    · split at ht
      · exact hro _ t ht
      · cases ht
    · rw [compareSides] at ht
      split at ht
      · obtain ⟨r, hright, hrest⟩ := bind_eq_ok_iff.1 ht
        obtain ⟨l, hleft, hcompare⟩ := bind_eq_ok_iff.1 hrest
        exact closes_compareFragments _ _ (hr r hright) (hl l hleft) t hcompare
      · obtain ⟨l, hleft, hrest⟩ := bind_eq_ok_iff.1 ht
        obtain ⟨r, hright, hcompare⟩ := bind_eq_ok_iff.1 hrest
        exact closes_compareFragments _ _ (hl l hleft) (hr r hright) t hcompare

/-- Any call but a search has to be closed. -/
theorem fragment_call {method : Method} (h : method ≠ .contains) (receiver : Option Expr)
    (args : List Expr) :
    fragment scope (.call method receiver args) = literalOf (.call method receiver args) := by
  cases method <;> first | rfl | exact absurd rfl h

/-- A call for an order compares its two operands, and no other call does. -/
theorem orderFragment_eq (method : Method) (receiver : Option Expr) (args : List Expr) (op : BinaryOp) :
    orderFragment scope (.call method receiver args) op =
      match (Call.mk method receiver args).compareOperands? with
      | some (a, b) => comparison scope op a b
      | none => unsupported (method.name ++ " call shape") := by
  rcases args with _ | ⟨a, _ | ⟨b, _ | ⟨c, args⟩⟩⟩ <;> cases method <;> cases receiver <;> rfl

theorem mem_of_compareOperands? {method : Method} {receiver : Option Expr} {args : List Expr}
    {a b : Expr} (h : (Call.mk method receiver args).compareOperands? = some (a, b)) :
    a ∈ receiver.toList ++ args ∧ b ∈ receiver.toList ++ args := by
  have hpair (a b : Expr) : a ∈ [a, b] ∧ b ∈ [a, b] :=
    ⟨List.mem_cons_self, List.mem_cons_of_mem _ List.mem_cons_self⟩
  rw [Call.compareOperands?.eq_def] at h
  split at h
  next hr ha =>
    cases h
    dsimp only at hr ha
    subst hr ha
    exact hpair a b
  next hr ha =>
    cases h
    dsimp only at hr ha
    subst hr ha
    exact hpair a b
  next hr ha =>
    cases h
    dsimp only at hr ha
    subst hr ha
    exact hpair a b
  next => cases h

/-- Whatever the translator writes for an expression, or for the operands of a call for an order, its
quotes are closed. -/
theorem closes_fragment {e : Expr} (h : QuoteFree scope e) :
    Closes (fragment scope e) ∧ ∀ op, Closes (orderFragment scope e op) := by
  induction e using Expr.parts_induction with
  | step e ih =>
    have hpart c (hc : c ∈ e.parts) := ih c hc (h.part hc)
    have hunsupported (what : String) : Closes (unsupported what) := nofun
    cases e with
    | constant v => exact ⟨closes_render v, fun _ => hunsupported _⟩
    | parameter | source | newArray | new | lambda =>
      exact ⟨closes_literalOf _, fun _ => hunsupported _⟩
    | member target name =>
      refine ⟨?_, fun _ => hunsupported _⟩
      rw [fragment]
      split
      next column hcolumn =>
        rintro t ⟨⟩
        exact .of_not_mem (h.column hcolumn)
      next => exact closes_literalOf _
    | not operand =>
      refine ⟨?_, fun _ => hunsupported _⟩
      intro t ht
      by_cases hsearch : ∃ receiver args, operand = .call .contains receiver args
      · obtain ⟨receiver, args, rfl⟩ := hsearch
        rw [fragment] at ht
        exact closes_contains true
          (fun c hc => (h.part List.mem_cons_self).part (List.mem_append_right _ hc)) t ht
      · rw [fragment_not fun receiver args heq => hsearch ⟨receiver, args, heq⟩] at ht
        obtain ⟨u, hu, ⟨⟩⟩ := bind_eq_ok_iff.1 ht
        exact quotesClosed_negate _ ((hpart operand List.mem_cons_self).1 u hu)
    | binary op left right =>
      refine ⟨?_, fun _ => hunsupported _⟩
      obtain ⟨hl, hlo⟩ := hpart left List.mem_cons_self
      obtain ⟨hr, hro⟩ := hpart right (List.mem_cons_of_mem _ List.mem_cons_self)
      intro t ht
      cases hop : op.isComparison with
      | true =>
        rw [fragment_comparison hop] at ht
        exact closes_compareExprs hl hr hlo hro t ht
      | false =>
        rw [fragment_connective (by simpa [BinaryOp.isComparison] using hop)] at ht
        obtain ⟨u, hu, hrest⟩ := bind_eq_ok_iff.1 ht
        obtain ⟨v, hv, ⟨⟩⟩ := bind_eq_ok_iff.1 hrest
        exact quotesClosed_connect op (hl u hu) (hr v hv)
    | call method receiver args =>
      constructor
      · by_cases hsearch : method = .contains
        · subst hsearch
          rw [fragment]
          exact closes_contains false fun c hc => h.part (List.mem_append_right _ hc)
        · rw [fragment_call hsearch]
          exact closes_literalOf _
      · intro op
        rw [orderFragment_eq]
        split
        next a b hab =>
          obtain ⟨ha, hb⟩ := mem_of_compareOperands? hab
          exact closes_compareExprs (hpart a ha).1 (hpart b hb).1 (hpart a ha).2 (hpart b hb).2
        next => exact hunsupported _

end TableClient.Filter
