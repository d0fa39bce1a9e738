import TableClient.Proofs.Filter.Fragment

/-! Translation of formulas. The phrase of a formula follows its connectives, and the text that the
translator writes for the formula is that of the phrase. -/

namespace TableClient.Filter

/-! ### Fragments of tests -/

variable {scope : RowScope}

theorem column?_field (name : String) :
    scope.column? (.field scope.parameter name) = some (scope.renames.column name) := by
  simp [RowScope.column?, Expr.parameterMember?]

theorem fragment_field (name : String) :
    fragment scope (.field scope.parameter name) = .ok (scope.renames.column name) := by
  rw [fragment, column?_field]

theorem fragment_comparison {op : BinaryOp} (h : op.isComparison) (l r : Expr) :
    fragment scope (.binary op l r) =
      compareExprs scope op l r (fragment scope l) (fragment scope r) (orderFragment scope l)
        (orderFragment scope r) := by
  cases op <;> first | rfl | exact absurd h (by decide)

theorem fragment_connective {op : BinaryOp} (h : op.isConnective) (l r : Expr) :
    fragment scope (.binary op l r) = (do
      let a ← fragment scope l
      let b ← fragment scope r
      .ok (connect op a b)) := by
  cases op <;> first | rfl | exact absurd h (by decide)

/-- The comparison of two expressions with the fragments of both. -/
def comparison (scope : RowScope) (op : BinaryOp) (l r : Expr) : Except QueryError String :=
  compareExprs scope op l r (fragment scope l) (fragment scope r) (orderFragment scope l)
    (orderFragment scope r)

/-- A member against a constant, with the column on the left wherever the member stood. -/
theorem comparison_field_constant (op : BinaryOp) (side : Side) (name : String) (v : Value) :
    side.place (comparison scope op) (.field scope.parameter name) (.constant v) =
      Literal.render v >>= compareFragments (side.orient op) false (scope.renames.column name) := by
  have hconst : fragment scope (.constant v) = Literal.render v := rfl
  have hnone : scope.column? (.constant v) = none := rfl
  cases side with
  | left =>
    simp [Side.place, Side.orient, comparison, compareExprs, isCompareCall, compareSides,
      column?_field, fragment_field, hconst, hnone, isBinary]
  | right =>
    simp [Side.place, Side.orient, comparison, compareExprs, isCompareCall, compareSides,
      column?_field, fragment_field, hconst, hnone, isBinary]

theorem comparison_field (op : BinaryOp) (side : Side) {name : String} {v : Value}
    (hname : IsColumn (scope.renames.column name)) (hv : v.IsLiteral) :
    side.place (comparison scope op) (.field scope.parameter name) (.constant v) =
      .ok (joined (side.orient op) (scope.renames.column name) (literalText v)) := by
  obtain ⟨hrender, hspells⟩ := render_of_isLiteral hv
  have hlit : literalText v ≠ "" := by
    intro hempty
    exact hspells.isWord.ne_nil (by rw [hempty]; rfl)
  rw [comparison_field_constant, hrender, ok_bind]
  simp [compareFragments, hname.ne_empty, hlit]

theorem isCompareCall_call (c : OrderCall) (a b : Expr) : isCompareCall (c.call a b) := by
  cases c <;> rfl

theorem orderFragment_call (c : OrderCall) (op : BinaryOp) (a b : Expr) :
    orderFragment scope (c.call a b) op = comparison scope op a b := by
  cases c <;> rfl

/-- A call for an order against zero compares the operands of the call. -/
theorem comparison_call (op : BinaryOp) (side : Side) (c : OrderCall) (a b : Expr) {z : Value}
    (hz : isZero (.constant z)) :
    side.place (comparison scope op) (c.call a b) (.constant z) =
      comparison scope (side.orient op) a b := by
  have hconst : isCompareCall (.constant z) = false := rfl
  cases side with
  | left =>
    rw [Side.place, comparison, compareExprs, if_pos (isCompareCall_call c a b), if_pos hz,
      orderFragment_call, Side.orient]
  | right =>
    rw [Side.place, comparison, compareExprs, if_neg (by simp [hconst]),
      if_pos (isCompareCall_call c a b), if_pos hz, orderFragment_call, Side.orient]

end TableClient.Filter

namespace TableClient

open TableClient.Filter

/-- What the translator needs of a test: a column that a word can name, an operand that has a
literal, and zero where an order is compared. -/
def RowTest.Translatable (renames : Renames) : RowTest → Prop
  | member field => IsColumn (renames.column field)
  | @compare op _ field v _ => IsColumn (renames.column field) ∧ op.isComparison ∧ v.IsLiteral
  | @order _ op _ _ field v z _ _ =>
    IsColumn (renames.column field) ∧ op.isComparison ∧ v.IsLiteral ∧
      ∃ n, z.integer? = some n ∧ n.toInt = 0
  | @search field items _ => IsColumn (renames.column field) ∧ ∀ v ∈ items, v.IsLiteral

/-- The phrase of a test, or no constraint. -/
def RowTest.phrase? (renames : Renames) : RowTest → Option Phrase
  | member field => some (.column (renames.column field))
  | @compare op side field v _ => some (.testOf (renames.column field) (side.orient op) v)
  | @order _ op side inside field v _ _ _ =>
    some (.testOf (renames.column field) (inside.orient (side.orient op)) v)
  | @search field items _ => Phrase.search (renames.column field) false items

namespace Formula

/-- Whether the formula is a member by itself, which no parentheses have to protect. -/
def isMember : Formula → Bool
  | test (.member _) => true
  | _ => false

def phrase? (renames : Renames) : Formula → Option Phrase
  | test t => t.phrase? renames
  | not (test (@RowTest.search field items _)) => Phrase.search (renames.column field) true items
  | not f => (f.phrase? renames).map (.negated f.isMember)
  | and f g => Phrase.both (f.phrase? renames) (g.phrase? renames)
  | or f g => Phrase.either (f.phrase? renames) (g.phrase? renames)

def Translatable (renames : Renames) (f : Formula) : Prop :=
  ∀ t ∈ f.tests, t.Translatable renames

end Formula

/-! ### Fragments of formulas -/

section Fragments

variable {scope : RowScope}

theorem RowTest.isOperand_phrase? {renames : Renames} {t : RowTest} (h : t.Translatable renames) :
    ∀ p ∈ t.phrase? renames, p.IsOperand := by
  cases t with
  | member field =>
    rintro p ⟨⟩
    exact ⟨h, rfl⟩
  | compare op side field operand =>
    obtain ⟨hname, hop, hv⟩ := h
    rintro p ⟨⟩
    exact Phrase.isOperand_testOf hname (side.isComparison_orient hop) hv
  | order c op side inside field operand zero =>
    obtain ⟨hname, hop, hv, -⟩ := h
    rintro p ⟨⟩
    exact Phrase.isOperand_testOf hname (inside.isComparison_orient (side.isComparison_orient hop)) hv
  | search field collection => exact Phrase.isOperand_search h.1 false h.2

/-- The search for a member of the row in a list. -/
theorem contains_list (negated : Bool) (items : List Value) {e : Expr} {column : String}
    (h : scope.column? e = some column) :
    contains scope negated (some (.constant (.list items))) [e] = membership column negated items := by
  have hclosed : (Expr.constant (.list items)).isClosed := rfl
  have hfold : (Expr.constant (.list items)).fold = .ok (.list items) := rfl
  simp only [contains, hclosed, h, hfold, ok_bind, Bool.not_true, Bool.false_eq_true, if_false]

theorem contains_field (name : String) (negated : Bool) {items : List Value}
    (h : ∀ v ∈ items, v.IsLiteral) :
    contains scope negated (some (.constant (.list items))) [.field scope.parameter name] =
      .ok (fragmentText (Phrase.search (scope.renames.column name) negated items)) := by
  rw [contains_list negated items (column?_field name), membership_eq negated h]

theorem RowTest.fragment_reduced {t : RowTest} (h : t.Translatable scope.renames) :
    fragment scope (t.reduced scope.parameter) = .ok (fragmentText (t.phrase? scope.renames)) := by
  cases t with
  | member field =>
    rw [reduced, fragment_field]
    simp [phrase?, fragmentText, Phrase.text]
  | @compare op side field v operand =>
    obtain ⟨hname, hop, hv⟩ := h
    have hfield := comparison_field op side hname hv
    rw [phrase?, fragmentText, ofList_testOf, ← hfield]
    cases side with
    | left => exact fragment_comparison hop _ _
    | right => exact fragment_comparison hop _ _
  | @order c op side inside field v z operand zero =>
    obtain ⟨hname, hop, hv, n, hn, hz⟩ := h
    have hzero : isZero (.constant z) := by simp [isZero, hn, hz]
    have hfield := comparison_field (side.orient op) inside hname hv
    rw [phrase?, fragmentText, ofList_testOf, ← hfield]
    -- the call on its side of the outer comparison, then the member on its side of the call
    cases inside with
    | left =>
      cases side with
      | left => exact (fragment_comparison hop _ _).trans (comparison_call op .left c _ _ hzero)
      | right => exact (fragment_comparison hop _ _).trans (comparison_call op .right c _ _ hzero)
    | right =>
      cases side with
      | left => exact (fragment_comparison hop _ _).trans (comparison_call op .left c _ _ hzero)
      | right => exact (fragment_comparison hop _ _).trans (comparison_call op .right c _ _ hzero)
  | search field collection => exact contains_field field false h.2

theorem fragment_not {e : Expr} (h : ∀ receiver args, e ≠ .call .contains receiver args) :
    fragment scope (.not e) = (do
      let text ← fragment scope e
      .ok (negate ((scope.column? e).isSome || isConstant e) text)) := by
  rw [fragment]
  exact h

namespace Formula

/-- A search is negated by itself, any other formula by a `not` before it. -/
theorem search_or_ne (f : Formula) :
    (∃ field items, ∃ c : Operand (.list items), f = test (.search field c)) ∨
      ∀ field items (c : Operand (.list items)), f ≠ test (.search field c) := by
  by_cases h : ∃ field items, ∃ c : Operand (.list items), f = test (.search field c)
  · exact .inl h
  · exact .inr fun field items c heq => h ⟨field, items, c, heq⟩

/-- A negation, unless of a search, negates the phrase of what it stands before. -/
theorem phrase?_not {renames : Renames} {f : Formula}
    (h : ∀ field items (c : Operand (.list items)), f ≠ test (.search field c)) :
    (not f).phrase? renames = (f.phrase? renames).map (.negated f.isMember) := by
  rw [phrase?]
  intro field items c
  exact h field items c

theorem isOperand_phrase? {renames : Renames} {f : Formula} (h : f.Translatable renames) :
    ∀ p ∈ f.phrase? renames, p.IsOperand := by
  induction f with
  | test t => exact t.isOperand_phrase? (h t (by simp [tests]))
  | not f ih =>
    rcases f.search_or_ne with ⟨field, items, c, rfl⟩ | hne
    · have hitems := h (.search field c) (by simp [tests])
      exact Phrase.isOperand_search hitems.1 true hitems.2
    · rw [phrase?_not hne]
      intro p hp
      obtain ⟨q, hq, rfl⟩ := Option.map_eq_some_iff.1 hp
      exact Phrase.isOperand_negated (ih h q hq)
  | and f g ihf ihg =>
    obtain ⟨hf, hg⟩ := List.forall_mem_append.1 h
    exact Phrase.isOperand_both (ihf hf) (ihg hg)
  | or f g ihf ihg =>
    obtain ⟨hf, hg⟩ := List.forall_mem_append.1 h
    exact Phrase.isOperand_either (ihf hf) (ihg hg)

/-- Only a search is reduced to a call that the translator negates by itself, and only a member to an
expression that needs no parentheses. -/
theorem reduced_atomic (scope : RowScope) {f : Formula}
    (h : ∀ field items (c : Operand (.list items)), f ≠ test (.search field c)) :
    (∀ receiver args, f.reduced scope.parameter ≠ .call .contains receiver args) ∧
      ((scope.column? (f.reduced scope.parameter)).isSome ||
        isConstant (f.reduced scope.parameter)) = f.isMember := by
  cases f with
  | test t =>
    cases t with
    | member field => simp [reduced, RowTest.reduced, column?_field, isMember]
    | compare op side field operand => cases side <;> exact ⟨nofun, rfl⟩
    | order c op side inside field operand zero => cases side <;> exact ⟨nofun, rfl⟩
    | search field c => exact absurd rfl (h field _ c)
  | not f => exact ⟨nofun, rfl⟩
  | and f g => exact ⟨nofun, rfl⟩
  | or f g => exact ⟨nofun, rfl⟩

theorem fragment_reduced (scope : RowScope) {f : Formula} (h : f.Translatable scope.renames) :
    fragment scope (f.reduced scope.parameter) = .ok (fragmentText (f.phrase? scope.renames)) := by
  induction f with
  | test t => exact t.fragment_reduced (h t (by simp [tests]))
  | not f ih =>
    rcases f.search_or_ne with ⟨field, items, c, rfl⟩ | hne
    · have hitems := (h (.search field c) (by simp [tests])).2
      exact contains_field field true hitems
    · obtain ⟨hcall, hatomic⟩ := reduced_atomic scope hne
      rw [reduced, fragment_not hcall, ih h, ok_bind, hatomic,
        negate_fragmentText (isOperand_phrase? (f := f) h), phrase?_not hne]
  | and f g ihf ihg =>
    obtain ⟨hf, hg⟩ : f.Translatable scope.renames ∧ g.Translatable scope.renames :=
      List.forall_mem_append.1 h
    rw [reduced, fragment, ihf hf, ok_bind, ihg hg, ok_bind,
      connect_and (isOperand_phrase? hf) (isOperand_phrase? hg), phrase?]
  | or f g ihf ihg =>
    obtain ⟨hf, hg⟩ : f.Translatable scope.renames ∧ g.Translatable scope.renames :=
      List.forall_mem_append.1 h
    rw [reduced, fragment, ihf hf, ok_bind, ihg hg, ok_bind,
      connect_or (isOperand_phrase? hf) (isOperand_phrase? hg), phrase?]

/-- The filter of a formula is the text of its phrase. -/
theorem toFilter_eq {f : Formula} {renames : Renames} (h : f.Translatable renames)
    (param : String) :
    (f.lambda param).toFilter renames = .ok (fragmentText (f.phrase? renames)) := by
  rw [Lambda.toFilter, lambda, f.reduce_body, ok_bind]
  exact fragment_reduced ⟨param, renames⟩ h

end Formula

end Fragments

end TableClient
