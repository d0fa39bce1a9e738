import TableClient.Proofs.Filter.Template

/-! Families of expressions, one for each text, that the translator cannot tell apart before it writes them.
Their fragments are those of one template, and so are those of comparisons, connectives and negations of
families, as long as at most one side has a gap. If one member has no translation then none has. -/

namespace TableClient.Filter

/-- A family of texts with a gap, unless it is absorbed. -/
def Translates (absorbed : Prop) (F : String → Except QueryError String) : Prop :=
  Uniform F Template.fill fun t => t.IsGap ↔ ¬absorbed

namespace Translates

variable {absorbed absorbed' : Prop} {F : String → Except QueryError String}

theorem unsupported {what : String} (h : ∀ s, F s = unsupported what) : Translates absorbed F :=
  .error h

theorem fixed {x : Except QueryError String} (h : Closes x) : Translates True fun _ => x :=
  Template.uniform_fixed h fun _ _ => by simp [Template.IsGap]

theorem congr_absorbed (h : Translates absorbed F) (heq : absorbed' ↔ absorbed) :
    Translates absorbed' F := by
  rwa [Translates, heq]

/-- The template is empty if a text is. -/
theorem isEmpty_iff (h : Translates absorbed F) : Uniform F Template.fill fun t =>
    (t.IsGap ↔ ¬absorbed) ∧ (t.IsEmpty ↔ F "" = .ok "") := by
  rcases h with ⟨e, he⟩ | ⟨t, ht, hok⟩
  · exact .error he
  · refine .ok ⟨ht, ?_⟩ hok
    rw [hok, Except.ok.injEq]
    exact Iff.rfl

theorem absorbed_of_empty (h : Translates absorbed F) (hs : F "" = .ok "") : absorbed := by
  rcases h.isEmpty_iff with ⟨e, he⟩ | ⟨t, ⟨hgap, hempty⟩, -⟩
  · cases (he "").symm.trans hs
  · exact not_not.1 fun hkept => Template.not_isGap_of_isEmpty (hempty.2 hs) (hgap.2 hkept)

end Translates

/-- Two expressions that the translator treats alike before it takes them apart. -/
structure Alike (scope : RowScope) (e e' : Expr) : Prop where
  column : scope.column? e = scope.column? e'
  isBinary : isBinary e = isBinary e'
  isConstant : isConstant e = isConstant e'
  isCompareCall : isCompareCall e = isCompareCall e'
  isZero : isZero e = isZero e'
  methodName : compareExprs.methodName e = compareExprs.methodName e'

/-- What the translator makes of a family of expressions: by themselves, as calls for an order, and under a
negation. -/
structure Translated (scope : RowScope) (absorbed : Prop) (E : String → Expr) : Prop where
  alike (s : String) : Alike scope (E s) (E "")
  absorbed_of_isZero : isZero (E "") → absorbed
  whole : Translates absorbed fun s => fragment scope (E s)
  order (op : BinaryOp) : Translates absorbed fun s => orderFragment scope (E s) op
  negated : Translates absorbed fun s => fragment scope (.not (E s))

variable {scope : RowScope} {e : Expr} {a b : Prop} {E D : String → Expr}

/-- One expression, whatever the text. -/
theorem Translated.fixed (h : QuoteFree scope e) : Translated scope True fun _ => e where
  alike _ := ⟨rfl, rfl, rfl, rfl, rfl, rfl⟩
  absorbed_of_isZero _ := trivial
  whole := .fixed (closes_fragment h).1
  order op := .fixed ((closes_fragment h).2 op)
  negated := by
    have hnot : QuoteFree scope (.not e) := by
      refine .of_parts nofun fun c hc => ?_
      rwa [List.mem_singleton.1 hc]
    exact .fixed (closes_fragment hnot).1

/-- Of two sides of which one is absorbed at least, the gap of the other is that of both compared. -/
theorem translates_compareSides (hE : Translated scope a E) (hD : Translated scope b D) (h : a ∨ b)
    (op : BinaryOp) : Translates (a ∧ b) fun s =>
      compareSides scope op (E s) (D s) (fragment scope (E s)) (fragment scope (D s)) := by
  have hgaps {t u : Template} (ht : t.IsGap ↔ ¬a) (hu : u.IsGap ↔ ¬b) :
      ¬(t.IsGap ∧ u.IsGap) ∧ (t.IsGap ∨ u.IsGap ↔ ¬(a ∧ b)) := by
    rw [ht, hu, ← not_or, not_and_or]
    exact ⟨not_not.2 h, Iff.rfl⟩
  let compound := isBinary (E "") || isBinary (D "")
  have hsides (s : String) :
      compareSides scope op (E s) (D s) (fragment scope (E s)) (fragment scope (D s)) =
        if (scope.column? (E "")).isNone && (scope.column? (D "")).isSome then (do
          let r ← fragment scope (D s)
          let l ← fragment scope (E s)
          compareFragments op.mirrored compound r l)
        else (do
          let l ← fragment scope (E s)
          let r ← fragment scope (D s)
          compareFragments op compound l r) := by
    rw [compareSides, (hE.alike s).column, (hD.alike s).column, (hE.alike s).isBinary,
      (hD.alike s).isBinary]
  cases hswap : (scope.column? (E "")).isNone && (scope.column? (D "")).isSome with
  | true =>
    simp only [hswap, if_true] at hsides
    refine (hD.whole.bind fun u hu => hE.whole.bind fun t ht => ?_).congr hsides
    obtain ⟨hone, hboth⟩ := hgaps ht hu
    have hcompare := Template.uniform_compareFragments op.mirrored compound fun hgap => hone hgap.symm
    exact hcompare.mono fun v hv => hv.trans (or_comm.trans hboth)
  | false =>
    simp only [hswap, Bool.false_eq_true, if_false] at hsides
    refine (hE.whole.bind fun t ht => hD.whole.bind fun u hu => ?_).congr hsides
    obtain ⟨hone, hboth⟩ := hgaps ht hu
    exact (Template.uniform_compareFragments op compound hone).mono fun v hv => hv.trans hboth

theorem translates_comparison (hE : Translated scope a E) (hD : Translated scope b D) (h : a ∨ b)
    (op : BinaryOp) : Translates (a ∧ b) fun s => comparison scope op (E s) (D s) := by
  have hleft (s : String) := (hE.alike s).isCompareCall
  have hright (s : String) := (hD.alike s).isCompareCall
  cases hcall : isCompareCall (E "") with
  | true =>
    have hcall (s : String) : isCompareCall (E s) := (hleft s).trans hcall
    cases hz : isZero (D "") with
    | true =>
      have hz' (s : String) : isZero (D s) := (hD.alike s).isZero.trans hz
      have horder := (hE.order op).congr_absorbed (and_iff_left (hD.absorbed_of_isZero hz))
      exact horder.congr fun s => by rw [comparison, compareExprs, if_pos (hcall s), if_pos (hz' s)]
    | false =>
      have hz' (s : String) : ¬isZero (D s) := by simp [(hD.alike s).isZero, hz]
      exact .unsupported fun s => by
        rw [comparison, compareExprs, if_pos (hcall s), if_neg (hz' s), (hE.alike s).methodName]
  | false =>
    have hcall (s : String) : ¬isCompareCall (E s) := by simp [hleft, hcall]
    cases hcall' : isCompareCall (D "") with
    | true =>
      have hcall' (s : String) : isCompareCall (D s) := (hright s).trans hcall'
      cases hz : isZero (E "") with
      | true =>
        have hz' (s : String) : isZero (E s) := (hE.alike s).isZero.trans hz
        have horder := (hD.order op.mirrored).congr_absorbed (and_iff_right (hE.absorbed_of_isZero hz))
        exact horder.congr fun s => by
          rw [comparison, compareExprs, if_neg (hcall s), if_pos (hcall' s), if_pos (hz' s)]
      | false =>
        have hz' (s : String) : ¬isZero (E s) := by simp [(hE.alike s).isZero, hz]
        exact .unsupported fun s => by
          rw [comparison, compareExprs, if_neg (hcall s), if_pos (hcall' s), if_neg (hz' s),
            (hD.alike s).methodName]
    | false =>
      have hcall' (s : String) : ¬isCompareCall (D s) := by simp [hright, hcall']
      refine (translates_compareSides hE hD h op).congr fun s => ?_
      rw [comparison, compareExprs, if_neg (hcall s), if_neg (hcall' s)]

/-- An `or` absorbs its sides if there is no text on one of them. -/
theorem translates_connective {op : BinaryOp} (hop : op.isConnective) (hE : Translated scope a E)
    (hD : Translated scope b D) (h : a ∨ b) :
    Translates ((op = .or ∧ (fragment scope (E "") = .ok "" ∨ fragment scope (D "") = .ok "")) ∨ (a ∧ b))
      fun s => fragment scope (.binary op (E s) (D s)) := by
  refine (hE.whole.isEmpty_iff.bind fun t ht => hD.whole.isEmpty_iff.bind fun u hu => ?_).congr fun s =>
    fragment_connective hop _ _
  obtain ⟨htgap, htempty⟩ := ht
  obtain ⟨hugap, huempty⟩ := hu
  have hone : ¬(t.IsGap ∧ u.IsGap) := by
    rw [htgap, hugap, ← not_or, not_not]
    exact h
  obtain ⟨v, hv, hfill⟩ := Template.exists_connect op hone
  refine .ok (k := v) ?_ fun s => congrArg Except.ok (hfill s)
  rw [hv, htgap, hugap, htempty, huempty, ← not_and_or, ← not_or, or_comm]

theorem translates_binary (op : BinaryOp)
    (hE : Translated scope a E) (hD : Translated scope b D) (h : a ∨ b) :
    Translates ((op = .or ∧ (fragment scope (E "") = .ok "" ∨ fragment scope (D "") = .ok "")) ∨ (a ∧ b))
      fun s => fragment scope (.binary op (E s) (D s)) := by
  cases hop : op.isComparison with
  | true =>
    have hor : ¬(op = .or ∧ (fragment scope (E "") = .ok "" ∨ fragment scope (D "") = .ok "")) := by
      rintro ⟨rfl, -⟩
      cases hop
    have hcompare := (translates_comparison hE hD h op).congr fun s => fragment_comparison hop (E s) (D s)
    exact Translates.congr_absorbed hcompare (or_iff_right hor)
  | false => exact translates_connective (by simpa [BinaryOp.isComparison] using hop) hE hD h

/-- The negation of anything but a search. -/
theorem Translates.negated (h : Translates a fun s => fragment scope (E s))
    (hE : ∀ s, Alike scope (E s) (E "")) (hne : ∀ s receiver args, E s ≠ .call .contains receiver args) :
    Translates a fun s => fragment scope (.not (E s)) := by
  let atomic := (scope.column? (E "")).isSome || isConstant (E "")
  have hnot (s : String) : fragment scope (.not (E s)) = (do
      let text ← fragment scope (E s)
      .ok (negate atomic text)) := by
    rw [fragment_not (hne s), (hE s).column, (hE s).isConstant]
  refine (h.bind fun t ht => ?_).congr hnot
  obtain ⟨u, hu, hfill⟩ := t.exists_negate atomic
  exact .ok (k := u) (hu.trans ht) fun s => congrArg Except.ok (hfill s)

/-! ### Calls for an order -/

theorem compareOperands?_receiver (method : Method) (args : List Expr) :
    (∃ b ∈ args, ∀ e, (Call.mk method (some e) args).compareOperands? = some (e, b)) ∨
      ∀ e, (Call.mk method (some e) args).compareOperands? = none := by
  rcases args with _ | ⟨b, _ | ⟨c, args⟩⟩
  · exact .inr fun e => by cases method <;> rfl
  · cases method with
    | compareTo => exact .inl ⟨b, List.mem_cons_self, fun e => rfl⟩
    | _ => exact .inr fun e => rfl
  · exact .inr fun e => by cases method <;> rfl

theorem compareOperands?_argument (method : Method) (object : Option Expr) (before after : List Expr) :
    (∃ a ∈ object.toList ++ before,
        ∀ e, (Call.mk method object (before ++ e :: after)).compareOperands? = some (a, e)) ∨
      (∃ b ∈ after, ∀ e, (Call.mk method object (before ++ e :: after)).compareOperands? = some (e, b)) ∨
      ∀ e, (Call.mk method object (before ++ e :: after)).compareOperands? = none := by
  rcases before with _ | ⟨a, _ | ⟨c, before⟩⟩
  · rcases after with _ | ⟨b, _ | ⟨c, after⟩⟩
    · cases object with
      | none => exact .inr (.inr fun e => by cases method <;> rfl)
      | some a =>
        cases method with
        | compareTo => exact .inl ⟨a, List.mem_cons_self, fun e => rfl⟩
        | _ => exact .inr (.inr fun e => rfl)
    · cases object with
      | some a => exact .inr (.inr fun e => by cases method <;> rfl)
      | none =>
        cases method with
        | compare | compareOrdinal => exact .inr (.inl ⟨b, List.mem_cons_self, fun e => rfl⟩)
        | _ => exact .inr (.inr fun e => rfl)
    · exact .inr (.inr fun e => by cases method <;> cases object <;> rfl)
  · rcases after with _ | ⟨b, after⟩
    · cases object with
      | some a => exact .inr (.inr fun e => by cases method <;> rfl)
      | none =>
        cases method with
        | compare | compareOrdinal => exact .inl ⟨a, List.mem_cons_self, fun e => rfl⟩
        | _ => exact .inr (.inr fun e => rfl)
    · exact .inr (.inr fun e => by cases method <;> cases object <;> rfl)
  · exact .inr (.inr fun e => by
      cases before <;> cases after <;> cases method <;> cases object <;> rfl)

theorem translates_order_receiver {method : Method} {args : List Expr} (hE : Translated scope a E)
    (hargs : ∀ e ∈ args, QuoteFree scope e) (op : BinaryOp) :
    Translates a fun s => orderFragment scope (.call method (some (E s)) args) op := by
  rcases compareOperands?_receiver method args with ⟨d, hd, hops⟩ | hnone
  · have hcompare := translates_comparison hE (.fixed (hargs d hd)) (.inr trivial) op
    exact (hcompare.congr_absorbed (and_iff_left trivial).symm).congr fun s => by
      rw [orderFragment_eq, hops]
  · exact .unsupported fun s => by rw [orderFragment_eq, hnone]

theorem translates_order_argument {method : Method} {object : Option Expr} {before after : List Expr}
    (hE : Translated scope a E) (hbefore : ∀ e ∈ object.toList ++ before, QuoteFree scope e)
    (hafter : ∀ e ∈ after, QuoteFree scope e) (op : BinaryOp) :
    Translates a fun s => orderFragment scope (.call method object (before ++ E s :: after)) op := by
  rcases compareOperands?_argument method object before after with
    ⟨c, hc, hops⟩ | ⟨d, hd, hops⟩ | hnone
  · have hcompare := translates_comparison (.fixed (hbefore c hc)) hE (.inl trivial) op
    exact (hcompare.congr_absorbed (and_iff_right trivial).symm).congr fun s => by
      rw [orderFragment_eq, hops]
  · have hcompare := translates_comparison hE (.fixed (hafter d hd)) (.inr trivial) op
    exact (hcompare.congr_absorbed (and_iff_left trivial).symm).congr fun s => by
      rw [orderFragment_eq, hops]
  · exact .unsupported fun s => by rw [orderFragment_eq, hnone]

end TableClient.Filter
