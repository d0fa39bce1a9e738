import TableClient.Proofs.Filter.Meaning
import TableClient.Proofs.Filter.Piece

/-! Clauses: predicates in which the operands of a comparison may be comparisons, connectives and
negations themselves. The translator brings the members of the row to the left of their comparisons,
and the filter spells the pieces of the clause so turned. Columns have the names of their members. -/

namespace TableClient

open TableClient.Filter

inductive Clause where
  | member (name : String)
  | constant (v : Value)
  | not (c : Clause)
  | binary (op : BinaryOp) (left right : Clause)

namespace Clause

def body (param : String) : Clause → Expr
  | member name => .field param name
  | constant v => .constant v
  | not c => .not (c.body param)
  | binary op l r => .binary op (l.body param) (r.body param)

def lambda (c : Clause) (param : String) : Lambda := ⟨param, c.body param⟩

/-- Members are named by words that are neither keywords nor literals, and constants have a literal. -/
def WellFormed : Clause → Prop
  | member name => IsColumn name ∧ Literal.read? name.toList = none
  | constant v => v.IsLiteral
  | not c => c.WellFormed
  | binary _ l r => l.WellFormed ∧ r.WellFormed

def isMember : Clause → Bool
  | member _ => true
  | _ => false

def isAtomic : Clause → Bool
  | member _ | constant _ => true
  | _ => false

def isBinary : Clause → Bool
  | binary .. => true
  | _ => false

/-- A comparison of operands that have no operator of their own. It stands without parentheses. -/
def isPlain : Clause → Bool
  | binary op l r => op.isComparison && !l.isBinary && !r.isBinary
  | _ => false

def isEnclosed (c : Clause) : Bool :=
  c.isBinary && !c.isPlain

/-- The clause with members on the left of their comparisons. -/
def turned : Clause → Clause
  | member name => member name
  | constant v => constant v
  | not c => not c.turned
  | binary op l r =>
    if op.isComparison && !l.isMember && r.isMember then binary op.mirrored r.turned l.turned
    else binary op l.turned r.turned

/-! ### Pieces of clauses -/

def wrap (enclosed : Bool) (ps : List Piece) : List Piece :=
  if enclosed then [.group ps] else ps

/-- The pieces within the parentheses of a clause, if it has them. -/
def content : Clause → List Piece
  | member name => [.word name.toList]
  | constant v => [.word (literalText v).toList]
  | not c => .word "not".toList :: wrap (!c.isAtomic) c.content
  | binary op l r =>
    wrap l.isEnclosed l.content ++ .word op.keyword.toList :: wrap r.isEnclosed r.content

def pieces (c : Clause) : List Piece :=
  wrap c.isEnclosed c.content

theorem content_binary (op : BinaryOp) (l r : Clause) :
    (binary op l r).content = l.pieces ++ .word op.keyword.toList :: r.pieces := rfl

variable {c l r : Clause} {param : String}

theorem wrap_ne_nil {enclosed : Bool} {ps : List Piece} (h : ps ≠ []) : wrap enclosed ps ≠ [] := by
  cases enclosed with
  | false => exact h
  | true => exact List.cons_ne_nil _ _

theorem content_ne_nil (c : Clause) : c.content ≠ [] := by
  cases c with
  | member | constant | not => exact List.cons_ne_nil _ _
  | binary op l r => exact List.append_ne_nil_of_right_ne_nil _ (List.cons_ne_nil _ _)

theorem pieces_ne_nil (c : Clause) : c.pieces ≠ [] :=
  wrap_ne_nil c.content_ne_nil

theorem readable_wrap {enclosed : Bool} {ps : List Piece} (hne : ps ≠ [])
    (h : Piece.Readable ps) : Piece.Readable (wrap enclosed ps) := by
  cases enclosed with
  | false => exact h
  | true => exact .group hne h .nil

theorem readable_content (h : c.WellFormed) : Piece.Readable c.content := by
  induction c with
  | member name => exact .word h.1.isWord .nil
  | constant v => exact .word (render_of_isLiteral h).2.isWord .nil
  | not c ih => exact .keyword (by decide) (by decide) (readable_wrap c.content_ne_nil (ih h))
  | binary op l r ihl ihr =>
    obtain ⟨hne, hrun⟩ := Phrase.isRun_keyword op
    have hright : Piece.Readable (wrap r.isEnclosed r.content) :=
      readable_wrap r.content_ne_nil (ihr h.2)
    exact (readable_wrap l.content_ne_nil (ihl h.1)).append (.keyword hne hrun hright)

theorem readable_pieces (h : c.WellFormed) : Piece.Readable c.pieces :=
  readable_wrap c.content_ne_nil (readable_content h)

theorem isBinary_of_isPlain (h : c.isPlain) : c.isBinary := by
  cases c with
  | binary op l r => rfl
  | _ => cases h

theorem isPlain_of_isBinary_eq_false (h : c.isBinary = false) : c.isPlain = false := by
  cases hp : c.isPlain with
  | false => rfl
  | true => rw [isBinary_of_isPlain hp] at h; cases h

theorem isEnclosed_of_isBinary_eq_false (h : c.isBinary = false) : c.isEnclosed = false := by
  rw [isEnclosed, h, Bool.false_and]

theorem pieces_of_isEnclosed_eq_false (h : c.isEnclosed = false) : c.pieces = c.content := by
  rw [pieces, h]
  rfl

/-- A clause without parentheses around it begins with a word. -/
theorem exists_content_eq_word (h : c.isEnclosed = false) :
    ∃ w ps, c.content = .word w :: ps := by
  have hfirst {c : Clause} (hc : c.isBinary = false) : ∃ w ps, c.content = .word w :: ps := by
    cases c with
    | member | constant | not => exact ⟨_, _, rfl⟩
    | binary op l r => cases hc
  cases c with
  | binary op l r =>
    -- a plain comparison, whose left operand is not binary
    have hplain : (binary op l r).isPlain := by simpa [isEnclosed, isBinary] using h
    have hl : l.isBinary = false := by
      simp only [isPlain, Bool.and_eq_true, Bool.not_eq_true'] at hplain
      exact hplain.1.2
    obtain ⟨w, ps, hps⟩ := hfirst hl
    have hpieces := pieces_of_isEnclosed_eq_false (isEnclosed_of_isBinary_eq_false hl)
    rw [content_binary, hpieces, hps]
    exact ⟨w, _, rfl⟩
  | _ => exact hfirst rfl

theorem isGrouped_spell_pieces (h : c.WellFormed) : isGrouped (Piece.spell c.pieces) = c.isEnclosed := by
  have hread := readable_content h
  rw [pieces]
  cases he : c.isEnclosed with
  | true => exact Piece.isGrouped_spell_group hread
  | false =>
    obtain ⟨w, ps, hps⟩ := exists_content_eq_word he
    rw [wrap, if_neg (by decide)]
    rw [hps] at hread ⊢
    exact Piece.isGrouped_spell_word hread

/-! ### Turning -/

theorem isAtomic_turned (c : Clause) : c.turned.isAtomic = c.isAtomic := by
  cases c with
  | binary op l r => rw [turned]; split <;> rfl
  | _ => rfl

theorem isBinary_turned (c : Clause) : c.turned.isBinary = c.isBinary := by
  cases c with
  | binary op l r => rw [turned]; split <;> rfl
  | _ => rfl

theorem wellFormed_turned (h : c.WellFormed) : c.turned.WellFormed := by
  induction c with
  | member name => exact h
  | constant v => exact h
  | not c ih => exact ih h
  | binary op l r ihl ihr =>
    rw [turned]
    split
    · exact ⟨ihr h.2, ihl h.1⟩
    · exact ⟨ihl h.1, ihr h.2⟩

/-! ### Filters of clauses -/

theorem reduce_body (c : Clause) (param : String) : (c.body param).reduce = .ok (c.body param) := by
  induction c with
  | member name => exact Expr.reduce_field param name
  | constant v => exact Expr.reduce_of_fold rfl rfl
  | not c ih => exact Expr.reduce_not ih
  | binary op l r ihl ihr => exact Expr.reduce_binary op ihl ihr

theorem column?_body (scope : RowScope) (c : Clause) :
    (scope.column? (c.body scope.parameter)).isSome = c.isMember := by
  cases c with
  | member name => rw [body, column?_field]; rfl
  | _ => rfl

theorem isBinary_body (c : Clause) (param : String) : Filter.isBinary (c.body param) = c.isBinary := by
  cases c <;> rfl

theorem isCompareCall_body (c : Clause) (param : String) : isCompareCall (c.body param) = false := by
  cases c <;> rfl

/-- The text that a clause is written as when its members stand where they are. -/
def text (c : Clause) : String := String.ofList (Piece.spell c.pieces)

theorem text_ne_empty (h : c.WellFormed) : c.text ≠ "" := by
  have htokens := Piece.tokens_spell (readable_pieces h)
  intro hempty
  have hspell : Piece.spell c.pieces = [] := by
    rw [← String.toList_ofList (l := Piece.spell c.pieces), ← text, hempty]
    rfl
  rw [hspell] at htokens
  cases hp : c.pieces with
  | nil => exact c.pieces_ne_nil hp
  | cons p ps =>
    rw [hp] at htokens
    cases p <;> (rw [Piece.flatten] at htokens; cases htokens)

theorem ofList_spell_content (op : BinaryOp) (l r : Clause) :
    String.ofList (Piece.spell (binary op l r).content) = joined op l.text r.text := by
  rw [content_binary, Piece.spell_joined op l.pieces_ne_nil r.pieces_ne_nil, ofList_joinedChars, text,
    text]

theorem text_of_isEnclosed (h : c.isEnclosed) :
    c.text = grouped (String.ofList (Piece.spell c.content)) := by
  rw [text, pieces, h, wrap, if_pos rfl, Piece.spell_group, ofList_group]

theorem text_of_isEnclosed_eq_false (h : c.isEnclosed = false) :
    c.text = String.ofList (Piece.spell c.content) := by
  rw [text, pieces_of_isEnclosed_eq_false h]

theorem text_of_content_eq {w : String} (h : c.isEnclosed = false)
    (hw : c.content = [.word w.toList]) : c.text = w := by
  rw [text_of_isEnclosed_eq_false h, hw]
  simp [Piece.spell, Piece.spaced]

theorem negate_text (h : c.WellFormed) : negate c.isAtomic c.text = (not c).text := by
  have hgrouped : isGrouped c.text.toList = c.isEnclosed := by
    rw [text, String.toList_ofList, isGrouped_spell_pieces h]
  have hspell : (not c).text =
      "not " ++ String.ofList (Piece.spell (wrap (!c.isAtomic) c.content)) := by
    rw [text_of_isEnclosed_eq_false rfl, content, Piece.spell_cons _ (wrap_ne_nil c.content_ne_nil),
      ofList_not]
  rw [negate, if_neg (text_ne_empty h), hgrouped, hspell]
  cases ha : c.isAtomic with
  | true =>
    have he : c.isEnclosed = false := by cases c <;> first | rfl | cases ha
    rw [text_of_isEnclosed_eq_false he]
    rfl
  | false =>
    have hwrapped : String.ofList (Piece.spell (wrap (!false) c.content)) =
        grouped (String.ofList (Piece.spell c.content)) := by
      rw [← ofList_group, ← Piece.spell_group]
      rfl
    rw [hwrapped]
    cases he : c.isEnclosed with
    | true => rw [text_of_isEnclosed he]; rfl
    | false => rw [text_of_isEnclosed_eq_false he]; rfl

theorem connect_text {op : BinaryOp} (hop : op.isConnective) (hl : l.WellFormed) (hr : r.WellFormed) :
    connect op l.text r.text = (binary op l r).text := by
  have henclosed : (binary op l r).isEnclosed := by
    simp [isEnclosed, isBinary, isPlain, BinaryOp.isComparison, hop]
  rw [text_of_isEnclosed henclosed, ofList_spell_content]
  simp [connect, text_ne_empty hl, text_ne_empty hr]

theorem compareFragments_text {op : BinaryOp} (hop : op.isComparison) (hl : l.WellFormed)
    (hr : r.WellFormed) :
    compareFragments op (l.isBinary || r.isBinary) l.text r.text = .ok (binary op l r).text := by
  have hplain : (binary op l r).isEnclosed = (l.isBinary || r.isBinary) := by
    simp [isEnclosed, isPlain, isBinary, hop, Bool.not_and]
  rw [compareFragments, if_neg (by simp [text_ne_empty hl, text_ne_empty hr]), ← hplain]
  cases he : (binary op l r).isEnclosed with
  | true => rw [text_of_isEnclosed he, ofList_spell_content]; rfl
  | false => rw [text_of_isEnclosed_eq_false he, ofList_spell_content]; rfl

theorem fragment_body (h : c.WellFormed) (param : String) :
    fragment ⟨param, .empty⟩ (c.body param) = .ok c.turned.text := by
  let scope : RowScope := ⟨param, .empty⟩
  induction c with
  | member name =>
    have htext : (member name).text = name := text_of_content_eq rfl rfl
    rw [turned, htext, body]
    exact fragment_field name
  | constant v =>
    have htext : (constant v).text = literalText v := text_of_content_eq rfl rfl
    rw [turned, htext]
    exact (render_of_isLiteral h).1
  | not c ih =>
    have hcall : ∀ receiver args, c.body param ≠ .call .contains receiver args := by
      cases c <;> nofun
    have hconstant : isConstant (c.body param) = (c.isAtomic && !c.isMember) := by cases c <;> rfl
    have hatomic : ((scope.column? (c.body param)).isSome || isConstant (c.body param)) =
        c.turned.isAtomic := by
      rw [column?_body scope c, hconstant, isAtomic_turned]
      cases c <;> rfl
    have hnegate : negate c.turned.isAtomic c.turned.text = c.turned.not.text :=
      negate_text (wellFormed_turned h)
    rw [body, fragment_not hcall, ih h, ok_bind, hatomic, hnegate, turned]
  | binary op l r ihl ihr =>
    have hl := wellFormed_turned h.1
    have hr := wellFormed_turned h.2
    rw [body, turned]
    cases hop : op.isComparison with
    | false =>
      have hconnective : op.isConnective := by simpa [BinaryOp.isComparison] using hop
      rw [fragment_connective hconnective, ihl h.1, ihr h.2, ok_bind, ok_bind,
        connect_text hconnective hl hr]
      rfl
    | true =>
      rw [fragment_comparison hop, compareExprs, isCompareCall_body, isCompareCall_body, compareSides,
        ihl h.1, ihr h.2, isBinary_body, isBinary_body]
      have hsome : (scope.column? (r.body param)).isSome = r.isMember := column?_body scope r
      have hnone : (scope.column? (l.body param)).isNone = !l.isMember := by
        rw [← column?_body scope l, Option.not_isSome]
      rw [hsome, hnone, Bool.true_and]
      cases !l.isMember && r.isMember with
      | true =>
        have hmirrored := compareFragments_text (BinaryOp.isComparison_mirrored hop) hr hl
        rw [isBinary_turned, isBinary_turned, Bool.or_comm] at hmirrored
        exact hmirrored
      | false =>
        have hkept := compareFragments_text hop hl hr
        rw [isBinary_turned, isBinary_turned] at hkept
        exact hkept

/-- The filter of a clause is the text of the clause turned. -/
theorem toFilter_eq (h : c.WellFormed) (param : String) :
    (c.lambda param).toFilter .empty = .ok c.turned.text := by
  rw [Lambda.toFilter, lambda, reduce_body, ok_bind]
  exact fragment_body h param

/-! ### Values of clauses -/

/-- A connective whose operands keep their values keeps its own, since it evaluates no others. -/
theorem evaluate_connective {env : Bindings} {op : BinaryOp} {l l' r r' : Expr} {v : Value}
    (hop : op.isConnective) (hl : ∀ w, l.evaluate env = .ok w → l'.evaluate env = .ok w)
    (hr : ∀ w, r.evaluate env = .ok w → r'.evaluate env = .ok w)
    (h : (Expr.binary op l r).evaluate env = .ok v) : (Expr.binary op l' r').evaluate env = .ok v := by
  cases op with
  | and =>
    rw [Expr.evaluate] at h ⊢
    obtain ⟨a, ha, hcond⟩ := bind_eq_ok_iff.1 h
    obtain ⟨s, hs, hrest⟩ := bind_eq_ok_iff.1 hcond
    rw [hl a ha, ok_bind, hs, ok_bind]
    cases s with
    | false => exact hrest
    | true =>
      obtain ⟨b, hb, hright⟩ := bind_eq_ok_iff.1 hrest
      rw [if_pos rfl, hr b hb]
      exact hright
  | or =>
    rw [Expr.evaluate] at h ⊢
    obtain ⟨a, ha, hcond⟩ := bind_eq_ok_iff.1 h
    obtain ⟨s, hs, hrest⟩ := bind_eq_ok_iff.1 hcond
    rw [hl a ha, ok_bind, hs, ok_bind]
    cases s with
    | true => exact hrest
    | false =>
      obtain ⟨b, hb, hright⟩ := bind_eq_ok_iff.1 hrest
      rw [if_neg (by decide), hr b hb]
      exact hright
  | _ => exact absurd hop (by decide)

/-- Turning a clause does not change the values that it has. -/
theorem evaluate_turned {env : Bindings} {v : Value} (h : (c.body param).evaluate env = .ok v) :
    (c.turned.body param).evaluate env = .ok v := by
  induction c generalizing v with
  | member name => exact h
  | constant w => exact h
  | not c ih =>
    rw [body, Expr.evaluate] at h
    obtain ⟨a, ha, hnegate⟩ := bind_eq_ok_iff.1 h
    rw [turned, body, Expr.evaluate, ih ha]
    exact hnegate
  | binary op l r ihl ihr =>
    rw [body] at h
    rw [turned]
    cases hop : op.isComparison with
    | false =>
      have hconnective : op.isConnective := by simpa [BinaryOp.isComparison] using hop
      rw [Bool.false_and, Bool.false_and, if_neg (by decide), body]
      exact evaluate_connective hconnective (fun w => ihl) (fun w => ihr) h
    | true =>
      rw [Expr.evaluate_comparison hop] at h
      obtain ⟨a, ha, hrest⟩ := bind_eq_ok_iff.1 h
      obtain ⟨b, hb, hrelate⟩ := bind_eq_ok_iff.1 hrest
      split
      · obtain ⟨t, rfl⟩ := Value.exists_bool_of_relate hrelate
        rw [body, Expr.evaluate_comparison (BinaryOp.isComparison_mirrored hop), ihl ha, ihr hb]
        exact Value.relate_mirrored hop hrelate
      · rw [body, Expr.evaluate_comparison hop, ihl ha, ihr hb]
        exact hrelate

end Clause

end TableClient
