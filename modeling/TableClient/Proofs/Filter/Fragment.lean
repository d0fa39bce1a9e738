import TableClient.Proofs.Filter.Formula
import TableClient.Proofs.Filter.Phrase

/-! Fragments: what the translator writes for a part of a predicate. A fragment is the text of a phrase,
or empty where searches in empty lists have left no constraint. All phrases that the translator writes
bind as much as any operator around them needs, so that each may stand in the place of an operand as
it is. -/

namespace TableClient.Filter

def literalText (v : Value) : String :=
  match Literal.render v with
  | .ok text => text
  | .error _ => ""

theorem render_of_isLiteral {v : Value} (h : v.IsLiteral) :
    Literal.render v = .ok (literalText v) ∧ Literal.Spells (literalText v) v := by
  obtain ⟨text, hrender, hspells⟩ := Literal.exists_literal h
  have htext : literalText v = text := by rw [literalText, hrender]
  rw [htext]
  exact ⟨hrender, hspells⟩

/-- The text of a phrase, or of no constraint. -/
def fragmentText : Option Phrase → String
  | none => ""
  | some p => String.ofList p.text

namespace Phrase

/-- A phrase that may stand as an operand of any operator. -/
def IsOperand (p : Phrase) : Prop := p.WellFormed ∧ p.rank = 0

/-- Both constraints, where no constraint leaves the other. -/
def both : Option Phrase → Option Phrase → Option Phrase
  | some l, some r => some (group (and l r))
  | some l, none => some l
  | none, r => r

/-- One of the constraints, where no constraint leaves none. -/
def either : Option Phrase → Option Phrase → Option Phrase
  | some l, some r => some (group (or l r))
  | _, _ => none

/-- The negated phrase, in parentheses unless it is atomic or has them already. -/
def negated (atomic : Bool) (p : Phrase) : Phrase :=
  if atomic || isGrouped p.text then not p else not (group p)

/-- Phrases joined from the left to the right, the last one innermost. -/
def chain (join : Phrase → Phrase → Phrase) (p : Phrase) : List Phrase → Phrase
  | [] => p
  | q :: qs => join p (chain join q qs)

def testOf (name : String) (op : BinaryOp) (v : Value) : Phrase :=
  test name op (literalText v) v

/-- The search for a column in a list, or under a negation the search in none of it. -/
def search (name : String) (negated : Bool) : List Value → Option Phrase
  | [] => none
  | v :: vs =>
    if negated then some (group (chain and (testOf name .ne v) (vs.map (testOf name .ne))))
    else some (group (chain or (testOf name .eq v) (vs.map (testOf name .eq))))

/-! ### Operands -/

theorem isOperand_testOf {name : String} {op : BinaryOp} {v : Value} (hname : IsColumn name)
    (hop : op.isComparison) (hv : v.IsLiteral) : (testOf name op v).IsOperand :=
  ⟨⟨hname, hop, (render_of_isLiteral hv).2⟩, rfl⟩

theorem isOperand_negated {atomic : Bool} {p : Phrase} (h : p.IsOperand) :
    (negated atomic p).IsOperand := by
  unfold negated
  split
  · exact ⟨⟨h.2, h.1⟩, rfl⟩
  · exact ⟨⟨rfl, h.1⟩, rfl⟩

theorem isOperand_both {l r : Option Phrase} (hl : ∀ p ∈ l, p.IsOperand)
    (hr : ∀ p ∈ r, p.IsOperand) : ∀ p ∈ both l r, p.IsOperand := by
  cases l with
  | none => exact hr
  | some l =>
    cases r with
    | none => exact hl
    | some r =>
      obtain ⟨hwl, hl0⟩ := hl l rfl
      obtain ⟨hwr, hr0⟩ := hr r rfl
      rintro p ⟨⟩
      exact ⟨⟨hl0, by omega, hwl, hwr⟩, rfl⟩

theorem isOperand_either {l r : Option Phrase} (hl : ∀ p ∈ l, p.IsOperand)
    (hr : ∀ p ∈ r, p.IsOperand) : ∀ p ∈ either l r, p.IsOperand := by
  cases l with
  | none => nofun
  | some l =>
    cases r with
    | none => nofun
    | some r =>
      obtain ⟨hwl, hl0⟩ := hl l rfl
      obtain ⟨hwr, -⟩ := hr r rfl
      rintro p ⟨⟩
      exact ⟨⟨by omega, hwl, hwr⟩, rfl⟩

theorem wellFormed_chain_and {p : Phrase} {ps : List Phrase} (hp : p.IsOperand)
    (hps : ∀ q ∈ ps, q.IsOperand) : (chain and p ps).WellFormed ∧ (chain and p ps).rank ≤ 1 := by
  induction ps generalizing p with
  | nil => exact ⟨hp.1, by have := hp.2; simp only [chain]; omega⟩
  | cons q qs ih =>
    rw [List.forall_mem_cons] at hps
    obtain ⟨hwf, hrank⟩ := ih hps.1 hps.2
    exact ⟨⟨hp.2, hrank, hp.1, hwf⟩, Nat.le_refl 1⟩

theorem wellFormed_chain_or {p : Phrase} {ps : List Phrase} (hp : p.IsOperand)
    (hps : ∀ q ∈ ps, q.IsOperand) : (chain or p ps).WellFormed := by
  induction ps generalizing p with
  | nil => exact hp.1
  | cons q qs ih =>
    rw [List.forall_mem_cons] at hps
    exact ⟨by have := hp.2; omega, hp.1, ih hps.1 hps.2⟩

theorem isOperand_search {name : String} (hname : IsColumn name) (negated : Bool)
    {items : List Value} (hitems : ∀ v ∈ items, v.IsLiteral) :
    ∀ p ∈ search name negated items, p.IsOperand := by
  cases items with
  | nil => nofun
  | cons v vs =>
    have htest (op : BinaryOp) (hop : op.isComparison) :
        ∀ w ∈ v :: vs, (testOf name op w).IsOperand :=
      fun w hw => isOperand_testOf hname hop (hitems w hw)
    have hrest (op : BinaryOp) (hop : op.isComparison) :
        ∀ q ∈ vs.map (testOf name op), q.IsOperand := by
      intro q hq
      obtain ⟨w, hw, rfl⟩ := List.mem_map.1 hq
      exact htest op hop w (List.mem_cons_of_mem _ hw)
    cases negated with
    | true =>
      rintro p ⟨⟩
      exact ⟨(wellFormed_chain_and (htest .ne rfl v List.mem_cons_self) (hrest .ne rfl)).1, rfl⟩
    | false =>
      rintro p ⟨⟩
      exact ⟨wellFormed_chain_or (htest .eq rfl v List.mem_cons_self) (hrest .eq rfl), rfl⟩

end Phrase

/-! ### Texts of fragments -/

theorem ofList_joinedChars (op : BinaryOp) (l r : List Char) :
    String.ofList (joinedChars op l r) = joined op (String.ofList l) (String.ofList r) := by
  refine String.toList_inj.1 ?_
  simp [joined, joinedChars]

theorem ofList_group (cs : List Char) : String.ofList (group cs) = grouped (String.ofList cs) := by
  refine String.toList_inj.1 ?_
  simp [grouped, group]

theorem ofList_not (cs : List Char) :
    String.ofList ("not".toList ++ ' ' :: cs) = "not " ++ String.ofList cs := by
  refine String.toList_inj.1 ?_
  simp

theorem ofList_ne_empty {cs : List Char} (h : cs ≠ []) : String.ofList cs ≠ "" := by
  intro hempty
  exact h (by rw [← String.toList_ofList (l := cs), hempty]; rfl)

theorem fragmentText_eq_empty_iff {c : Option Phrase} (h : ∀ p ∈ c, p.IsOperand) :
    fragmentText c = "" ↔ c = none := by
  cases c with
  | none => simp [fragmentText]
  | some p => simp [fragmentText, ofList_ne_empty (Phrase.text_ne_nil (h p rfl).1)]

theorem connect_and {l r : Option Phrase} (hl : ∀ p ∈ l, p.IsOperand)
    (hr : ∀ p ∈ r, p.IsOperand) :
    connect .and (fragmentText l) (fragmentText r) = fragmentText (Phrase.both l r) := by
  simp only [connect, fragmentText_eq_empty_iff hl, fragmentText_eq_empty_iff hr]
  cases l with
  | none => cases r <;> simp [Phrase.both, fragmentText]
  | some l =>
    cases r with
    | none => simp [Phrase.both]
    | some r => simp [Phrase.both, fragmentText, Phrase.text, ofList_group, ofList_joinedChars]

theorem connect_or {l r : Option Phrase} (hl : ∀ p ∈ l, p.IsOperand)
    (hr : ∀ p ∈ r, p.IsOperand) :
    connect .or (fragmentText l) (fragmentText r) = fragmentText (Phrase.either l r) := by
  simp only [connect, fragmentText_eq_empty_iff hl, fragmentText_eq_empty_iff hr]
  cases l with
  | none => cases r <;> simp [Phrase.either, fragmentText]
  | some l =>
    cases r with
    | none => simp [Phrase.either, fragmentText]
    | some r => simp [Phrase.either, fragmentText, Phrase.text, ofList_group, ofList_joinedChars]

theorem negate_fragmentText {c : Option Phrase} (h : ∀ p ∈ c, p.IsOperand) (atomic : Bool) :
    negate atomic (fragmentText c) = fragmentText (c.map (Phrase.negated atomic)) := by
  cases c with
  | none => simp [negate, fragmentText]
  | some p =>
    have hne := ofList_ne_empty (Phrase.text_ne_nil (h p rfl).1)
    simp only [negate, fragmentText, Option.map_some, if_neg hne, String.toList_ofList,
      Phrase.negated]
    split
    · rw [Phrase.text, ofList_not]
    · rw [Phrase.text, ofList_not, Phrase.text, ofList_group]

theorem mapM_tests {name : String} {op : BinaryOp} {items : List Value}
    (h : ∀ v ∈ items, v.IsLiteral) :
    items.mapM (fun v => do .ok (joined op name (← Literal.render v))) =
      (.ok (items.map fun v => joined op name (literalText v)) : Except QueryError _) := by
  induction items with
  | nil => rfl
  | cons v vs ih =>
    rw [List.forall_mem_cons] at h
    rw [List.mapM_cons, (render_of_isLiteral h.1).1, ih h.2]
    rfl

theorem ofList_testOf (name : String) (op : BinaryOp) (v : Value) :
    String.ofList (Phrase.testOf name op v).text = joined op name (literalText v) := by
  simp [Phrase.testOf, Phrase.text, ofList_joinedChars]

theorem intercalate_cons (op : BinaryOp) (t : String) {ts : List String} (h : ts ≠ []) :
    (" " ++ op.keyword ++ " ").intercalate (t :: ts) =
      joined op t ((" " ++ op.keyword ++ " ").intercalate ts) := by
  obtain ⟨u, us, rfl⟩ := List.exists_cons_of_ne_nil h
  rw [String.intercalate_cons_cons]
  simp [joined, String.append_assoc]

/-- Tests joined by a keyword are the text of their chain. -/
theorem intercalate_tests (op : BinaryOp) (join : Phrase → Phrase → Phrase)
    (hjoin : ∀ l r, (join l r).text = joinedChars op l.text r.text) (name : String)
    (rel : BinaryOp) (v : Value) (vs : List Value) :
    (" " ++ op.keyword ++ " ").intercalate
        ((v :: vs).map fun v => joined rel name (literalText v)) =
      String.ofList (Phrase.chain join (.testOf name rel v) (vs.map (.testOf name rel))).text := by
  induction vs generalizing v with
  | nil => simp [Phrase.chain, ofList_testOf]
  | cons w ws ih =>
    rw [List.map_cons, intercalate_cons op _ (by simp), ih w, List.map_cons, Phrase.chain, hjoin,
      ofList_joinedChars, ofList_testOf]

theorem membership_eq {name : String} (negated : Bool) {items : List Value}
    (h : ∀ v ∈ items, v.IsLiteral) :
    membership name negated items = .ok (fragmentText (Phrase.search name negated items)) := by
  cases items with
  | nil => rfl
  | cons v vs =>
    have hand := intercalate_tests .and .and (fun _ _ => rfl) name .ne v vs
    have hor := intercalate_tests .or .or (fun _ _ => rfl) name .eq v vs
    simp only [membership, List.isEmpty_cons, Bool.false_eq_true, if_false, mapM_tests h, ok_bind]
    cases negated with
    | true =>
      have htext : fragmentText (Phrase.search name true (v :: vs)) = grouped (String.ofList
          (Phrase.chain .and (.testOf name .ne v) (vs.map (.testOf name .ne))).text) :=
        ofList_group _
      rw [htext, ← hand]
      rfl
    | false =>
      have htext : fragmentText (Phrase.search name false (v :: vs)) = grouped (String.ofList
          (Phrase.chain .or (.testOf name .eq v) (vs.map (.testOf name .eq))).text) :=
        ofList_group _
      rw [htext, ← hor]
      rfl

end TableClient.Filter
