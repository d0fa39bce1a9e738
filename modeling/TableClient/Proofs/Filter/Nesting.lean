import Mathlib.Data.List.Basic
import TableClient.Proofs.Filter.Clause

/-! What the filter of a clause says of its nesting. Parentheses enclose every connective, and every
comparison with an operand that has an operator of its own. A comparison of plain operands stands without
them, so that in a comparison of three parts the text does not say which two are compared first. All else
can be read off it. -/

namespace TableClient

open TableClient.Filter

namespace Filter.Piece

def operator? : Piece → Option BinaryOp
  | .word w => BinaryOp.ofKeyword? (String.ofList w)
  | .group _ => none

/-- The operators among pieces, those within parentheses left aside. -/
def operators (ps : List Piece) : List BinaryOp := ps.filterMap operator?

theorem operator?_keyword (op : BinaryOp) : operator? (.word op.keyword.toList) = some op := by
  cases op <;> rfl

theorem operators_append (ps qs : List Piece) : operators (ps ++ qs) = operators ps ++ operators qs :=
  List.filterMap_append

theorem operators_keyword_cons (op : BinaryOp) (ps : List Piece) :
    operators (.word op.keyword.toList :: ps) = op :: operators ps :=
  List.filterMap_cons_some (operator?_keyword op)

/-- Two splits of one text at operators are the same if as many operators stand before them. -/
theorem append_operator_inj {ps ps' qs qs' : List Piece} {op op' : BinaryOp}
    (hlength : (operators ps).length = (operators ps').length)
    (h : ps ++ .word op.keyword.toList :: qs = ps' ++ .word op'.keyword.toList :: qs') :
    ps = ps' ∧ op = op' ∧ qs = qs' := by
  induction ps generalizing ps' with
  | nil =>
    cases ps' with
    | nil =>
      obtain ⟨hword, hrest⟩ := List.cons.inj h
      have hop := congrArg operator? hword
      rw [operator?_keyword, operator?_keyword] at hop
      exact ⟨rfl, Option.some_inj.1 hop, hrest⟩
    | cons p ps' =>
      obtain ⟨rfl, -⟩ := List.cons.inj h
      rw [operators_keyword_cons] at hlength
      cases hlength
  | cons p ps ih =>
    cases ps' with
    | nil =>
      obtain ⟨rfl, -⟩ := List.cons.inj h
      rw [operators_keyword_cons] at hlength
      cases hlength
    | cons p' ps' =>
      obtain ⟨rfl, hrest⟩ := List.cons.inj h
      have hcons (ts : List Piece) :
          (operators (p :: ts)).length = (operators [p]).length + (operators ts).length := by
        rw [← List.length_append, ← operators_append, List.singleton_append]
      rw [hcons ps, hcons ps'] at hlength
      obtain ⟨rfl, hop, hqs⟩ := ih (by omega) hrest
      exact ⟨rfl, hop, hqs⟩

end Filter.Piece

namespace Clause

open Filter.Piece (operators operator? operators_append operators_keyword_cons append_operator_inj)

variable {c d l r l' r' p q : Clause} {op op' o o' : BinaryOp} {param : String}

/-! ### Operators outside parentheses -/

/-- The operator that stands without parentheses, if the clause has one. -/
def exposed : Clause → List BinaryOp
  | binary op l r => if (binary op l r).isPlain then [op] else []
  | _ => []

theorem exposed_of_isBinary_eq_false (h : c.isBinary = false) : c.exposed = [] := by
  cases c with
  | binary => cases h
  | _ => rfl

theorem length_exposed (c : Clause) : c.exposed.length = c.isPlain.toNat := by
  cases c with
  | binary op l r =>
    rw [exposed]
    cases (binary op l r).isPlain <;> rfl
  | _ => rfl

theorem isComparison_of_mem_exposed (h : op ∈ c.exposed) : op.isComparison := by
  cases c with
  | binary o l r =>
    rw [exposed] at h
    split at h
    next hplain =>
      simp only [isPlain, Bool.and_eq_true] at hplain
      rw [List.mem_singleton.1 h]
      exact hplain.1.1
    next => cases h
  | _ => cases h

theorem operators_word {w : List Char} (h : IsWord w) (ps : List Piece) :
    operators (.word w :: ps) = operators ps := by
  have hnone : operator? (.word w) = none := by
    refine List.find?_eq_none.2 ?_
    intro op _ heq
    have hkeyword : isKeyword op.keyword.toList := by cases op <;> decide
    have hw : op.keyword = String.ofList w := by simpa using heq
    exact h.ne_of_isKeyword hkeyword (by rw [hw, String.toList_ofList])
  exact List.filterMap_cons_none hnone

theorem operators_group (ps qs : List Piece) : operators (.group ps :: qs) = operators qs :=
  List.filterMap_cons_none rfl

theorem operators_not (ps : List Piece) : operators (.word "not".toList :: ps) = operators ps :=
  List.filterMap_cons_none rfl

theorem operators_content (h : c.WellFormed) (hb : c.isBinary = false) : operators c.content = [] := by
  cases c with
  | member name => exact operators_word h.1.isWord []
  | constant v => exact operators_word (render_of_isLiteral h).2.isWord []
  | not c =>
    rw [content, operators_not]
    cases c with
    | member name => exact operators_word h.1.isWord []
    | constant v => exact operators_word (render_of_isLiteral h).2.isWord []
    | not | binary => exact operators_group _ []
  | binary => cases hb

theorem operators_content_binary (op : BinaryOp) (l r : Clause) :
    operators (binary op l r).content = operators l.pieces ++ op :: operators r.pieces := by
  rw [content_binary, operators_append, operators_keyword_cons]

theorem isBinary_of_isPlain_operands (h : (binary op l r).isPlain) :
    l.isBinary = false ∧ r.isBinary = false := by
  simp only [isPlain, Bool.and_eq_true, Bool.not_eq_true'] at h
  exact ⟨h.1.2, h.2⟩

theorem operators_pieces_of_isBinary_eq_false (h : c.WellFormed) (hb : c.isBinary = false) :
    operators c.pieces = [] := by
  rw [pieces_of_isEnclosed_eq_false (isEnclosed_of_isBinary_eq_false hb), operators_content h hb]

/-- The operators of a text outside parentheses are that of a plain comparison. -/
theorem operators_pieces (h : c.WellFormed) : operators c.pieces = c.exposed := by
  cases hb : c.isBinary with
  | false => rw [operators_pieces_of_isBinary_eq_false h hb, exposed_of_isBinary_eq_false hb]
  | true =>
    cases c with
    | binary op l r =>
      rw [exposed]
      cases hp : (binary op l r).isPlain with
      | true =>
        obtain ⟨hl, hr⟩ := isBinary_of_isPlain_operands hp
        have he : (binary op l r).isEnclosed = false := by rw [isEnclosed, hp, Bool.not_true, Bool.and_false]
        rw [pieces_of_isEnclosed_eq_false he, operators_content_binary,
          operators_pieces_of_isBinary_eq_false h.1 hl, operators_pieces_of_isBinary_eq_false h.2 hr]
        rfl
      | false =>
        have he : (binary op l r).isEnclosed := by rw [isEnclosed, hp]; rfl
        rw [pieces, he]
        exact operators_group _ []
    | _ => cases hb

/-! ### What the pieces of a clause say of it -/

section Determined

variable (hc : c.WellFormed) (hd : d.WellFormed)

include hc hd

theorem isEnclosed_eq_of_pieces_eq (h : c.pieces = d.pieces) : c.isEnclosed = d.isEnclosed := by
  rw [← isGrouped_spell_pieces hc, h, isGrouped_spell_pieces hd]

theorem isPlain_eq_of_pieces_eq (h : c.pieces = d.pieces) : c.isPlain = d.isPlain := by
  have hlength : c.isPlain.toNat = d.isPlain.toNat := by
    rw [← length_exposed, ← length_exposed, ← operators_pieces hc, ← operators_pieces hd, h]
  rw [Bool.eq_iff_iff, ← Bool.toNat_eq_one, ← Bool.toNat_eq_one, hlength]

theorem isBinary_eq_of_pieces_eq (h : c.pieces = d.pieces) : c.isBinary = d.isBinary := by
  have hbinary (c : Clause) : c.isBinary = (c.isEnclosed || c.isPlain) := by
    cases hp : c.isPlain with
    | true => rw [isBinary_of_isPlain hp, Bool.or_true]
    | false => rw [isEnclosed, hp, Bool.or_false, Bool.not_false, Bool.and_true]
  rw [hbinary c, hbinary d, isEnclosed_eq_of_pieces_eq hc hd h, isPlain_eq_of_pieces_eq hc hd h]

theorem content_eq_of_pieces_eq (h : c.pieces = d.pieces) : c.content = d.content := by
  have he := isEnclosed_eq_of_pieces_eq hc hd h
  rw [pieces, pieces, he] at h
  cases hd : d.isEnclosed with
  | false => rwa [hd] at h
  | true =>
    rw [hd] at h
    exact Piece.group.inj (List.cons.inj h).1

theorem isBinary_eq_of_content_eq (h : c.content = d.content) : c.isBinary = d.isBinary := by
  have hne (op : BinaryOp) (l r : Clause) : operators (binary op l r).content ≠ [] := by
    rw [operators_content_binary]
    exact List.append_ne_nil_of_right_ne_nil _ (List.cons_ne_nil _ _)
  cases hbc : c.isBinary <;> cases hbd : d.isBinary
  · rfl
  · cases d with
    | binary op l r => exact absurd (h ▸ operators_content hc hbc) (hne op l r)
    | _ => cases hbd
  · cases c with
    | binary op l r => exact absurd (h ▸ operators_content hd hbd) (hne op l r)
    | _ => cases hbc
  · rfl

end Determined

theorem isAtomic_eq_of_content_eq (h : c.content = d.content) : c.isAtomic = d.isAtomic := by
  have hlength (c : Clause) : c.isAtomic = decide (c.content.length = 1) := by
    cases c with
    | member | constant => rfl
    | not c =>
      have hpos := List.length_pos_iff.2 (@wrap_ne_nil (!c.isAtomic) _ c.content_ne_nil)
      rw [content, List.length_cons, decide_eq_false (by omega)]
      rfl
    | binary op l r =>
      have hpos := List.length_pos_iff.2 l.pieces_ne_nil
      rw [content_binary, List.length_append, List.length_cons, decide_eq_false (by omega)]
      rfl
  rw [hlength c, hlength d, h]

/-! ### Comparisons of three parts -/

/-- The side on which a comparison of three parts compares first: one operand is a plain comparison, and
the other is not binary. -/
def nesting (op : BinaryOp) (l r : Clause) : List Side :=
  if op.isComparison then
    if l.isPlain && !r.isBinary then [.left]
    else if r.isPlain && !l.isBinary then [.right]
    else []
  else []

/-- The sides of all comparisons of three parts, of each before those in its operands. -/
def sides : Clause → List Side
  | member _ | constant _ => []
  | not c => c.sides
  | binary op l r => nesting op l r ++ (l.sides ++ r.sides)

theorem nesting_eq_nil (hl : l.isBinary = false) (hr : r.isBinary = false) : nesting op l r = [] := by
  simp [nesting, isPlain_of_isBinary_eq_false hl, isPlain_of_isBinary_eq_false hr]

theorem nesting_eq_left (hop : op.isComparison) (hl : l.isPlain) (hr : r.isBinary = false) :
    nesting op l r = [.left] := by
  simp [nesting, hop, hl, hr]

theorem nesting_eq_right (hop : op.isComparison) (hl : l.isBinary = false) (hr : r.isPlain) :
    nesting op l r = [.right] := by
  simp [nesting, hop, hl, hr, isPlain_of_isBinary_eq_false hl]

/-- As many comparisons of three parts, and no other clause with the same nesting of them. -/
def Agrees (c d : Clause) : Prop :=
  c.sides.length = d.sides.length ∧ (c.sides = d.sides → c = d)

theorem Agrees.symm (h : c.Agrees d) : d.Agrees c :=
  ⟨h.1.symm, fun hsides => (h.2 hsides.symm).symm⟩

theorem agrees_not (h : c.Agrees d) : (not c).Agrees (not d) :=
  ⟨h.1, fun hsides => congrArg not (h.2 hsides)⟩

theorem agrees_binary (hn : nesting op l r = nesting op l' r') (hl : l.Agrees l') (hr : r.Agrees r') :
    (binary op l r).Agrees (binary op l' r') := by
  constructor
  · rw [sides, sides, List.length_append, List.length_append, List.length_append, List.length_append,
      hn, hl.1, hr.1]
  · intro hsides
    rw [sides, sides, hn] at hsides
    obtain ⟨hleft, hright⟩ := List.append_inj (List.append_cancel_left hsides) hl.1
    rw [hl.2 hleft, hr.2 hright]

/-- One text, split at its operators into three parts, the first two or the last two compared first. -/
structure Straddles (op : BinaryOp) (l r : Clause) (op' : BinaryOp) (l' r' : Clause) : Prop where
  isComparison : op.isComparison ∧ op'.isComparison
  isPlain : l.isPlain ∧ r'.isPlain
  notPlain : r.isPlain = false ∧ l'.isPlain = false

theorem operands_eq_or_straddles (hc : (binary op l r).WellFormed) (hd : (binary op' l' r').WellFormed)
    (h : (binary op l r).content = (binary op' l' r').content) :
    (l.pieces = l'.pieces ∧ op = op' ∧ r.pieces = r'.pieces) ∨
      Straddles op l r op' l' r' ∨ Straddles op' l' r' op l r := by
  have hops : l.exposed ++ op :: r.exposed = l'.exposed ++ op' :: r'.exposed := by
    rw [← operators_pieces hc.1, ← operators_pieces hc.2, ← operators_pieces hd.1,
      ← operators_pieces hd.2, ← operators_content_binary, ← operators_content_binary, h]
  have hsame (hlength : l.exposed.length = l'.exposed.length) :
      l.pieces = l'.pieces ∧ op = op' ∧ r.pieces = r'.pieces := by
    rw [← operators_pieces hc.1, ← operators_pieces hd.1] at hlength
    exact append_operator_inj hlength h
  -- no connective stands outside parentheses but at the root
  have hnot {op : BinaryOp} (c : Clause) (hop : op.isComparison = false) : op ∉ c.exposed := by
    intro hmem
    rw [isComparison_of_mem_exposed hmem] at hop
    cases hop
  cases hop : op.isComparison with
  | false =>
    have hsplit := (List.append_cons_inj_of_notMem (hnot l' hop) (hnot r' hop)).1 hops.symm
    exact .inl (hsame (by rw [hsplit.1]))
  | true =>
    cases hop' : op'.isComparison with
    | false =>
      have hsplit := (List.append_cons_inj_of_notMem (hnot l hop') (hnot r hop')).1 hops
      exact .inl (hsame (by rw [hsplit.1]))
    | true =>
      have hlength := congrArg List.length hops
      rw [List.length_append, List.length_append, List.length_cons, List.length_cons, length_exposed,
        length_exposed, length_exposed, length_exposed] at hlength
      rw [length_exposed, length_exposed] at hsame
      have hcount : l.isPlain.toNat + r.isPlain.toNat = l'.isPlain.toNat + r'.isPlain.toNat := by omega
      cases hl : l.isPlain <;> cases hl' : l'.isPlain
      · exact .inl (hsame (by rw [hl, hl']))
      · have hr : r.isPlain = true ∧ r'.isPlain = false := by
          revert hcount
          rw [hl, hl']
          cases r.isPlain <;> cases r'.isPlain <;> decide
        exact .inr (.inr ⟨⟨hop', hop⟩, ⟨hl', hr.1⟩, hr.2, hl⟩)
      · have hr : r.isPlain = false ∧ r'.isPlain = true := by
          revert hcount
          rw [hl, hl']
          cases r.isPlain <;> cases r'.isPlain <;> decide
        exact .inr (.inl ⟨⟨hop, hop'⟩, ⟨hl, hr.2⟩, hr.1, hl'⟩)
      · exact .inl (hsame (by rw [hl, hl']))

theorem exists_of_isPlain (h : c.isPlain) :
    ∃ op l r, c = binary op l r ∧ l.isBinary = false ∧ r.isBinary = false ∧ c.pieces = c.content := by
  have he : c.isEnclosed = false := by rw [isEnclosed, h, Bool.not_true, Bool.and_false]
  cases c with
  | binary op l r =>
    obtain ⟨hl, hr⟩ := isBinary_of_isPlain_operands h
    exact ⟨op, l, r, rfl, hl, hr, pieces_of_isEnclosed_eq_false he⟩
  | _ => cases h

/-- The three parts are the same in both, and none of them is binary. -/
structure SameParts (p q l' p' q' r : Clause) : Prop where
  first : p.pieces = l'.pieces
  second : q.pieces = p'.pieces
  third : r.pieces = q'.pieces
  isBinary_first : p.isBinary = false ∧ l'.isBinary = false
  isBinary_second : q.isBinary = false ∧ p'.isBinary = false
  isBinary_third : r.isBinary = false ∧ q'.isBinary = false

theorem Straddles.exists_parts (hs : Straddles op l r op' l' r') (hc : (binary op l r).WellFormed)
    (hd : (binary op' l' r').WellFormed)
    (h : (binary op l r).content = (binary op' l' r').content) :
    ∃ p q p' q', l = binary op' p q ∧ r' = binary op p' q' ∧ SameParts p q l' p' q' r := by
  obtain ⟨o, p, q, rfl, hp, hq, hpieces⟩ := exists_of_isPlain hs.isPlain.1
  obtain ⟨o', p', q', rfl, hp', hq', hpieces'⟩ := exists_of_isPlain hs.isPlain.2
  rw [content_binary, content_binary, hpieces, hpieces', content_binary, content_binary,
    List.append_assoc, List.cons_append] at h
  have hnone {c : Clause} (hw : c.WellFormed) (hplain : c.isPlain = false) :
      (operators c.pieces).length = 0 := by
    rw [operators_pieces hw, length_exposed, hplain]
    rfl
  have hplain {c : Clause} (hb : c.isBinary = false) := isPlain_of_isBinary_eq_false hb
  obtain ⟨⟨hwp, hwq⟩, hwr⟩ := hc
  obtain ⟨hwl', hwp', hwq'⟩ := hd
  obtain ⟨hfirst, rfl, hrest⟩ := append_operator_inj
    ((hnone hwp (hplain hp)).trans (hnone hwl' hs.notPlain.2).symm) h
  obtain ⟨hsecond, rfl, hthird⟩ := append_operator_inj
    ((hnone hwq (hplain hq)).trans (hnone hwp' (hplain hp')).symm) hrest
  have hl' : l'.isBinary = false := (isBinary_eq_of_pieces_eq hwp hwl' hfirst).symm.trans hp
  have hr : r.isBinary = false := (isBinary_eq_of_pieces_eq hwr hwq' hthird).trans hq'
  exact ⟨p, q, p', q', rfl, rfl, hfirst, hsecond, hthird, ⟨hp, hl'⟩, ⟨hq, hp'⟩, hr, hq'⟩

/-! ### Clauses of one text -/

theorem sides_binary_of_isBinary_eq_false (op : BinaryOp) (hl : l.isBinary = false)
    (hr : r.isBinary = false) : (binary op l r).sides = l.sides ++ r.sides := by
  rw [sides, nesting_eq_nil hl hr, List.nil_append]

/-- The three parts have as many comparisons of three parts in both, and the two that they form differ in
their sides. -/
theorem SameParts.agrees (hparts : SameParts p q l' p' q' r) (hop : op.isComparison)
    (hop' : op'.isComparison)
    (hlength : p.sides.length + q.sides.length + r.sides.length =
      l'.sides.length + p'.sides.length + q'.sides.length) :
    (binary op (binary op' p q) r).Agrees (binary op' l' (binary op p' q')) := by
  obtain ⟨-, -, -, ⟨hp, hl'⟩, ⟨hq, hp'⟩, hr, hq'⟩ := hparts
  have hplain : (binary op' p q).isPlain := by rw [isPlain, hop', hp, hq]; rfl
  have hplain' : (binary op p' q').isPlain := by rw [isPlain, hop, hp', hq']; rfl
  have hleft : (binary op (binary op' p q) r).sides = .left :: (p.sides ++ q.sides ++ r.sides) := by
    rw [sides, nesting_eq_left hop hplain hr, sides_binary_of_isBinary_eq_false op' hp hq]
    rfl
  have hright : (binary op' l' (binary op p' q')).sides =
      .right :: (l'.sides ++ (p'.sides ++ q'.sides)) := by
    rw [sides, nesting_eq_right hop' hl' hplain', sides_binary_of_isBinary_eq_false op hp' hq']
    rfl
  constructor
  · rw [hleft, hright]
    simp only [List.length_cons, List.length_append]
    omega
  · intro hsides
    rw [hleft, hright] at hsides
    cases (List.cons.inj hsides).1

theorem content_eq_of_wrap_eq (h : wrap (!c.isAtomic) c.content = wrap (!d.isAtomic) d.content) :
    c.content = d.content := by
  have hword {c : Clause} (hc : c.isAtomic) : ∃ w, c.content = [.word w] := by
    cases c with
    | member | constant => exact ⟨_, rfl⟩
    | not | binary => cases hc
  cases hc : c.isAtomic <;> cases hd : d.isAtomic <;> rw [hc, hd] at h
  · exact Piece.group.inj (List.cons.inj h).1
  · obtain ⟨w, hw⟩ := hword hd
    rw [hw] at h
    cases (List.cons.inj h).1
  · obtain ⟨w, hw⟩ := hword hc
    rw [hw] at h
    cases (List.cons.inj h).1
  · exact h

/-- The content of a clause determines it, but for the sides of its comparisons of three parts. -/
theorem agrees_of_content_eq (hc : c.WellFormed) (hd : d.WellFormed) (h : c.content = d.content) :
    c.Agrees d := by
  induction c generalizing d with
  | member name =>
    have hatomic := isAtomic_eq_of_content_eq h
    cases d with
    | member name' =>
      have hname : name = name' := String.toList_inj.1 (Piece.word.inj (List.cons.inj h).1)
      exact ⟨rfl, fun _ => by rw [hname]⟩
    | constant v =>
      have hread := (render_of_isLiteral hd).2.read?
      rw [← Piece.word.inj (List.cons.inj h).1, hc.2] at hread
      cases hread
    | not | binary => cases hatomic
  | constant v =>
    have hatomic := isAtomic_eq_of_content_eq h
    have hread := (render_of_isLiteral hc).2.read?
    cases d with
    | member name =>
      rw [Piece.word.inj (List.cons.inj h).1, hd.2] at hread
      cases hread
    | constant w =>
      rw [Piece.word.inj (List.cons.inj h).1, (render_of_isLiteral hd).2.read?] at hread
      exact ⟨rfl, fun _ => by rw [Option.some_inj.1 hread]⟩
    | not | binary => cases hatomic
  | not c ih =>
    have hatomic := isAtomic_eq_of_content_eq h
    have hbinary := isBinary_eq_of_content_eq hc hd h
    cases d with
    | member | constant => cases hatomic
    | not d =>
      exact agrees_not (ih hc hd (content_eq_of_wrap_eq (List.cons.inj h).2))
    | binary => cases hbinary
  | binary op l r ihl ihr =>
    have hbinary := isBinary_eq_of_content_eq hc hd h
    cases d with
    | member | constant | not => cases hbinary
    | binary op' l' r' =>
      rcases operands_eq_or_straddles hc hd h with ⟨hl, rfl, hr⟩ | hs | hs
      · have hn : nesting op l r = nesting op l' r' := by
          rw [nesting, nesting, isPlain_eq_of_pieces_eq hc.1 hd.1 hl, isPlain_eq_of_pieces_eq hc.2 hd.2 hr,
            isBinary_eq_of_pieces_eq hc.1 hd.1 hl, isBinary_eq_of_pieces_eq hc.2 hd.2 hr]
        exact agrees_binary hn (ihl hc.1 hd.1 (content_eq_of_pieces_eq hc.1 hd.1 hl))
          (ihr hc.2 hd.2 (content_eq_of_pieces_eq hc.2 hd.2 hr))
      · obtain ⟨p, q, p', q', rfl, rfl, hparts⟩ := hs.exists_parts hc hd h
        -- the first two parts of `d` are one comparison of two parts in `c`
        have hfirst : (binary op' p q).Agrees (binary op' l' p') := by
          refine ihl hc.1 ⟨hd.1, hd.2.1⟩ ?_
          rw [content_binary, content_binary, hparts.first, hparts.second]
        have hthird : r.Agrees q' := ihr hc.2 hd.2.2 (content_eq_of_pieces_eq hc.2 hd.2.2 hparts.third)
        have hlength := hfirst.1
        rw [sides_binary_of_isBinary_eq_false op' hparts.isBinary_first.1 hparts.isBinary_second.1,
          sides_binary_of_isBinary_eq_false op' hparts.isBinary_first.2 hparts.isBinary_second.2,
          List.length_append, List.length_append] at hlength
        have hlength' := hthird.1
        exact hparts.agrees hs.isComparison.1 hs.isComparison.2 (by omega)
      · obtain ⟨p, q, p', q', rfl, rfl, hparts⟩ := hs.exists_parts hd hc h.symm
        have hfirst : l.Agrees p :=
          ihl hc.1 hd.1.1 (content_eq_of_pieces_eq hc.1 hd.1.1 hparts.first.symm)
        have hlast : (binary op' p' q').Agrees (binary op' q r') := by
          refine ihr hc.2 ⟨hd.1.2, hd.2⟩ ?_
          rw [content_binary, content_binary, hparts.second, hparts.third]
        have hlength := hlast.1
        rw [sides_binary_of_isBinary_eq_false op' hparts.isBinary_second.2 hparts.isBinary_third.2,
          sides_binary_of_isBinary_eq_false op' hparts.isBinary_second.1 hparts.isBinary_third.1,
          List.length_append, List.length_append] at hlength
        have hlength' := hfirst.1
        exact (hparts.agrees hs.isComparison.1 hs.isComparison.2 (by omega)).symm

/-- Clauses with one filter have as many comparisons of three parts. Where these nest to the same sides,
the clauses are true of the same rows, as far as they have a value at all. -/
theorem verdict_eq_of_filter_eq (hc : c.WellFormed) (hd : d.WellFormed) (param : String) :
    ∃ s t, (c.lambda param).toFilter .empty = .ok s ∧ (d.lambda param).toFilter .empty = .ok t ∧
      (s = t → c.turned.sides.length = d.turned.sides.length ∧
        (c.turned.sides = d.turned.sides → ∀ row a b, (c.lambda param).apply row = .ok (.bool a) →
          (d.lambda param).apply row = .ok (.bool b) → a = b)) := by
  refine ⟨_, _, toFilter_eq hc param, toFilter_eq hd param, ?_⟩
  intro htext
  have hwc := wellFormed_turned hc
  have hwd := wellFormed_turned hd
  have hspell : Piece.spell c.turned.pieces = Piece.spell d.turned.pieces := by
    simpa [text] using congrArg String.toList htext
  have hpieces := Piece.eq_of_spell_eq (readable_pieces hwc) (readable_pieces hwd) hspell
  have hagrees := agrees_of_content_eq hwc hwd (content_eq_of_pieces_eq hwc hwd hpieces)
  refine ⟨hagrees.1, ?_⟩
  intro hsides row a b ha hb
  have hvc : (c.turned.body param).evaluate [(param, row)] = .ok (.bool a) := evaluate_turned ha
  have hvd : (d.turned.body param).evaluate [(param, row)] = .ok (.bool b) := evaluate_turned hb
  rw [hagrees.2 hsides, hvd] at hvc
  cases hvc
  rfl

/-- A comparison and its mirror image, each compared with `true`. -/
theorem verdict_eq_of_filter_eq_mirrored :
    let c : Clause := .binary .eq (.binary .gt (.constant (.int32 1)) (.member "A")) (.constant (.bool true))
    let d : Clause := .binary .eq (.binary .lt (.member "A") (.constant (.int32 1))) (.constant (.bool true))
    c.WellFormed ∧ d.WellFormed ∧ c.turned.sides = [.left] ∧
      (c.lambda "e").toFilter .empty = .ok "(A lt 1 eq true)" ∧
      (d.lambda "e").toFilter .empty = .ok "(A lt 1 eq true)" ∧
      ∀ row a b, (c.lambda "e").apply row = .ok (.bool a) → (d.lambda "e").apply row = .ok (.bool b) →
        a = b := by
  intro c d
  have hmember : (member "A").WellFormed := ⟨by decide, rfl⟩
  have hc : c.WellFormed := ⟨⟨.int32 1, hmember⟩, .bool true⟩
  have hd : d.WellFormed := ⟨⟨hmember, .int32 1⟩, .bool true⟩
  obtain ⟨s, t, hs, ht, h⟩ := verdict_eq_of_filter_eq hc hd "e"
  have hs' : (c.lambda "e").toFilter .empty = .ok "(A lt 1 eq true)" := rfl
  have ht' : (d.lambda "e").toFilter .empty = .ok "(A lt 1 eq true)" := rfl
  have htext : s = t := Except.ok.inj ((hs.symm.trans hs').trans (ht'.symm.trans ht))
  exact ⟨hc, hd, rfl, hs', ht', (h htext).2 rfl⟩

/-- Which two of three parts are compared first decides, and the filter does not say. -/
theorem three_parts_share_filter :
    let c : Clause := .binary .eq (.binary .eq (.member "A") (.member "B")) (.constant (.bool true))
    let d : Clause := .binary .eq (.member "A") (.binary .eq (.member "B") (.constant (.bool true)))
    let row : Value := .record [("A", .int32 1), ("B", .int32 1)]
    c.WellFormed ∧ d.WellFormed ∧ (c.lambda "e").toFilter .empty = .ok "(A eq B eq true)" ∧
      (d.lambda "e").toFilter .empty = .ok "(A eq B eq true)" ∧
      (c.lambda "e").apply row = .ok (.bool true) ∧ (d.lambda "e").apply row = .ok (.bool false) := by
  have ha : (member "A").WellFormed := ⟨by decide, rfl⟩
  have hb : (member "B").WellFormed := ⟨by decide, rfl⟩
  exact ⟨⟨⟨ha, hb⟩, .bool true⟩, ⟨ha, hb, .bool true⟩, rfl, rfl, rfl, rfl⟩

end Clause

end TableClient
