import TableClient.Proofs.Filter.Balance

/-! Pieces: the words of a text and its parentheses, these as trees. Pieces are spelled with one space between
neighbours. The tokens of what they spell say which pieces they were, since the parentheses in them match in
one way only. -/

namespace TableClient.Filter

inductive Piece where
  | word (text : List Char)
  /-- What stands between parentheses. -/
  | group (pieces : List Piece)

namespace Piece

variable {ps qs : List Piece} {rest u v : List Token}

def flatten : List Piece → List Token
  | [] => []
  | .word w :: ps => .word w :: flatten ps
  | .group qs :: ps => .opening :: (flatten qs ++ .closing :: flatten ps)

/-- What the pieces after the first add to a text. -/
def spaced (ps : List Piece) (text : List Char) : List Char :=
  if ps.isEmpty then [] else ' ' :: text

def spell : List Piece → List Char
  | [] => []
  | .word w :: ps => w ++ spaced ps (spell ps)
  | .group qs :: ps => Filter.group (spell qs) ++ spaced ps (spell ps)

/-- Every word is one token wherever it stands, and no parentheses are empty. -/
inductive Readable : List Piece → Prop
  | nil : Readable []
  | word {w : List Char} {ps : List Piece} : IsWord w → Readable ps → Readable (.word w :: ps)
  | keyword {w : List Char} {ps : List Piece} :
      w ≠ [] → IsRun w → Readable ps → Readable (.word w :: ps)
  | group {qs ps : List Piece} : qs ≠ [] → Readable qs → Readable ps → Readable (.group qs :: ps)

theorem Readable.append (h : Readable ps) (hq : Readable qs) : Readable (ps ++ qs) := by
  induction h with
  | nil => exact hq
  | word hw _ ih => exact .word hw ih
  | keyword hne hrun _ ih => exact .keyword hne hrun ih
  | group hne hin _ _ ih => exact .group hne hin ih

/-! ### Spelling -/

theorem spell_append (hp : ps ≠ []) (hq : qs ≠ []) :
    spell (ps ++ qs) = spell ps ++ ' ' :: spell qs := by
  induction ps with
  | nil => exact absurd rfl hp
  | cons p ps ih =>
    cases ps with
    | nil => cases p <;> simp [spell, spaced, hq]
    | cons q ps =>
      have hrest := ih (List.cons_ne_nil q ps)
      rw [List.cons_append] at hrest
      cases p <;> simp [spell, spaced, hrest]

/-- Pieces with a keyword between them. -/
theorem spell_joined (op : BinaryOp) (hp : ps ≠ []) (hq : qs ≠ []) :
    spell (ps ++ .word op.keyword.toList :: qs) = joinedChars op (spell ps) (spell qs) := by
  rw [spell_append hp (List.cons_ne_nil _ _), joinedChars]
  simp [spell, spaced, hq]

theorem spell_group (ps : List Piece) : spell [.group ps] = Filter.group (spell ps) := by
  simp [spell, spaced]

theorem spell_cons (w : List Char) (hp : ps ≠ []) : spell (.word w :: ps) = w ++ ' ' :: spell ps := by
  simp [spell, spaced, hp]

/-! ### What is spelled -/

theorem tokensFrom_spaced (h : ∀ rest, AtBreak rest →
      tokensFrom false [] (spell ps ++ rest) = flatten ps ++ tokensFrom false [] rest)
    {rest : List Char} (hr : AtBreak rest) :
    AtBreak (spaced ps (spell ps) ++ rest) ∧
      tokensFrom false [] (spaced ps (spell ps) ++ rest) =
        flatten ps ++ tokensFrom false [] rest := by
  cases ps with
  | nil => exact ⟨hr, by rw [flatten]; rfl⟩
  | cons p ps => exact ⟨atBreak_cons rfl _, (tokens_blank _).trans (h rest hr)⟩

/-- The tokens of what pieces spell, wherever it stands. -/
theorem tokensFrom_spell (h : Readable ps) {rest : List Char} (hr : AtBreak rest) :
    tokensFrom false [] (spell ps ++ rest) = flatten ps ++ tokensFrom false [] rest := by
  induction h generalizing rest with
  | nil => simp [spell, flatten]
  | word hw _ ih =>
    obtain ⟨hbreak, htokens⟩ := tokensFrom_spaced (fun _ => ih) hr
    rw [spell, List.append_assoc, tokensFrom_word hw hbreak, htokens, flatten, List.cons_append]
  | keyword hne hrun _ ih =>
    obtain ⟨hbreak, htokens⟩ := tokensFrom_spaced (fun _ => ih) hr
    rw [spell, List.append_assoc, tokensFrom_keyword hne hrun hbreak, htokens, flatten,
      List.cons_append]
  | @group qs ps _ _ _ ihin ih =>
    obtain ⟨-, htokens⟩ := tokensFrom_spaced (fun _ => ih) hr
    have hclose := ihin (atBreak_cons (show isBreak ')' from rfl) (spaced ps (spell ps) ++ rest))
    have hopen (cs : List Char) :
        tokensFrom false [] ('(' :: cs) = .opening :: tokensFrom false [] cs := rfl
    have hclosing (cs : List Char) :
        tokensFrom false [] (')' :: cs) = .closing :: tokensFrom false [] cs := rfl
    rw [spell, Filter.group, List.append_assoc, List.cons_append, List.cons_append, hopen,
      List.append_assoc, List.cons_append, List.nil_append, hclose, hclosing, htokens, flatten]
    simp

theorem tokens_spell (h : Readable ps) : tokens (spell ps) = flatten ps := by
  have htokens := tokensFrom_spell h atBreak_nil
  rwa [List.append_nil, tokensFrom, flush, if_pos rfl, List.append_nil] at htokens

theorem isBalanced_spaced (h : IsBalanced (spell ps)) : IsBalanced (spaced ps (spell ps)) := by
  rw [spaced]
  split
  · rfl
  · exact h.cons_blank

theorem isBalanced_spell (h : Readable ps) : IsBalanced (spell ps) := by
  induction h with
  | nil =>
    rw [spell]
    rfl
  | word hw _ ih =>
    rw [spell]
    exact (isBalanced_word hw).append (isBalanced_spaced ih)
  | keyword _ hrun _ ih =>
    rw [spell]
    exact (isBalanced_run hrun).append (isBalanced_spaced ih)
  | group _ _ _ ihin ih =>
    rw [spell]
    exact (isBalanced_group ihin).append (isBalanced_spaced ih)

theorem isGrouped_spell_group (h : Readable ps) : isGrouped (spell [.group ps]) := by
  rw [spell_group]
  exact isGrouped_group (isBalanced_spell h)

/-- What begins with a word is not in parentheses. -/
theorem isGrouped_spell_word {w : List Char} (h : Readable (.word w :: ps)) :
    isGrouped (spell (.word w :: ps)) = false := by
  obtain ⟨hne, hhead⟩ : w ≠ [] ∧ ∀ c ∈ w.head?, c ≠ '(' := by
    cases h with
    | word hw _ => exact ⟨hw.ne_nil, fun c hc => (hw.head?_facts c hc).2⟩
    | keyword hne hrun _ =>
      exact ⟨hne, fun c hc => (isWordChar_iff.1 (hrun c (List.mem_of_head? hc))).2.2.1⟩
  have hopen : (spell (.word w :: ps)).head? ≠ some '(' := by
    rw [spell]
    obtain ⟨c, cs, rfl⟩ := List.exists_cons_of_ne_nil hne
    intro heq
    exact hhead c rfl (Option.some_inj.1 heq)
  rw [isGrouped, decide_eq_false hopen, Bool.false_and, Bool.false_and]

/-! ### Parentheses match in one way -/

/-- What pieces may be followed by: nothing, or the end of the parentheses around them. -/
def AtEnd (rest : List Token) : Prop := ∀ t ∈ rest.head?, t = .closing

/-- The tokens of pieces determine them, and where they end in a longer text. -/
theorem flatten_append_inj (hu : AtEnd u) (hv : AtEnd v) (h : flatten ps ++ u = flatten qs ++ v) :
    ps = qs ∧ u = v := by
  have hend {t : Token} {rest ts : List Token} (hrest : AtEnd rest) (h : rest = t :: ts) :
      t = .closing := hrest t (by rw [h]; rfl)
  induction ps using flatten.induct generalizing qs u v with
  | case1 =>
    rw [flatten, List.nil_append] at h
    cases qs with
    | nil =>
      rw [flatten, List.nil_append] at h
      exact ⟨rfl, h⟩
    | cons q qs =>
      cases q with
      | word w => rw [flatten] at h; cases hend hu h
      | group bs => rw [flatten] at h; cases hend hu h
  | case2 w ps ih =>
    rw [flatten, List.cons_append] at h
    cases qs with
    | nil =>
      rw [flatten, List.nil_append] at h
      cases hend hv h.symm
    | cons q qs =>
      cases q with
      | word x =>
        rw [flatten, List.cons_append, List.cons.injEq, Token.word.injEq] at h
        obtain ⟨rfl, h⟩ := h
        obtain ⟨rfl, rfl⟩ := ih hu hv h
        exact ⟨rfl, rfl⟩
      | group bs => rw [flatten] at h; cases h
  | case3 as ps ihin ih =>
    rw [flatten, List.cons_append] at h
    cases qs with
    | nil =>
      rw [flatten, List.nil_append] at h
      cases hend hv h.symm
    | cons q qs =>
      cases q with
      | word x => rw [flatten] at h; cases h
      | group bs =>
        have hclosing (ts : List Token) : AtEnd (.closing :: ts) := by
          rintro t ⟨⟩
          rfl
        rw [flatten, List.cons_append, List.cons.injEq, List.append_assoc, List.append_assoc] at h
        obtain ⟨rfl, hrest⟩ := ihin (hclosing _) (hclosing _) h.2
        obtain ⟨rfl, rfl⟩ := ih hu hv (List.cons.inj hrest).2
        exact ⟨rfl, rfl⟩

/-- Readable pieces that spell the same text are the same. -/
theorem eq_of_spell_eq (hp : Readable ps) (hq : Readable qs) (h : spell ps = spell qs) : ps = qs := by
  have hflat : flatten ps ++ [] = flatten qs ++ [] := by
    rw [← tokens_spell hp, ← tokens_spell hq, h]
  have hend : AtEnd [] := by rintro t ⟨⟩
  exact (flatten_append_inj hend hend hflat).1

end Piece

end TableClient.Filter
