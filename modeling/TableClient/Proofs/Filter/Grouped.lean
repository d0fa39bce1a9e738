import TableClient.Proofs.Filter.WellFormed

/-! Parentheses around a whole text. The characters of a text open and close the parentheses that its tokens
do, so that a text that spells a condition is balanced, and the scanner that looks for the end of the first
group finds the parenthesis that the grammar pairs with it. What is left without the parentheses around the
whole is a text of the same condition. -/

namespace TableClient.Filter

variable {quoted : Bool} {depth : Nat} {word cs ds : List Char} {ts : List Token} {ps : List Part}
  {x : Condition}

/-! ### The depth of tokens -/

/-- The depth of parentheses after tokens of which none closes one that was not opened. -/
def depthOf (depth : Nat) : List Token → Option Nat
  | [] => some depth
  | .opening :: ts => depthOf (depth + 1) ts
  | .closing :: ts => if depth = 0 then none else depthOf (depth - 1) ts
  | .word _ :: ts => depthOf depth ts

theorem depthOf_flush (depth : Nat) (word : List Char) (ts : List Token) :
    depthOf depth (flush word ++ ts) = depthOf depth ts := by
  rw [flush]
  split
  · rfl
  · rfl

theorem depthOf_breakTokens {c : Char} (h : isBreak c) (depth : Nat) (ts : List Token) :
    depthOf depth (breakTokens c ++ ts) =
      if c = ')' ∧ depth = 0 then none else depthOf (depthAfter depth c) ts := by
  simp only [isBreak, Bool.or_eq_true, decide_eq_true_eq] at h
  rcases h with (rfl | rfl) | rfl
  · rfl
  · show (if depth = 0 then none else depthOf (depth - 1) ts) = _
    simp [depthAfter]
  · rfl

/-- A level closes what it opens. -/
theorem depthOf_level (h : IsLevel ts ps) (depth : Nat) (rest : List Token) :
    depthOf depth (ts ++ rest) = depthOf depth rest := by
  induction h generalizing depth rest with
  | nil => rfl
  | word w _ ih => exact ih depth rest
  | group _ _ _ ihin ih =>
    rw [List.cons_append, List.append_assoc, List.cons_append, depthOf, ihin, depthOf,
      if_neg (Nat.succ_ne_zero depth), Nat.add_sub_cancel, ih]

/-! ### Characters and tokens -/

/-- The characters of a text are as deep in parentheses as its tokens. -/
theorem depthFrom_eq_depthOf (h : quotedAfter quoted cs = false) (depth : Nat) (word : List Char) :
    depthFrom depth quoted cs = depthOf depth (tokensFrom quoted word cs) := by
  induction cs generalizing depth quoted word with
  | nil =>
    obtain rfl : quoted = false := h
    rw [tokensFrom, ← List.append_nil (flush word), depthOf_flush]
    rfl
  | cons c cs ih =>
    cases quoted with
    | true =>
      rw [quotedAfter_true_cons] at h
      rw [depthFrom, if_pos rfl, tokensFrom, if_pos rfl]
      exact ih h depth _
    | false =>
      rw [quotedAfter] at h
      rw [depthFrom, if_neg Bool.false_ne_true]
      by_cases hc : c = '\x27'
      · rw [if_pos hc] at h
        rw [if_pos hc, tokensFrom, if_neg Bool.false_ne_true, if_pos hc]
        exact ih h depth _
      · rw [if_neg hc] at h
        rw [if_neg hc]
        by_cases hbreak : isBreak c
        · rw [tokensFrom_break hbreak, depthOf_flush, depthOf_breakTokens hbreak, ih h _ []]
          rfl
        · have hclose : ¬(c = ')' ∧ depth = 0) := by
            rintro ⟨rfl, -⟩
            exact hbreak rfl
          rw [if_neg hclose, depthAfter_of_not_break hbreak, tokensFrom_cons hc hbreak]
          exact ih h depth _

/-- A text that the store understands closes what it opens. -/
theorem IsWellFormed.isBalanced (h : IsWellFormed cs) : IsBalanced cs := by
  obtain ⟨after, hafter⟩ := Option.isSome_iff_exists.1 h.spaced
  obtain ⟨x, hx⟩ := Option.isSome_iff_exists.1 h.read
  obtain ⟨ps, hlevel, -⟩ := condition?_eq_some_iff.1 hx
  have hdepth := depthOf_level hlevel 0 []
  rw [List.append_nil] at hdepth
  rw [IsBalanced, depthFrom_eq_depthOf (quotedAfter_of_blankAfter hafter) 0 []]
  exact hdepth

/-! ### One pair around the whole -/

/-- If the group that is open is closed by the last character, then what stands before closes what it
opens. -/
theorem depthFrom_of_closesAtEnd (hquoted : quotedAfter quoted cs = false)
    (h : closesAtEnd (depth + 1) quoted (cs ++ [')'])) : depthFrom depth quoted cs = some 0 := by
  induction cs generalizing depth quoted with
  | nil =>
    obtain rfl : quoted = false := hquoted
    rw [List.nil_append, closesAtEnd_closing] at h
    split at h
    next hdepth => rw [hdepth]; rfl
    next => cases h
  | cons c cs ih =>
    rw [List.cons_append, closesAtEnd] at h
    cases quoted with
    | true =>
      rw [quotedAfter_true_cons] at hquoted
      rw [if_pos rfl] at h
      rw [depthFrom, if_pos rfl]
      exact ih hquoted h
    | false =>
      rw [quotedAfter] at hquoted
      rw [if_neg Bool.false_ne_true] at h
      rw [depthFrom, if_neg Bool.false_ne_true]
      by_cases hc : c = '\x27'
      · rw [if_pos hc] at hquoted h
        rw [if_pos hc]
        exact ih hquoted h
      · rw [if_neg hc] at hquoted h
        rw [if_neg hc]
        split at h
        · -- the group would be closed before the last character
          rw [List.isEmpty_iff] at h
          exact absurd h (by simp)
        next hopen =>
          have hclose : ¬(c = ')' ∧ depth = 0) := by simpa using hopen
          rw [if_neg hclose]
          rw [depthAfter_succ hclose] at h
          exact ih hquoted h

theorem exists_group_of_isGrouped (h : isGrouped cs) :
    ∃ ds, cs = group ds ∧ closesAtEnd 1 false (ds ++ [')']) := by
  simp only [isGrouped, Bool.and_eq_true, decide_eq_true_eq] at h
  obtain ⟨⟨hhead, hlast⟩, hclose⟩ := h
  obtain ⟨es, rfl⟩ := List.head?_eq_some_iff.1 hhead
  obtain ⟨front, hfront⟩ := List.getLast?_eq_some_iff.1 hlast
  cases front with
  | nil => cases hfront
  | cons c ds =>
    obtain ⟨rfl, rfl⟩ := List.cons.inj hfront
    exact ⟨ds, rfl, hclose⟩

/-- The parts of a level that is one balanced group. -/
theorem level_of_group (h : IsLevel (.opening :: (ts ++ [.closing])) ps) (hts : depthOf 0 ts = some 0) :
    ∃ qs x, IsLevel ts qs ∧ disjunction? qs = some x ∧ ps = [.group x] := by
  generalize htokens : Token.opening :: (ts ++ [.closing]) = tokens at h
  cases h with
  | nil => cases htokens
  | word w _ => cases htokens
  | @group us vs qs rs x hin hx hrest =>
    have hsame : ts ++ [.closing] = us ++ .closing :: vs := (List.cons.inj htokens).2
    rcases List.eq_nil_or_concat vs with rfl | ⟨vs, last, rfl⟩
    · obtain rfl : ts = us := (List.append_left_inj _).1 hsame
      cases hrest
      exact ⟨qs, x, hin, hx, rfl⟩
    · -- the group would end within the tokens, which close none that they do not open
      rw [List.concat_eq_append, ← List.cons_append, ← List.append_assoc] at hsame
      obtain ⟨rfl, -⟩ := List.append_inj' hsame rfl
      rw [depthOf_level hin, depthOf, if_pos rfl] at hts
      cases hts

/-- A text in one pair of parentheses is a group, whose content means the same. -/
theorem IsWellFormed.exists_group (h : IsWellFormed cs) (hgrouped : isGrouped cs) :
    ∃ ds, cs = group ds ∧ IsWellFormed ds ∧ condition? ds = condition? cs := by
  obtain ⟨ds, rfl, hclose⟩ := exists_group_of_isGrouped hgrouped
  obtain ⟨after, hafter⟩ := Option.isSome_iff_exists.1 h.spaced
  obtain ⟨x, hx⟩ := Option.isSome_iff_exists.1 h.read
  have hinner : blankAfter false false (ds ++ [')']) = some after := hafter
  obtain ⟨between, hspaced, -⟩ := exists_of_blankAfter_append (by decide) hinner
  have hquoted := quotedAfter_of_blankAfter hspaced
  obtain ⟨ps, hlevel, hps⟩ := condition?_eq_some_iff.1 hx
  rw [tokens_group hquoted] at hlevel
  have hdepth := depthFrom_of_closesAtEnd hquoted hclose
  rw [depthFrom_eq_depthOf hquoted 0 []] at hdepth
  obtain ⟨qs, y, hqs, hy, rfl⟩ := level_of_group hlevel hdepth
  have hread : condition? ds = some y := condition?_eq_some_iff.2 ⟨qs, hqs, hy⟩
  have hsame : condition? (group ds) = some y := hx.trans (hps.symm.trans rfl)
  exact ⟨ds, rfl, ⟨by rw [hspaced]; rfl, by rw [hread]; rfl⟩, hread.trans hsame.symm⟩

theorem IsWellFormed.isGrouped_iff (h : IsWellFormed cs) :
    isGrouped cs ↔ ∃ ds, cs = group ds ∧ IsWellFormed ds := by
  constructor
  · intro hgrouped
    obtain ⟨ds, hcs, hds, -⟩ := h.exists_group hgrouped
    exact ⟨ds, hcs, hds⟩
  · rintro ⟨ds, rfl, hds⟩
    exact isGrouped_group hds.isBalanced

/-! ### Taking parentheses off -/

theorem inner_group (cs : List Char) : inner (group cs) = Text.trim cs := by
  show Text.trim (cs ++ [')']).dropLast = Text.trim cs
  rw [List.dropLast_concat]

/-- Taking off the parentheses around the whole ends with a text of the same condition that has none. -/
theorem ungroup_spec (h : IsNeat cs) (hx : condition? cs = some x) :
    IsNeat (ungroup cs) ∧ isGrouped (ungroup cs) = false ∧ condition? (ungroup cs) = some x := by
  induction hn : cs.length using Nat.strong_induction_on generalizing cs with
  | _ n ih =>
    by_cases hgrouped : isGrouped cs
    · obtain ⟨ds, hcs, hds, hsame⟩ := (h.isWellFormed hx).exists_group hgrouped
      obtain ⟨hneat, htrim⟩ := hds.trim
      have hinner : inner cs = Text.trim ds := by rw [hcs, inner_group]
      have hshorter := length_inner_lt hgrouped
      rw [hinner, hn] at hshorter
      rw [ungroup, dif_pos hgrouped, hinner]
      exact ih _ hshorter hneat (by rw [htrim, hsame, hx]) rfl
    · rw [ungroup, dif_neg hgrouped]
      exact ⟨h, Bool.eq_false_iff.2 hgrouped, hx⟩

theorem IsWellFormed.stripOuter (h : IsWellFormed cs) :
    IsWellFormed (stripOuter cs) ∧ isGrouped (stripOuter cs) = false ∧
      condition? (stripOuter cs) = condition? cs := by
  obtain ⟨x, hx⟩ := Option.isSome_iff_exists.1 h.read
  obtain ⟨hneat, htrim⟩ := h.trim
  obtain ⟨hstripped, hbare, hread⟩ := ungroup_spec hneat (htrim.trans hx)
  exact ⟨hstripped.isWellFormed hread, hbare, hread.trans hx.symm⟩

end TableClient.Filter
