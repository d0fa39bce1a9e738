import TableClient.Proofs.Filter.Scan

/-! Balanced texts: every quote is closed, every parenthesis is closed, and none is closed that was not
opened. What stands between parentheses counts only outside quotes. A balanced text is passed over by a
scanner as a whole, whatever it says: inside parentheses without a trace, outside of them up to the `or`
that it may have; and its tokens are the same wherever it stands before a break. -/

namespace TableClient.Filter

open Literal (doubleQuotes)

variable {quoted : Bool} {depth after : Nat} {cs ds rest : List Char}

/-! ### Quotes -/

def quotedAfter (quoted : Bool) : List Char → Bool
  | [] => quoted
  | c :: cs => if c = '\x27' then quotedAfter (!quoted) cs else quotedAfter quoted cs

theorem quotedAfter_true_cons (c : Char) (cs : List Char) :
    quotedAfter true (c :: cs) = quotedAfter (c ≠ '\x27') cs := by
  rw [quotedAfter]
  split
  next hc => rw [decide_eq_false (not_not_intro hc)]; rfl
  next hc => rw [decide_eq_true hc]

theorem quotedAfter_append (quoted : Bool) (cs ds : List Char) :
    quotedAfter quoted (cs ++ ds) = quotedAfter (quotedAfter quoted cs) ds := by
  induction cs generalizing quoted with
  | nil => rfl
  | cons c cs ih =>
    rw [List.cons_append, quotedAfter, quotedAfter]
    split
    · exact ih _
    · exact ih _

/-- A text without quotes opens and closes none. -/
theorem quotedAfter_of_not_mem (h : '\x27' ∉ cs) (quoted : Bool) : quotedAfter quoted cs = quoted := by
  induction cs with
  | nil => rfl
  | cons c cs ih =>
    rw [List.mem_cons, not_or] at h
    rw [quotedAfter, if_neg (Ne.symm h.1), ih h.2]

theorem quotedAfter_doubleQuotes (quoted : Bool) (body : List Char) :
    quotedAfter quoted (doubleQuotes body) = quoted := by
  induction body with
  | nil => rfl
  | cons c cs ih =>
    by_cases hc : c = '\x27'
    · simp [doubleQuotes, quotedAfter, hc, ih]
    · simp [doubleQuotes, quotedAfter, hc, ih]

/-- The token of a character that ends a word. A blank is none. -/
def breakTokens (c : Char) : List Token :=
  if c = '(' then [.opening] else if c = ')' then [.closing] else []

/-- Where quotes are closed, a break separates the tokens before it from those after it. -/
theorem tokensFrom_append_break (h : quotedAfter quoted cs = false) {c : Char} (hc : isBreak c)
    (word rest : List Char) :
    tokensFrom quoted word (cs ++ c :: rest) =
      tokensFrom quoted word cs ++ (breakTokens c ++ tokens rest) := by
  induction cs generalizing quoted word with
  | nil =>
    obtain rfl : quoted = false := h
    rw [List.nil_append, tokensFrom_atBreak (atBreak_cons hc rest), tokensFrom]
    simp only [isBreak, Bool.or_eq_true, decide_eq_true_eq] at hc
    rcases hc with (rfl | rfl) | rfl <;> simp [tokensFrom, flush, breakTokens, tokens]
  | cons d cs ih =>
    cases quoted with
    | true =>
      rw [quotedAfter_true_cons] at h
      simp only [List.cons_append, tokensFrom, if_true, ih h]
    | false =>
      rw [quotedAfter] at h
      by_cases hd : d = '\x27'
      · rw [if_pos hd] at h
        simp only [List.cons_append, tokensFrom, Bool.false_eq_true, if_false, if_pos hd]
        exact ih h _
      · rw [if_neg hd] at h
        simp only [List.cons_append, tokensFrom, Bool.false_eq_true, if_false, if_neg hd, ih h]
        split
        · simp
        · split
          · simp
          · split <;> simp

theorem tokensFrom_break {c : Char} (h : isBreak c) (word cs : List Char) :
    tokensFrom false word (c :: cs) = flush word ++ (breakTokens c ++ tokens cs) := by
  have hnone : quotedAfter false [] = false := rfl
  exact tokensFrom_append_break hnone h word cs

theorem tokensFrom_cons {c : Char} (hc : c ≠ '\x27') (hbreak : ¬isBreak c) (word cs : List Char) :
    tokensFrom false word (c :: cs) = tokensFrom false (word ++ [c]) cs := by
  simp only [isBreak, Bool.or_eq_true, decide_eq_true_eq, not_or] at hbreak
  rw [tokensFrom, if_neg Bool.false_ne_true, if_neg hc, if_neg hbreak.1.1, if_neg hbreak.1.2,
    if_neg hbreak.2]

theorem tokens_blank (rest : List Char) : tokens (' ' :: rest) = tokens rest := by
  simp [tokens, tokensFrom, flush]

/-- Two texts with a keyword between them have the tokens of both and its own. -/
theorem tokens_joinedChars (op : BinaryOp) (h : quotedAfter false cs = false) (ds : List Char) :
    tokens (joinedChars op cs ds) = tokens cs ++ .word op.keyword.toList :: tokens ds := by
  have hkeyword := Phrase.isRun_keyword op
  have hrest : tokens (op.keyword.toList ++ ' ' :: ds) = .word op.keyword.toList :: tokens ds := by
    rw [← tokens_blank ds]
    exact tokensFrom_keyword hkeyword.1 hkeyword.2 (atBreak_cons rfl ds)
  rw [joinedChars, tokens, tokensFrom_append_break h rfl, hrest]
  rfl

theorem tokens_group (h : quotedAfter false cs = false) :
    tokens (group cs) = .opening :: (tokens cs ++ [.closing]) := by
  show tokens ([] ++ '(' :: (cs ++ [')'])) = _
  rw [tokens, tokensFrom_append_break rfl rfl, tokens, tokensFrom_append_break h rfl]
  rfl

/-! ### Depth -/

/-- The depth of parentheses after a text in which every quote is closed and none is closed that was not
opened. -/
def depthFrom (depth : Nat) (quoted : Bool) : List Char → Option Nat
  | [] => if quoted then none else some depth
  | c :: cs =>
    if quoted then depthFrom depth (c ≠ '\x27') cs
    else if c = '\x27' then depthFrom depth true cs
    else if c = ')' ∧ depth = 0 then none
    else depthFrom (depthAfter depth c) false cs

/-- Quotes are closed, and parentheses opened and closed in pairs. -/
def IsBalanced (cs : List Char) : Prop :=
  depthFrom 0 false cs = some 0

instance (cs : List Char) : Decidable (IsBalanced cs) :=
  inferInstanceAs (Decidable (depthFrom 0 false cs = some 0))

/-- What the first character of a text does to its depth. -/
theorem depthFrom_cons {c : Char} (h : depthFrom depth quoted (c :: cs) = some after) :
    (quoted = true ∧ depthFrom depth (c ≠ '\x27') cs = some after) ∨
      (quoted = false ∧ c = '\x27' ∧ depthFrom depth true cs = some after) ∨
      (quoted = false ∧ c ≠ '\x27' ∧ ¬(c = ')' ∧ depth = 0) ∧
        depthFrom (depthAfter depth c) false cs = some after) := by
  rw [depthFrom] at h
  cases quoted with
  | true => exact .inl ⟨rfl, by simpa using h⟩
  | false =>
    simp only [Bool.false_eq_true, if_false] at h
    split at h
    next hc => exact .inr (.inl ⟨rfl, hc, h⟩)
    next hc =>
      split at h
      · cases h
      next hclose => exact .inr (.inr ⟨rfl, hc, hclose, h⟩)

theorem depthFrom_nil (h : depthFrom depth quoted [] = some after) : quoted = false ∧ depth = after := by
  rw [depthFrom] at h
  cases quoted with
  | true => cases h
  | false => exact ⟨rfl, Option.some_inj.1 h⟩

theorem depthAfter_succ {c : Char} (h : ¬(c = ')' ∧ depth = 0)) :
    depthAfter (depth + 1) c = depthAfter depth c + 1 := by
  by_cases hopen : c = '('
  · rw [depthAfter, depthAfter, if_pos hopen, if_pos hopen]
  · by_cases hclose : c = ')'
    · have hpos : depth ≠ 0 := fun h0 => h ⟨hclose, h0⟩
      rw [depthAfter, depthAfter, if_neg hopen, if_neg hopen, if_pos hclose, if_pos hclose]
      omega
    · rw [depthAfter, depthAfter, if_neg hopen, if_neg hopen, if_neg hclose, if_neg hclose]

theorem depthAfter_of_not_break {c : Char} (h : ¬isBreak c) : depthAfter depth c = depth := by
  simp only [isBreak, Bool.or_eq_true, decide_eq_true_eq, not_or] at h
  rw [depthAfter, if_neg h.1.1, if_neg h.1.2]

theorem depthFrom_append (h : depthFrom depth quoted cs = some after) (ds : List Char) :
    depthFrom depth quoted (cs ++ ds) = depthFrom after false ds := by
  induction cs generalizing depth quoted with
  | nil =>
    obtain ⟨rfl, rfl⟩ := depthFrom_nil h
    rfl
  | cons c cs ih =>
    rw [List.cons_append, depthFrom]
    rcases depthFrom_cons h with ⟨rfl, h⟩ | ⟨rfl, hc, h⟩ | ⟨rfl, hc, hclose, h⟩
    · rw [if_pos rfl]
      exact ih h
    · rw [if_neg Bool.false_ne_true, if_pos hc]
      exact ih h
    · rw [if_neg Bool.false_ne_true, if_neg hc, if_neg hclose]
      exact ih h

/-- Further parentheses around a text do not matter to it. -/
theorem depthFrom_succ (h : depthFrom depth quoted cs = some after) :
    depthFrom (depth + 1) quoted cs = some (after + 1) := by
  induction cs generalizing depth quoted with
  | nil =>
    obtain ⟨rfl, rfl⟩ := depthFrom_nil h
    rfl
  | cons c cs ih =>
    rw [depthFrom]
    rcases depthFrom_cons h with ⟨rfl, h⟩ | ⟨rfl, hc, h⟩ | ⟨rfl, hc, hclose, h⟩
    · rw [if_pos rfl]
      exact ih h
    · rw [if_neg Bool.false_ne_true, if_pos hc]
      exact ih h
    · rw [if_neg Bool.false_ne_true, if_neg hc, if_neg (by simp), depthAfter_succ hclose]
      exact ih h

/-! ### Scanners on balanced texts -/

/-- Inside parentheses a balanced text closes none of those around it. -/
theorem closesAtEnd_of_depthFrom (h : depthFrom depth quoted cs = some after) (rest : List Char) :
    closesAtEnd (depth + 1) quoted (cs ++ rest) = closesAtEnd (after + 1) false rest := by
  induction cs generalizing depth quoted with
  | nil =>
    obtain ⟨rfl, rfl⟩ := depthFrom_nil h
    rfl
  | cons c cs ih =>
    rw [List.cons_append, closesAtEnd]
    rcases depthFrom_cons h with ⟨rfl, h⟩ | ⟨rfl, hc, h⟩ | ⟨rfl, hc, hclose, h⟩
    · rw [if_pos rfl]
      exact ih h
    · rw [if_neg Bool.false_ne_true, if_pos hc]
      exact ih h
    · have hstays : ¬(decide (c = ')') && decide (depth + 1 - 1 = 0)) = true := by simpa using hclose
      rw [if_neg Bool.false_ne_true, if_neg hc, if_neg hstays, depthAfter_succ hclose]
      exact ih h

/-- No `or` counts before the parenthesis around it is closed. -/
theorem scanOr_of_depthFrom_succ (h : depthFrom depth quoted cs = some after) (word rest : List Char) :
    scanOr (depth + 1) quoted word (cs ++ ')' :: rest) = scanOr after false [] rest := by
  induction cs generalizing depth quoted word with
  | nil =>
    obtain ⟨rfl, rfl⟩ := depthFrom_nil h
    simp [scanOr, isBreak, depthAfter]
  | cons c cs ih =>
    rw [List.cons_append, scanOr]
    rcases depthFrom_cons h with ⟨rfl, h⟩ | ⟨rfl, hc, h⟩ | ⟨rfl, hc, hclose, h⟩
    · rw [if_pos rfl]
      exact ih h _
    · rw [if_neg Bool.false_ne_true, if_pos hc]
      exact ih h _
    · have hpass : (decide (depth + 1 = 0) && decide (word = ['o', 'r'])) = false := by simp
      rw [if_neg Bool.false_ne_true, if_neg hc, depthAfter_succ hclose, hpass, Bool.false_or]
      split
      · exact ih h _
      next hbreak =>
        rw [depthAfter_of_not_break hbreak] at h
        exact ih h _

/-- Outside of parentheses an `or` is found in a balanced text or after it. -/
theorem scanOr_append (h : depthFrom depth quoted cs = some 0) (hr : AtBreak rest) (word : List Char) :
    scanOr depth quoted word (cs ++ rest) =
      (scanOr depth quoted word cs || scanOr 0 false [] rest) := by
  induction cs generalizing depth quoted word with
  | nil =>
    obtain ⟨rfl, rfl⟩ := depthFrom_nil h
    rw [List.nil_append, scanOr_atBreak hr]
    simp [scanOr]
  | cons c cs ih =>
    rw [List.cons_append, scanOr, scanOr]
    rcases depthFrom_cons h with ⟨rfl, h⟩ | ⟨rfl, hc, h⟩ | ⟨rfl, hc, -, h⟩
    · rw [if_pos rfl, if_pos rfl]
      exact ih h _
    · rw [if_neg Bool.false_ne_true, if_neg Bool.false_ne_true, if_pos hc, if_pos hc]
      exact ih h _
    · rw [if_neg Bool.false_ne_true, if_neg Bool.false_ne_true, if_neg hc, if_neg hc]
      by_cases hbreak : isBreak c
      · rw [if_pos hbreak, if_pos hbreak, ih h, Bool.or_assoc]
      · rw [depthAfter_of_not_break hbreak] at h
        rw [if_neg hbreak, if_neg hbreak, ih h]

/-! ### Balanced texts from balanced texts -/

theorem IsBalanced.append (h : IsBalanced cs) (hd : IsBalanced ds) : IsBalanced (cs ++ ds) :=
  (depthFrom_append h ds).trans hd

theorem IsBalanced.cons_blank (h : IsBalanced cs) : IsBalanced (' ' :: cs) := h

theorem isBalanced_group (h : IsBalanced cs) : IsBalanced (group cs) := by
  show depthFrom 1 false (cs ++ [')']) = some 0
  rw [depthFrom_append (depthFrom_succ h)]
  rfl

theorem isBalanced_run (h : IsRun cs) : IsBalanced cs := by
  induction cs with
  | nil => rfl
  | cons c cs ih =>
    have hc := h c List.mem_cons_self
    have hclose : c ≠ ')' := (isWordChar_iff.1 hc).2.2.2
    rw [IsBalanced, depthFrom, if_neg Bool.false_ne_true, if_neg (ne_quote hc),
      if_neg fun hboth => hclose hboth.1, depthAfter_wordChar hc]
    exact ih fun d hd => h d (List.mem_cons_of_mem _ hd)

/-- Between quotes nothing counts. -/
theorem depthFrom_quoted (depth : Nat) (body : List Char) :
    depthFrom depth true (doubleQuotes body ++ ['\x27']) = some depth := by
  induction body with
  | nil => rfl
  | cons c cs ih =>
    by_cases hc : c = '\x27'
    · simpa [doubleQuotes, depthFrom, hc] using ih
    · simpa [doubleQuotes, depthFrom, hc] using ih

theorem isBalanced_quoted {mark : List Char} (h : IsRun mark) (body : List Char) :
    IsBalanced (mark ++ '\x27' :: (doubleQuotes body ++ ['\x27'])) :=
  (isBalanced_run h).append (depthFrom_quoted 0 body)

theorem isBalanced_word (h : IsWord cs) : IsBalanced cs := by
  cases h with
  | bare _ hrun _ => exact isBalanced_run hrun
  | quoted body hmark => exact isBalanced_quoted hmark body

theorem isBalanced_joinedChars (op : BinaryOp) (h : IsBalanced cs) (hd : IsBalanced ds) :
    IsBalanced (joinedChars op cs ds) := by
  have hkeyword := isBalanced_run (Phrase.isRun_keyword op).2
  exact h.append (hkeyword.append hd.cons_blank).cons_blank

theorem isGrouped_group (h : IsBalanced cs) : isGrouped (group cs) := by
  have hlast : (group cs).getLast? = some ')' := List.getLast?_concat
  have hclose : closesAtEnd 0 false (group cs) = true := by
    show closesAtEnd 0 false ('(' :: (cs ++ [')'])) = true
    rw [closesAtEnd_opening, closesAtEnd_of_depthFrom h, closesAtEnd_closing]
    rfl
  rw [isGrouped, hlast, hclose]
  rfl

/-! ### Sides of `and` -/

theorem hasTopLevelOr_group (h : IsBalanced cs) : hasTopLevelOr (group cs) = false := by
  show scanOr 0 false [] ('(' :: (cs ++ [')'])) = false
  rw [scanOr_break rfl]
  exact scanOr_of_depthFrom_succ h [] []

theorem isBalanced_groupForAnd (h : IsBalanced cs) : IsBalanced (groupForAnd cs) := by
  rw [groupForAnd]
  split
  · exact isBalanced_group h
  · exact h

/-- A side of an `and` has no `or` of its own. -/
theorem hasTopLevelOr_groupForAnd (h : IsBalanced cs) : hasTopLevelOr (groupForAnd cs) = false := by
  rw [groupForAnd]
  split
  · exact hasTopLevelOr_group h
  next hor => exact Bool.eq_false_iff.2 hor

theorem hasTopLevelOr_joinedChars (op : BinaryOp) (h : IsBalanced cs) :
    hasTopLevelOr (joinedChars op cs ds) =
      (hasTopLevelOr cs || (decide (op = .or) || hasTopLevelOr ds)) := by
  rw [hasTopLevelOr, joinedChars, scanOr_append h (atBreak_cons rfl _), scanOr_operator]
  simp [hasTopLevelOr]

end TableClient.Filter
