import Mathlib.Data.List.DropRight
import TableClient.Proofs.Filter.Level

/-! The scanner for `or` and the words of a text. Of each word the scanner keeps the characters after its
last quote. On a text whose quotes are closed it finds exactly the words outside all parentheses of which
it keeps `or`: the word itself, and those that end so after a quote. -/

namespace TableClient.Filter

variable {quoted : Bool} {depth : Nat} {w word seen cs : List Char} {ts : List Token} {ps : List Part}

/-! ### What the scanner keeps of a word -/

def afterQuotes (w : List Char) : List Char :=
  w.rtakeWhile (· ≠ '\x27')

/-- A word with quotes that is taken for an `or`. -/
def EndsInOr (w : List Char) : Prop :=
  '\x27' ∈ w ∧ afterQuotes w = "or".toList

instance (w : List Char) : Decidable (EndsInOr w) :=
  inferInstanceAs (Decidable (_ ∧ _))

theorem afterQuotes_quote (w : List Char) : afterQuotes (w ++ ['\x27']) = [] :=
  List.rtakeWhile_concat_neg _ _ _ (by decide)

theorem afterQuotes_concat {c : Char} (h : c ≠ '\x27') (w : List Char) :
    afterQuotes (w ++ [c]) = afterQuotes w ++ [c] :=
  List.rtakeWhile_concat_pos _ _ _ (by simpa using h)

theorem afterQuotes_of_not_mem (h : '\x27' ∉ w) : afterQuotes w = w := by
  refine List.rtakeWhile_eq_self_iff.2 fun c hc => ?_
  simp only [ne_eq, decide_not, Bool.not_eq_true', decide_eq_false_iff_not]
  rintro rfl
  exact h hc

theorem afterQuotes_eq_or_iff : afterQuotes w = "or".toList ↔ w = "or".toList ∨ EndsInOr w := by
  constructor
  · intro h
    by_cases hquote : '\x27' ∈ w
    · exact .inr ⟨hquote, h⟩
    · exact .inl ((afterQuotes_of_not_mem hquote).symm.trans h)
  · rintro (rfl | h)
    · exact afterQuotes_of_not_mem (by decide)
    · exact h.2

/-! ### Words outside parentheses -/

def outerWords (depth : Nat) : List Token → List (List Char)
  | [] => []
  | .opening :: ts => outerWords (depth + 1) ts
  | .closing :: ts => outerWords (depth - 1) ts
  | .word w :: ts => if depth = 0 then w :: outerWords depth ts else outerWords depth ts

theorem mem_outerWords_word {v : List Char} :
    w ∈ outerWords depth (.word v :: ts) ↔ depth = 0 ∧ w = v ∨ w ∈ outerWords depth ts := by
  rw [outerWords]
  split
  next h => simp [h]
  next h => simp [h]

/-- The words of a level are its parts, and no words of a group within. -/
theorem mem_outerWords_level (h : IsLevel ts ps) (depth : Nat) (rest : List Token) :
    w ∈ outerWords depth (ts ++ rest) ↔ depth = 0 ∧ .word w ∈ ps ∨ w ∈ outerWords depth rest := by
  induction h generalizing depth rest with
  | nil => simp
  | word v _ ih =>
    rw [List.cons_append, mem_outerWords_word, ih, ← or_assoc, ← and_or_left, List.mem_cons,
      Part.word.injEq]
  | group _ _ _ ihin ih =>
    rw [List.cons_append, List.append_assoc, List.cons_append, outerWords, ihin, outerWords,
      Nat.add_sub_cancel, ih]
    simp

theorem mem_outerWords_tokens (h : IsLevel (tokens cs) ps) :
    w ∈ outerWords 0 (tokens cs) ↔ .word w ∈ ps := by
  have hmem := mem_outerWords_level (w := w) h 0 []
  rw [List.append_nil] at hmem
  exact hmem.trans (by simp [outerWords])

def orAt (depth : Nat) : List Token → Bool
  | [] => false
  | .opening :: ts => orAt (depth + 1) ts
  | .closing :: ts => orAt (depth - 1) ts
  | .word w :: ts => (decide (depth = 0) && decide (w = ['o', 'r'])) || orAt depth ts

theorem orAt_iff : orAt depth ts ↔ "or".toList ∈ outerWords depth ts := by
  induction ts generalizing depth with
  | nil => simp [orAt, outerWords]
  | cons t ts ih =>
    cases t with
    | opening => exact ih
    | closing => exact ih
    | word v =>
      rw [orAt, Bool.or_eq_true, Bool.and_eq_true, decide_eq_true_eq, decide_eq_true_eq, ih,
        mem_outerWords_word, @eq_comm _ v]
      rfl

theorem outerWords_breakTokens {c : Char} (h : isBreak c) (depth : Nat) (ts : List Token) :
    outerWords depth (breakTokens c ++ ts) = outerWords (depthAfter depth c) ts := by
  simp only [isBreak, Bool.or_eq_true, decide_eq_true_eq] at h
  rcases h with (rfl | rfl) | rfl <;> rfl

/-- Whether one of the words at depth zero is taken for an `or`. -/
def ReadsOr (depth : Nat) (ts : List Token) : Prop :=
  ∃ w ∈ outerWords depth ts, afterQuotes w = "or".toList

theorem readsOr_flush (depth : Nat) (word : List Char) (ts : List Token) :
    ReadsOr depth (flush word ++ ts) ↔
      depth = 0 ∧ afterQuotes word = "or".toList ∨ ReadsOr depth ts := by
  rw [flush]
  split
  next h =>
    rw [h]
    simp [afterQuotes]
  next =>
    simp only [ReadsOr, List.singleton_append, mem_outerWords_word]
    constructor
    · rintro ⟨w, ⟨hdepth, rfl⟩ | hw, hor⟩
      · exact .inl ⟨hdepth, hor⟩
      · exact .inr ⟨w, hw, hor⟩
    · rintro (⟨hdepth, hor⟩ | ⟨w, hw, hor⟩)
      · exact ⟨word, .inl ⟨hdepth, rfl⟩, hor⟩
      · exact ⟨w, .inr hw, hor⟩

/-- The scanner has seen what stands after the last quote of the word that is being read, and nothing while
a quote is open. -/
theorem scanOr_iff (hquoted : quotedAfter quoted cs = false)
    (hseen : seen = if quoted then [] else afterQuotes word) :
    scanOr depth quoted seen cs ↔ ReadsOr depth (tokensFrom quoted word cs) := by
  induction cs generalizing depth quoted word seen with
  | nil =>
    obtain rfl : quoted = false := hquoted
    obtain rfl : seen = afterQuotes word := hseen
    rw [tokensFrom, ← List.append_nil (flush word), readsOr_flush]
    simp [scanOr, ReadsOr, outerWords]
  | cons c cs ih =>
    cases quoted with
    | true =>
      obtain rfl : seen = [] := hseen
      rw [quotedAfter_true_cons] at hquoted
      rw [scanOr, if_pos rfl, tokensFrom, if_pos rfl]
      refine ih hquoted ?_
      by_cases hc : c = '\x27'
      · rw [hc, afterQuotes_quote, ite_self]
      · rw [decide_eq_true hc, if_pos rfl]
    | false =>
      obtain rfl : seen = afterQuotes word := hseen
      rw [quotedAfter] at hquoted
      rw [scanOr, if_neg Bool.false_ne_true]
      by_cases hc : c = '\x27'
      · rw [if_pos hc] at hquoted
        rw [if_pos hc, tokensFrom, if_neg Bool.false_ne_true, if_pos hc]
        exact ih hquoted rfl
      · rw [if_neg hc] at hquoted
        rw [if_neg hc]
        by_cases hbreak : isBreak c
        · -- both words end here
          have hrest : scanOr (depthAfter depth c) false [] cs ↔
              ReadsOr (depthAfter depth c) (tokens cs) := ih hquoted rfl
          rw [if_pos hbreak, tokensFrom_break hbreak, readsOr_flush, Bool.or_eq_true,
            ReadsOr, outerWords_breakTokens hbreak]
          exact or_congr (by simp) hrest
        · rw [if_neg hbreak, tokensFrom_cons hc hbreak, ← afterQuotes_concat hc]
          exact ih hquoted rfl

/-- The scanner finds the words outside parentheses that are `or`, or end so. -/
theorem hasTopLevelOr_iff (h : quotedAfter false cs = false) :
    hasTopLevelOr cs ↔ orAt 0 (tokens cs) ∨ ∃ w ∈ outerWords 0 (tokens cs), EndsInOr w := by
  have hscan : scanOr 0 false [] cs ↔ ReadsOr 0 (tokens cs) := scanOr_iff h rfl
  rw [hasTopLevelOr, hscan, ReadsOr, orAt_iff]
  simp only [afterQuotes_eq_or_iff, and_or_left, exists_or, exists_eq_right]

/-- A text in which the scanner finds no `or` has none among the parts of its outermost level. -/
theorem or_not_mem_of_hasTopLevelOr (hquoted : quotedAfter false cs = false)
    (hor : hasTopLevelOr cs = false) (h : IsLevel (tokens cs) ps) : .word "or".toList ∉ ps := by
  intro hmem
  have hfound := (hasTopLevelOr_iff hquoted).2 (.inl (orAt_iff.2 ((mem_outerWords_tokens h).2 hmem)))
  rw [hfound] at hor
  cases hor

end TableClient.Filter
