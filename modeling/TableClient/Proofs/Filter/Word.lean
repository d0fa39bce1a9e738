import TableClient.Filter.Condition
import TableClient.Text.Cut

/-! Words of filter texts: the names of columns, the literals, and the keywords between them. A word
is a run of characters that no blank, quote or parenthesis interrupts, or it ends in a quoted body;
blanks and parentheses in the body do not end it. Wherever a word stands before a break it is one
token. -/

namespace TableClient.Filter

open Literal (doubleQuotes)

def isWordChar (c : Char) : Bool :=
  !Text.isBlank c && c ≠ '\x27' && c ≠ '(' && c ≠ ')'

def IsRun (cs : List Char) : Prop := ∀ c ∈ cs, isWordChar c

instance (cs : List Char) : Decidable (IsRun cs) :=
  decidable_of_iff (cs.all isWordChar) List.all_eq_true

structure IsColumn (name : String) : Prop where
  ne_empty : name ≠ ""
  isRun : IsRun name.toList
  not_keyword : name ∉ keywords

instance (name : String) : Decidable (IsColumn name) :=
  decidable_of_iff (name ≠ "" ∧ IsRun name.toList ∧ name ∉ keywords)
    ⟨fun h => ⟨h.1, h.2.1, h.2.2⟩, fun h => ⟨h.1, h.2, h.3⟩⟩

/-- The words that are no keywords. -/
inductive IsWord : List Char → Prop
  | bare {cs : List Char} : cs ≠ [] → IsRun cs → isKeyword cs = false → IsWord cs
  /-- A body between quotes, its own quotes doubled, after a mark. -/
  | quoted {mark : List Char} (body : List Char) :
      IsRun mark → IsWord (mark ++ '\x27' :: (doubleQuotes body ++ ['\x27']))

theorem IsColumn.isWord {name : String} (h : IsColumn name) : IsWord name.toList := by
  refine .bare ?_ h.isRun ?_
  · simpa using h.ne_empty
  · simpa [isKeyword] using h.not_keyword

theorem IsWord.ne_nil {cs : List Char} (h : IsWord cs) : cs ≠ [] := by
  cases h with
  | bare hne _ _ => exact hne
  | quoted body _ => simp

theorem isWordChar_iff {c : Char} : isWordChar c ↔
    Text.isBlank c = false ∧ c ≠ '\x27' ∧ c ≠ '(' ∧ c ≠ ')' := by
  simp [isWordChar, and_assoc]

theorem ne_quote {c : Char} (h : isWordChar c) : c ≠ '\x27' :=
  (isWordChar_iff.1 h).2.1

theorem isBreak_eq_false {c : Char} (h : isWordChar c) : isBreak c = false := by
  obtain ⟨hblank, -, hopen, hclose⟩ := isWordChar_iff.1 h
  have hspace : c ≠ ' ' := by
    rintro rfl
    exact absurd hblank (by decide)
  simp [isBreak, hopen, hclose, hspace]

/-- A word begins with neither a blank nor a parenthesis. -/
theorem IsWord.head?_facts {w : List Char} (h : IsWord w) :
    ∀ c ∈ w.head?, Text.isBlank c = false ∧ c ≠ '(' := by
  have hrun {cs : List Char} (hcs : IsRun cs) : ∀ c ∈ cs.head?, Text.isBlank c = false ∧ c ≠ '(' := by
    intro c hc
    obtain ⟨hblank, -, hopen, -⟩ := isWordChar_iff.1 (hcs c (List.mem_of_head? hc))
    exact ⟨hblank, hopen⟩
  cases h with
  | bare _ hcs _ => exact hrun hcs
  | @quoted mark body hmark =>
    cases mark with
    | nil =>
      rintro c ⟨⟩
      decide
    | cons c cs =>
      rintro d ⟨⟩
      exact hrun hmark c rfl

/-- A word ends with no blank. -/
theorem IsWord.getLast?_not_blank {w : List Char} (h : IsWord w) :
    ∀ c ∈ w.getLast?, Text.isBlank c = false := by
  intro c hc
  cases h with
  | bare _ hcs _ => exact (isWordChar_iff.1 (hcs c (List.mem_of_getLast? hc))).1
  | @quoted mark body _ =>
    rw [← List.cons_append, ← List.append_assoc, List.getLast?_concat] at hc
    cases hc
    decide

/-! ### Tokens of words -/

/-- A text that a word cannot run on into. -/
def AtBreak (rest : List Char) : Prop := ∀ c ∈ rest.head?, isBreak c

theorem atBreak_nil : AtBreak [] := by simp [AtBreak]

theorem atBreak_cons {c : Char} (h : isBreak c) (rest : List Char) : AtBreak (c :: rest) := by
  simpa [AtBreak] using h

theorem tokensFrom_run {cs : List Char} (h : IsRun cs) (word rest : List Char) :
    tokensFrom false word (cs ++ rest) = tokensFrom false (word ++ cs) rest := by
  induction cs generalizing word with
  | nil => simp
  | cons c cs ih =>
    have hc := h c List.mem_cons_self
    have hbreak := isBreak_eq_false hc
    simp only [isBreak, Bool.or_eq_false_iff, decide_eq_false_iff_not] at hbreak
    simp only [List.cons_append, tokensFrom, Bool.false_eq_true, if_false, ne_quote hc, hbreak.1.1,
      hbreak.1.2, hbreak.2]
    rw [ih fun c hc => h c (List.mem_cons_of_mem _ hc)]
    simp

/-- Within quotes a doubled quote closes and opens again, and all else is part of the word. -/
theorem tokensFrom_doubleQuotes (body word rest : List Char) :
    tokensFrom true word (doubleQuotes body ++ rest) =
      tokensFrom true (word ++ doubleQuotes body) rest := by
  induction body generalizing word with
  | nil => simp [doubleQuotes]
  | cons c cs ih =>
    by_cases hc : c = '\x27'
    · subst hc
      simp [doubleQuotes, tokensFrom, ih]
    · simp [doubleQuotes, tokensFrom, hc, ih]

/-- Where a word is broken off, it is a token. -/
theorem tokensFrom_atBreak {rest : List Char} (h : AtBreak rest) (word : List Char) :
    tokensFrom false word rest = flush word ++ tokensFrom false [] rest := by
  cases rest with
  | nil => simp [tokensFrom, flush]
  | cons c cs =>
    have hc : isBreak c := h c rfl
    have hquote : c ≠ '\x27' := by
      rintro rfl
      exact absurd hc (by decide)
    simp only [isBreak, Bool.or_eq_true, decide_eq_true_eq] at hc
    rcases hc with (rfl | rfl) | rfl <;> simp [tokensFrom, flush]

theorem tokensFrom_keyword {cs rest : List Char} (hne : cs ≠ []) (hrun : IsRun cs)
    (h : AtBreak rest) : tokensFrom false [] (cs ++ rest) = .word cs :: tokensFrom false [] rest := by
  rw [tokensFrom_run hrun, List.nil_append, tokensFrom_atBreak h]
  simp [flush, hne]

theorem tokensFrom_word {cs rest : List Char} (hw : IsWord cs) (h : AtBreak rest) :
    tokensFrom false [] (cs ++ rest) = .word cs :: tokensFrom false [] rest := by
  cases hw with
  | bare hne hrun _ => exact tokensFrom_keyword hne hrun h
  | @quoted mark body hmark =>
    have hopen (word cs : List Char) : tokensFrom false word ('\x27' :: cs) =
        tokensFrom true (word ++ ['\x27']) cs := by simp [tokensFrom]
    have hclose (word cs : List Char) : tokensFrom true word ('\x27' :: cs) =
        tokensFrom false (word ++ ['\x27']) cs := by simp [tokensFrom]
    simp only [List.append_assoc, List.cons_append, List.nil_append]
    rw [tokensFrom_run hmark, hopen, tokensFrom_doubleQuotes, hclose, tokensFrom_atBreak h]
    simp [flush]

/-! ### Words and keywords -/

/-- No word that is not a keyword is spelled like one. -/
theorem IsWord.ne_of_isKeyword {cs ds : List Char} (hw : IsWord cs) (h : isKeyword ds) :
    cs ≠ ds := by
  rintro rfl
  cases hw with
  | bare _ _ hkey => simp [hkey] at h
  | @quoted mark body hmark =>
    -- a keyword has no quote in it
    have hnone : ∀ word ∈ keywords, '\x27' ∉ word.toList := by decide
    simp only [isKeyword, List.contains_iff_mem] at h
    exact hnone _ h (by simp)

theorem isKeyword_and : isKeyword "and".toList := by decide

theorem isKeyword_or : isKeyword "or".toList := by decide

theorem isKeyword_not : isKeyword "not".toList := by decide

end TableClient.Filter
