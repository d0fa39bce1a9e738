import TableClient.Filter.Scan
import TableClient.Proofs.Filter.Phrase

/-! The scanners of grouping on the texts of phrases. A word passes through a scanner without a trace, so
that what a scanner finds depends on the tree alone: an `or` outside all parentheses is an `or` at the root,
and a text is grouped if its phrase is a group. -/

namespace TableClient.Filter

open Literal (doubleQuotes)

/-! ### Words pass -/

theorem depthAfter_wordChar {c : Char} (h : isWordChar c) (depth : Nat) :
    depthAfter depth c = depth := by
  obtain ⟨-, -, hopen, hclose⟩ := isWordChar_iff.1 h
  simp [depthAfter, hopen, hclose]

theorem closesAtEnd_run {cs : List Char} (h : IsRun cs) (depth : Nat) (rest : List Char) :
    closesAtEnd depth false (cs ++ rest) = closesAtEnd depth false rest := by
  induction cs with
  | nil => rfl
  | cons c cs ih =>
    have hc := h c List.mem_cons_self
    obtain ⟨-, hquote, -, hclose⟩ := isWordChar_iff.1 hc
    have htail := ih fun c hc => h c (List.mem_cons_of_mem _ hc)
    simp [closesAtEnd, hquote, hclose, depthAfter_wordChar hc, htail]

theorem closesAtEnd_doubleQuotes (body : List Char) (depth : Nat) (rest : List Char) :
    closesAtEnd depth true (doubleQuotes body ++ rest) = closesAtEnd depth true rest := by
  induction body with
  | nil => rfl
  | cons c cs ih =>
    by_cases hc : c = '\x27'
    · subst hc
      simp [doubleQuotes, closesAtEnd, ih]
    · simp [doubleQuotes, closesAtEnd, hc, ih]

theorem closesAtEnd_word {w : List Char} (h : IsWord w) (depth : Nat) (rest : List Char) :
    closesAtEnd depth false (w ++ rest) = closesAtEnd depth false rest := by
  cases h with
  | bare _ hrun _ => exact closesAtEnd_run hrun depth rest
  | @quoted mark body hmark =>
    rw [List.append_assoc, closesAtEnd_run hmark, List.cons_append, List.append_assoc]
    simp [closesAtEnd, closesAtEnd_doubleQuotes]

theorem closesAtEnd_blank (depth : Nat) (rest : List Char) :
    closesAtEnd depth false (' ' :: rest) = closesAtEnd depth false rest := by
  simp [closesAtEnd, depthAfter]

theorem closesAtEnd_opening (depth : Nat) (rest : List Char) :
    closesAtEnd depth false ('(' :: rest) = closesAtEnd (depth + 1) false rest := by
  simp [closesAtEnd, depthAfter]

theorem closesAtEnd_closing (depth : Nat) (rest : List Char) :
    closesAtEnd (depth + 1) false (')' :: rest) =
      if depth = 0 then rest.isEmpty else closesAtEnd depth false rest := by
  simp [closesAtEnd, depthAfter]

theorem scanOr_run {cs : List Char} (h : IsRun cs) (depth : Nat) (word rest : List Char) :
    scanOr depth false word (cs ++ rest) = scanOr depth false (word ++ cs) rest := by
  induction cs generalizing word with
  | nil => simp
  | cons c cs ih =>
    have hc := h c List.mem_cons_self
    have htail := ih (fun c hc => h c (List.mem_cons_of_mem _ hc)) (word ++ [c])
    simp [scanOr, ne_quote hc, isBreak_eq_false hc, htail]

theorem scanOr_doubleQuotes (body : List Char) (depth : Nat) (rest : List Char) :
    scanOr depth true [] (doubleQuotes body ++ rest) = scanOr depth true [] rest := by
  induction body with
  | nil => rfl
  | cons c cs ih =>
    by_cases hc : c = '\x27'
    · subst hc
      simp [doubleQuotes, scanOr, ih]
    · simp [doubleQuotes, scanOr, hc, ih]

/-- Where a word is broken off, it counts if it is an `or` outside parentheses. -/
theorem scanOr_atBreak {rest : List Char} (h : AtBreak rest) (depth : Nat) (word : List Char) :
    scanOr depth false word rest =
      (decide (depth = 0) && decide (word = ['o', 'r']) || scanOr depth false [] rest) := by
  cases rest with
  | nil => simp [scanOr]
  | cons c cs =>
    have hc : isBreak c := h c rfl
    have hquote : c ≠ '\x27' := by
      rintro rfl
      exact absurd hc (by decide)
    simp [scanOr, hquote, hc]

theorem scanOr_keyword {cs rest : List Char} (hrun : IsRun cs) (h : AtBreak rest) (depth : Nat) :
    scanOr depth false [] (cs ++ rest) =
      (decide (depth = 0) && decide (cs = ['o', 'r']) || scanOr depth false [] rest) := by
  rw [scanOr_run hrun, List.nil_append, scanOr_atBreak h]

theorem scanOr_word {w rest : List Char} (hw : IsWord w) (h : AtBreak rest) (depth : Nat) :
    scanOr depth false [] (w ++ rest) = scanOr depth false [] rest := by
  have hor : w ≠ ['o', 'r'] := hw.ne_of_isKeyword isKeyword_or
  cases hw with
  | bare _ hrun _ => simp [scanOr_keyword hrun h, hor]
  | @quoted mark body hmark =>
    rw [List.append_assoc, scanOr_run hmark, List.cons_append, List.append_assoc]
    simp [scanOr, scanOr_doubleQuotes]

theorem scanOr_break {c : Char} (h : isBreak c) (depth : Nat) (rest : List Char) :
    scanOr depth false [] (c :: rest) = scanOr (depthAfter depth c) false [] rest := by
  have hquote : c ≠ '\x27' := by
    rintro rfl
    exact absurd h (by decide)
  simp [scanOr, hquote, h]

theorem scanOr_blank (depth : Nat) (rest : List Char) :
    scanOr depth false [] (' ' :: rest) = scanOr depth false [] rest :=
  scanOr_break rfl depth rest

/-- An operator between blanks counts if it is an `or` outside parentheses. -/
theorem scanOr_operator (op : BinaryOp) (depth : Nat) (rest : List Char) :
    scanOr depth false [] (' ' :: (op.keyword.toList ++ ' ' :: rest)) =
      (decide (depth = 0) && decide (op = .or) || scanOr depth false [] rest) := by
  have hor : decide (op.keyword.toList = ['o', 'r']) = decide (op = .or) := by
    cases op <;> decide
  rw [scanOr_blank, scanOr_keyword (Phrase.isRun_keyword op).2 (atBreak_cons rfl _), hor,
    scanOr_blank]

namespace Phrase

variable {p : Phrase}

/-! ### Alternatives -/

theorem scanOr_text (h : p.WellFormed) {rest : List Char} (hr : AtBreak rest) (depth : Nat) :
    scanOr depth false [] (p.text ++ rest) =
      (decide (depth = 0) && decide (p.rank = 2) || scanOr depth false [] rest) := by
  induction p generalizing rest depth with
  | column name => simp [text, rank, scanOr_word h.isWord hr]
  | test name op literal value =>
    obtain ⟨hname, hop, hlit⟩ := h
    have hor : op ≠ .or := by
      rintro rfl
      exact absurd hop (by decide)
    simp only [text, joinedChars, List.append_assoc, List.cons_append]
    rw [scanOr_word hname.isWord (atBreak_cons rfl _), scanOr_operator,
      scanOr_word hlit.isWord hr]
    simp [rank, hor]
  | group p ih =>
    have hin : p.WellFormed := h
    simp only [text, Filter.group, List.append_assoc, List.cons_append, List.nil_append]
    rw [scanOr_break rfl, ih hin (atBreak_cons rfl _), scanOr_break rfl]
    simp [depthAfter, rank]
  | not p ih =>
    obtain ⟨hrank, hin⟩ := h
    simp only [text, List.append_assoc, List.cons_append]
    rw [scanOr_keyword (by decide) (atBreak_cons rfl _), scanOr_blank, ih hin hr, hrank]
    simp [rank]
  | and l r ihl ihr =>
    obtain ⟨hl, hr1, hwl, hwr⟩ := h
    have hr2 : decide (r.rank = 2) = false := by simpa using (by omega : r.rank ≠ 2)
    simp only [text, joinedChars, List.append_assoc, List.cons_append]
    rw [ihl hwl (atBreak_cons rfl _), scanOr_operator, ihr hwr hr, hl, hr2]
    simp [rank]
  | or l r ihl ihr =>
    obtain ⟨hl, hwl, hwr⟩ := h
    simp only [text, joinedChars, List.append_assoc, List.cons_append]
    rw [ihl hwl (atBreak_cons rfl _), scanOr_operator, ihr hwr hr]
    cases hd : decide (depth = 0) <;> simp [rank]

/-- An `or` outside all parentheses is an `or` at the root. -/
theorem hasTopLevelOr_text (h : p.WellFormed) : hasTopLevelOr p.text = decide (p.rank = 2) := by
  have hscan := scanOr_text h atBreak_nil 0
  rw [List.append_nil] at hscan
  rw [hasTopLevelOr, hscan]
  simp [scanOr]

/-! ### Groups -/

def isGroup : Phrase → Bool
  | group _ => true
  | _ => false

/-- Inside parentheses a phrase closes none of those around it. -/
theorem closesAtEnd_text_succ (h : p.WellFormed) (depth : Nat) (rest : List Char) :
    closesAtEnd (depth + 1) false (p.text ++ rest) = closesAtEnd (depth + 1) false rest := by
  induction p generalizing rest depth with
  | column name => exact closesAtEnd_word h.isWord _ _
  | test name op literal value =>
    obtain ⟨hname, hop, hlit⟩ := h
    simp only [text, joinedChars, List.append_assoc, List.cons_append]
    rw [closesAtEnd_word hname.isWord, closesAtEnd_blank, closesAtEnd_run (isRun_keyword op).2,
      closesAtEnd_blank, closesAtEnd_word hlit.isWord]
  | group p ih =>
    have hin : p.WellFormed := h
    simp only [text, Filter.group, List.append_assoc, List.cons_append, List.nil_append]
    rw [closesAtEnd_opening, ih hin, closesAtEnd_closing]
    simp
  | not p ih =>
    obtain ⟨-, hin⟩ := h
    simp only [text, List.append_assoc, List.cons_append]
    rw [closesAtEnd_run (by decide), closesAtEnd_blank, ih hin]
  | and l r ihl ihr =>
    obtain ⟨-, -, hwl, hwr⟩ := h
    simp only [text, joinedChars, List.append_assoc, List.cons_append]
    rw [ihl hwl, closesAtEnd_blank, closesAtEnd_run (isRun_keyword .and).2, closesAtEnd_blank,
      ihr hwr]
  | or l r ihl ihr =>
    obtain ⟨-, hwl, hwr⟩ := h
    simp only [text, joinedChars, List.append_assoc, List.cons_append]
    rw [ihl hwl, closesAtEnd_blank, closesAtEnd_run (isRun_keyword .or).2, closesAtEnd_blank,
      ihr hwr]

/-- A text begins as its first operand does. -/
theorem head?_joinedChars (op : BinaryOp) {left : List Char} (h : left ≠ []) (right : List Char) :
    (joinedChars op left right).head? = left.head? := by
  cases left with
  | nil => exact absurd rfl h
  | cons c cs => rfl

theorem getLast?_append_cons (front : List Char) (c : Char) {back : List Char} (h : back ≠ []) :
    (front ++ c :: back).getLast? = back.getLast? := by
  simp [List.getLast?_append, List.getLast?_cons, List.getLast?_eq_some_getLast h]

/-- A text ends as its last operand does. -/
theorem getLast?_joinedChars (op : BinaryOp) (left : List Char) {right : List Char}
    (h : right ≠ []) : (joinedChars op left right).getLast? = right.getLast? := by
  have hinner : op.keyword.toList ++ ' ' :: right ≠ [] := by simp
  rw [joinedChars, getLast?_append_cons _ _ hinner, getLast?_append_cons _ _ h]

/-- Of a text that begins with a parenthesis, the one that closes it is last only in a group. -/
theorem closesAtEnd_text_zero (h : p.WellFormed) (hopen : p.text.head? = some '(')
    (rest : List Char) : closesAtEnd 0 false (p.text ++ rest) = (p.isGroup && rest.isEmpty) := by
  have hword {w : List Char} (hw : IsWord w) (hhead : w.head? = some '(') : False :=
    (hw.head?_facts _ hhead).2 rfl
  induction p generalizing rest with
  | column name => exact (hword h.isWord hopen).elim
  | test name op literal value =>
    obtain ⟨hname, -, -⟩ := h
    rw [text, head?_joinedChars op hname.isWord.ne_nil] at hopen
    exact (hword hname.isWord hopen).elim
  | group p ih =>
    have hin : p.WellFormed := h
    simp only [text, Filter.group, List.append_assoc, List.cons_append, List.nil_append]
    rw [closesAtEnd_opening, closesAtEnd_text_succ hin, closesAtEnd_closing]
    simp [isGroup]
  | not p ih => exact absurd hopen (by simp [text])
  | and l r ihl ihr =>
    obtain ⟨-, -, hwl, -⟩ := h
    rw [text, head?_joinedChars .and (text_ne_nil hwl)] at hopen
    rw [text, joinedChars, List.append_assoc, List.cons_append, ihl hwl hopen]
    simp [isGroup]
  | or l r ihl ihr =>
    obtain ⟨-, hwl, -⟩ := h
    rw [text, head?_joinedChars .or (text_ne_nil hwl)] at hopen
    rw [text, joinedChars, List.append_assoc, List.cons_append, ihl hwl hopen]
    simp [isGroup]

theorem isGrouped_text (h : p.WellFormed) : isGrouped p.text = p.isGroup := by
  by_cases hopen : p.text.head? = some '('
  · have hclose := closesAtEnd_text_zero h hopen []
    rw [List.append_nil] at hclose
    rw [isGrouped, hclose, hopen]
    cases p with
    | group p =>
      have hlast : (text (group p)).getLast? = some ')' := List.getLast?_concat
      simp [isGroup, hlast]
    | _ => simp [isGroup]
  · cases p with
    | group p => exact absurd rfl hopen
    | _ => simp [isGrouped, hopen, isGroup]

/-! ### Outer blanks -/

/-- A phrase begins with no blank. -/
theorem head?_text (h : p.WellFormed) : ∀ c ∈ p.text.head?, Text.isBlank c = false := by
  induction p with
  | column name => exact fun c hc => (h.isWord.head?_facts c hc).1
  | test name op literal value =>
    obtain ⟨hname, -, -⟩ := h
    rw [text, head?_joinedChars op hname.isWord.ne_nil]
    exact fun c hc => (hname.isWord.head?_facts c hc).1
  | group p ih =>
    rintro c ⟨⟩
    decide
  | not p ih =>
    rintro c ⟨⟩
    decide
  | and l r ihl ihr =>
    obtain ⟨-, -, hwl, -⟩ := h
    rw [text, head?_joinedChars .and (text_ne_nil hwl)]
    exact ihl hwl
  | or l r ihl ihr =>
    obtain ⟨-, hwl, -⟩ := h
    rw [text, head?_joinedChars .or (text_ne_nil hwl)]
    exact ihl hwl

/-- A phrase ends with no blank. -/
theorem getLast?_text (h : p.WellFormed) : ∀ c ∈ p.text.getLast?, Text.isBlank c = false := by
  induction p with
  | column name => exact h.isWord.getLast?_not_blank
  | test name op literal value =>
    obtain ⟨-, -, hlit⟩ := h
    rw [text, getLast?_joinedChars op _ hlit.isWord.ne_nil]
    exact hlit.isWord.getLast?_not_blank
  | group p ih =>
    rw [text, Filter.group, List.getLast?_concat]
    rintro c ⟨⟩
    decide
  | not p ih =>
    rw [text, getLast?_append_cons _ _ (text_ne_nil h.2)]
    exact ih h.2
  | and l r ihl ihr =>
    obtain ⟨-, -, -, hwr⟩ := h
    rw [text, getLast?_joinedChars .and _ (text_ne_nil hwr)]
    exact ihr hwr
  | or l r ihl ihr =>
    obtain ⟨-, -, hwr⟩ := h
    rw [text, getLast?_joinedChars .or _ (text_ne_nil hwr)]
    exact ihr hwr

/-- The text of a phrase has no blanks around it. -/
theorem trim_text (h : p.WellFormed) : Text.trim p.text = p.text := by
  apply Text.trim_eq_self
  · cases hc : p.text.head? with
    | none => rfl
    | some c => simp [head?_text h c hc]
  · cases hc : p.text.getLast? with
    | none => rfl
    | some c => simp [getLast?_text h c hc]

end Phrase

end TableClient.Filter
