import TableClient.Proofs.Filter.Literal

/-! Phrases: the texts of the filter grammar as trees, parentheses included. A phrase is well formed
if the operands of its operators bind at least as much as the operator needs. The text of such a
phrase is read back as the condition of the phrase, so that what a text means can be computed on its
tree. -/

namespace TableClient.Filter

inductive Phrase where
  | column (name : String)
  /-- A column against a literal, which spells a value. -/
  | test (name : String) (op : BinaryOp) (literal : String) (value : Value)
  | group (p : Phrase)
  | not (p : Phrase)
  | and (left right : Phrase)
  | or (left right : Phrase)

def joinedChars (op : BinaryOp) (left right : List Char) : List Char :=
  left ++ ' ' :: (op.keyword.toList ++ ' ' :: right)

namespace Phrase

def text : Phrase → List Char
  | column name => name.toList
  | test name op literal _ => joinedChars op name.toList literal.toList
  | group p => Filter.group p.text
  | not p => "not".toList ++ ' ' :: p.text
  | and l r => joinedChars .and l.text r.text
  | or l r => joinedChars .or l.text r.text

/-- How loosely a phrase binds: conjunctions more loosely than what they join, alternatives most. -/
def rank : Phrase → Nat
  | and .. => 1
  | or .. => 2
  | _ => 0

/-- Columns and literals are words, and every operand binds as much as its operator needs. -/
def WellFormed : Phrase → Prop
  | column name => IsColumn name
  | test name op literal value =>
    IsColumn name ∧ op.isComparison ∧ Literal.Spells literal value
  | group p => p.WellFormed
  | not p => p.rank = 0 ∧ p.WellFormed
  | and l r => l.rank = 0 ∧ r.rank ≤ 1 ∧ l.WellFormed ∧ r.WellFormed
  | or l r => l.rank ≤ 1 ∧ l.WellFormed ∧ r.WellFormed

def condition : Phrase → Condition
  | column name => .column name
  | test name op _ value => .test name op value
  | group p => p.condition
  | not p => .not p.condition
  | and l r => .and l.condition r.condition
  | or l r => .or l.condition r.condition

def holds (p : Phrase) (row : Value) : Bool :=
  p.condition.holds row

/-- The parts of the text on its outermost level of parentheses. -/
def parts : Phrase → List Part
  | column name => [.word name.toList]
  | test name op literal _ =>
    [.word name.toList, .word op.keyword.toList, .word literal.toList]
  | group p => [.group p.condition]
  | not p => .word "not".toList :: p.parts
  | and l r => l.parts ++ .word "and".toList :: r.parts
  | or l r => l.parts ++ .word "or".toList :: r.parts

end Phrase

/-! ### Runs between separators -/

section Separators

variable {separator : List Char} {parts rest : List Part}

theorem splitAt_separator : splitAt separator (.word separator :: rest) =
    [] :: splitAt separator rest := by
  simp [splitAt]

theorem splitAt_cons_of_ne {p : Part} (h : p ≠ .word separator) {run : List Part}
    {runs : List (List Part)} (hr : splitAt separator rest = run :: runs) :
    splitAt separator (p :: rest) = (p :: run) :: runs := by
  cases p with
  | group c => simp [splitAt, hr]
  | word w =>
    have hw : w ≠ separator := by
      rintro rfl
      exact h rfl
    simp [splitAt, hw, hr]

/-- A run without a separator extends the first run of what comes after it. -/
theorem splitAt_append (h : .word separator ∉ parts) {run : List Part} {runs : List (List Part)}
    (hr : splitAt separator rest = run :: runs) :
    splitAt separator (parts ++ rest) = (parts ++ run) :: runs := by
  induction parts with
  | nil => exact hr
  | cons p parts ih =>
    rw [List.mem_cons, not_or] at h
    exact splitAt_cons_of_ne (Ne.symm h.1) (ih h.2)

theorem splitAt_of_not_mem (h : .word separator ∉ parts) : splitAt separator parts = [parts] := by
  have hnil : splitAt separator [] = [[]] := rfl
  simpa using splitAt_append h hnil

theorem splitAt_append_separator (h : .word separator ∉ parts) :
    splitAt separator (parts ++ .word separator :: rest) = parts :: splitAt separator rest := by
  simpa using splitAt_append h splitAt_separator

/-- Reads the runs between separators and joins what they are read as. -/
def joinRuns (separator : List Char) (read : List Part → Option Condition)
    (join : Condition → Condition → Condition) (parts : List Part) : Option Condition :=
  ((splitAt separator parts).mapM read).bind (joinBy join)

variable {read : List Part → Option Condition} {join : Condition → Condition → Condition}
  {c d : Condition}

theorem joinRuns_of_not_mem (h : .word separator ∉ parts) (hread : read parts = some c) :
    joinRuns separator read join parts = some c := by
  simp [joinRuns, splitAt_of_not_mem h, hread, joinBy]

theorem joinRuns_append (h : .word separator ∉ parts) (hread : read parts = some c)
    (hrest : joinRuns separator read join rest = some d) :
    joinRuns separator read join (parts ++ .word separator :: rest) = some (join c d) := by
  obtain ⟨ds, hds, hjoin⟩ := Option.bind_eq_some_iff.1 hrest
  rw [joinRuns, splitAt_append_separator h, List.mapM_cons, hread, hds]
  cases ds with
  | nil => simp [joinBy] at hjoin
  | cons e ds => simp [joinBy, hjoin]

end Separators

namespace Phrase

variable {p : Phrase}

/-! ### Reading the parts of a phrase -/

theorem atom?_column {name : String} (h : IsColumn name) :
    atom? (column name).parts = some (column name).condition := by
  have hkey : isKeyword name.toList = false := by simpa [isKeyword] using h.not_keyword
  simp [parts, atom?, condition, hkey]

theorem comparison?_keyword {op : BinaryOp} (h : op.isComparison) :
    comparison? op.keyword.toList = some op := by
  cases op <;> first | rfl | exact absurd h (by decide)

theorem atom?_test {name literal : String} {op : BinaryOp} {value : Value}
    (h : (test name op literal value).WellFormed) :
    atom? (test name op literal value).parts = some (test name op literal value).condition := by
  obtain ⟨hname, hop, hlit⟩ := h
  have hkey : isKeyword name.toList = false := by simpa [isKeyword] using hname.not_keyword
  simp [parts, atom?, condition, hkey, comparison?_keyword hop, hlit.read?]

/-- A word that is no keyword does not negate. -/
theorem negation?_word {w : List Char} (h : IsWord w) (rest : List Part) :
    negation? (.word w :: rest) = atom? (.word w :: rest) := by
  rw [negation?, if_neg (h.ne_of_isKeyword isKeyword_not)]

theorem negation?_parts (h : p.WellFormed) (hr : p.rank = 0) :
    negation? p.parts = some p.condition := by
  induction p with
  | column name => exact (negation?_word h.isWord []).trans (atom?_column h)
  | test name op literal value => exact (negation?_word h.1.isWord _).trans (atom?_test h)
  | group p => rfl
  | not p ih => simp [parts, negation?, condition, ih h.2 h.1]
  | and l r => exact absurd hr (by simp [rank])
  | or l r => exact absurd hr (by simp [rank])

theorem word_keyword_not_mem {name literal : String} {op : BinaryOp} {value : Value}
    (h : (test name op literal value).WellFormed) (sep : BinaryOp) (hs : sep.isConnective) :
    .word sep.keyword.toList ∉ (test name op literal value).parts := by
  obtain ⟨hname, hop, hlit⟩ := h
  have hkey : isKeyword sep.keyword.toList := by cases sep <;> decide
  have hop : op.keyword.toList ≠ sep.keyword.toList := by
    revert hop hs
    cases op <;> cases sep <;> decide
  simp only [parts, List.mem_cons, Part.word.injEq, List.not_mem_nil, or_false, not_or]
  exact ⟨(hname.isWord.ne_of_isKeyword hkey).symm, hop.symm,
    (hlit.isWord.ne_of_isKeyword hkey).symm⟩

theorem word_and_not_mem (h : p.WellFormed) (hr : p.rank = 0) :
    .word "and".toList ∉ p.parts := by
  induction p with
  | column name =>
    simpa [parts] using (h.isWord.ne_of_isKeyword isKeyword_and).symm
  | test name op literal value => exact word_keyword_not_mem h .and rfl
  | group p => simp [parts]
  | not p ih => simpa [parts] using ih h.2 h.1
  | and l r => exact absurd hr (by simp [rank])
  | or l r => exact absurd hr (by simp [rank])

theorem word_or_not_mem (h : p.WellFormed) (hr : p.rank ≤ 1) :
    .word "or".toList ∉ p.parts := by
  induction p with
  | column name =>
    simpa [parts] using (h.isWord.ne_of_isKeyword isKeyword_or).symm
  | test name op literal value => exact word_keyword_not_mem h .or rfl
  | group p => simp [parts]
  | not p ih =>
    have h0 : p.rank = 0 := h.1
    simpa [parts] using ih h.2 (by omega)
  | and l r ihl ihr =>
    obtain ⟨hl, hr1, hwl, hwr⟩ := h
    simpa [parts] using ⟨ihl hwl (by omega), ihr hwr hr1⟩
  | or l r => exact absurd hr (by simp [rank])

theorem conjunction?_parts (h : p.WellFormed) (hr : p.rank ≤ 1) :
    conjunction? p.parts = some p.condition := by
  have hunary {q : Phrase} (hq : q.WellFormed) (h0 : q.rank = 0) :
      conjunction? q.parts = some q.condition :=
    joinRuns_of_not_mem (word_and_not_mem hq h0) (negation?_parts hq h0)
  induction p with
  | and l r ihl ihr =>
    obtain ⟨hl, hr1, hwl, hwr⟩ := h
    exact joinRuns_append (word_and_not_mem hwl hl) (negation?_parts hwl hl) (ihr hwr hr1)
  | or l r => exact absurd hr (by simp [rank])
  | column | test | group | not => exact hunary h rfl

theorem disjunction?_parts (h : p.WellFormed) : disjunction? p.parts = some p.condition := by
  have hterm {q : Phrase} (hq : q.WellFormed) (h1 : q.rank ≤ 1) :
      disjunction? q.parts = some q.condition :=
    joinRuns_of_not_mem (word_or_not_mem hq h1) (conjunction?_parts hq h1)
  induction p with
  | or l r ihl ihr =>
    obtain ⟨hl, hwl, hwr⟩ := h
    exact joinRuns_append (word_or_not_mem hwl hl) (conjunction?_parts hwl hl) (ihr hwr)
  | column | test | group | not | and => exact hterm h (by simp [rank])

/-! ### From the text to its parts -/

theorem text_ne_nil (h : p.WellFormed) : p.text ≠ [] := by
  cases p with
  | column name => exact h.isWord.ne_nil
  | test | and | or => simp [text, joinedChars]
  | group | not => simp [text, Filter.group]

theorem conditionFrom_word {w rest : List Char} (hw : IsWord w) (hr : AtBreak rest)
    (current : List Part) (outer : List (List Part)) :
    conditionFrom current outer (tokensFrom false [] (w ++ rest)) =
      conditionFrom (current ++ [.word w]) outer (tokensFrom false [] rest) := by
  rw [tokensFrom_word hw hr, conditionFrom]

/-- A keyword between blanks. -/
theorem conditionFrom_keyword {w rest : List Char} (hne : w ≠ []) (hrun : IsRun w)
    (current : List Part) (outer : List (List Part)) :
    conditionFrom current outer (tokensFrom false [] (w ++ ' ' :: rest)) =
      conditionFrom (current ++ [.word w]) outer (tokensFrom false [] rest) := by
  rw [tokensFrom_keyword hne hrun (atBreak_cons rfl rest), conditionFrom]
  simp [tokensFrom, flush]

theorem conditionFrom_blank (rest : List Char) (current : List Part) (outer : List (List Part)) :
    conditionFrom current outer (tokensFrom false [] (' ' :: rest)) =
      conditionFrom current outer (tokensFrom false [] rest) := by
  simp [tokensFrom, flush]

theorem conditionFrom_opening (rest : List Char) (current : List Part)
    (outer : List (List Part)) :
    conditionFrom current outer (tokensFrom false [] ('(' :: rest)) =
      conditionFrom [] (current :: outer) (tokensFrom false [] rest) := by
  simp [tokensFrom, flush, conditionFrom]

theorem conditionFrom_closing (rest : List Char) (current level : List Part)
    (outer : List (List Part)) :
    conditionFrom current (level :: outer) (tokensFrom false [] (')' :: rest)) =
      (disjunction? current).bind fun c =>
        conditionFrom (level ++ [.group c]) outer (tokensFrom false [] rest) := by
  simp [tokensFrom, flush, conditionFrom]

theorem isRun_keyword (op : BinaryOp) : op.keyword.toList ≠ [] ∧ IsRun op.keyword.toList := by
  cases op <;> decide

/-- Reading the text of a phrase adds its parts to the level of parentheses it stands on. -/
theorem conditionFrom_text (h : p.WellFormed) {rest : List Char} (hr : AtBreak rest)
    (current : List Part) (outer : List (List Part)) :
    conditionFrom current outer (tokensFrom false [] (p.text ++ rest)) =
      conditionFrom (current ++ p.parts) outer (tokensFrom false [] rest) := by
  induction p generalizing rest current outer with
  | column name => exact conditionFrom_word h.isWord hr current outer
  | test name op literal value =>
    obtain ⟨hname, hop, hlit⟩ := h
    simp only [text, joinedChars, List.append_assoc, List.cons_append]
    rw [conditionFrom_word hname.isWord (atBreak_cons rfl _), conditionFrom_blank,
      conditionFrom_keyword (isRun_keyword op).1 (isRun_keyword op).2,
      conditionFrom_word hlit.isWord hr]
    simp [parts]
  | group p ih =>
    have hin : p.WellFormed := h
    simp only [text, Filter.group, List.append_assoc, List.cons_append, List.nil_append]
    rw [conditionFrom_opening, ih hin (atBreak_cons rfl _), conditionFrom_closing, List.nil_append,
      disjunction?_parts hin]
    rfl
  | not p ih =>
    simp only [text, List.append_assoc, List.cons_append]
    rw [conditionFrom_keyword (by decide) (by decide), ih h.2 hr]
    simp [parts]
  | and l r ihl ihr =>
    obtain ⟨-, -, hwl, hwr⟩ := h
    simp only [text, joinedChars, List.append_assoc, List.cons_append]
    rw [ihl hwl (atBreak_cons rfl _), conditionFrom_blank,
      conditionFrom_keyword (isRun_keyword .and).1 (isRun_keyword .and).2, ihr hwr hr]
    simp [parts, BinaryOp.keyword]
  | or l r ihl ihr =>
    obtain ⟨-, hwl, hwr⟩ := h
    simp only [text, joinedChars, List.append_assoc, List.cons_append]
    rw [ihl hwl (atBreak_cons rfl _), conditionFrom_blank,
      conditionFrom_keyword (isRun_keyword .or).1 (isRun_keyword .or).2, ihr hwr hr]
    simp [parts, BinaryOp.keyword]

/-- The text of a well-formed phrase means what the phrase means. -/
theorem condition?_text (h : p.WellFormed) : condition? p.text = some p.condition := by
  have hread := conditionFrom_text h atBreak_nil [] []
  rw [List.append_nil, List.nil_append] at hread
  rw [condition?, tokens, hread]
  exact disjunction?_parts h

theorem accepts_text (h : p.WellFormed) {t : String} (ht : t.toList = p.text) (row : Value) :
    accepts t row = p.holds row := by
  simp [accepts, ht, condition?_text h, holds]

end Phrase

end TableClient.Filter
