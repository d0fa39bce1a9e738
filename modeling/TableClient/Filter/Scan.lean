import TableClient.Text.Cut

/-! Scans of filter texts for the two facts about grouping that joining them needs: whether an `or`
stands outside all parentheses, and whether one pair of parentheses encloses the whole. Characters
between quotes count for neither. -/

namespace TableClient.Filter

/-- The characters that end a word outside quotes. -/
def isBreak (c : Char) : Bool :=
  c = '(' || c = ')' || c = ' '

/-- The depth of parentheses after a character. Closing more than was opened leaves it at zero. -/
def depthAfter (depth : Nat) (c : Char) : Nat :=
  if c = '(' then depth + 1 else if c = ')' then depth - 1 else depth

/-- Looks for the word `or` at depth zero, with the depth so far, whether a quote is open, and the
characters of the word so far. -/
def scanOr (depth : Nat) (quoted : Bool) (word : List Char) : List Char → Bool
  | [] => depth = 0 && !quoted && word = ['o', 'r']
  | c :: cs =>
    if quoted then scanOr depth (c ≠ '\x27') word cs
    else if c = '\x27' then scanOr depth true [] cs
    else if isBreak c then
      (depth = 0 && word = ['o', 'r']) || scanOr (depthAfter depth c) false [] cs
    else scanOr depth false (word ++ [c]) cs

/-- Whether an `or` stands outside parentheses and quotes. -/
def hasTopLevelOr (cs : List Char) : Bool :=
  scanOr 0 false [] cs

/-- Whether the parenthesis that brings the depth back to zero is the last character. -/
def closesAtEnd (depth : Nat) (quoted : Bool) : List Char → Bool
  | [] => false
  | c :: cs =>
    if quoted then closesAtEnd depth (c ≠ '\x27') cs
    else if c = '\x27' then closesAtEnd depth true cs
    else if c = ')' && depth - 1 = 0 then cs.isEmpty
    else closesAtEnd (depthAfter depth c) false cs

/-- Whether one pair of parentheses encloses the whole text. -/
def isGrouped (cs : List Char) : Bool :=
  cs.head? = some '(' && cs.getLast? = some ')' && closesAtEnd 0 false cs

/-- Puts a text into parentheses. -/
def group (cs : List Char) : List Char :=
  '(' :: cs ++ [')']

/-- A side of an `and`: in parentheses if it has an `or` on its top level, the only connective that
binds less than `and`. -/
def groupForAnd (cs : List Char) : List Char :=
  if hasTopLevelOr cs then group cs else cs

/-- The text within the outermost characters, without blanks around it. -/
def inner (cs : List Char) : List Char :=
  Text.trim cs.tail.dropLast

theorem length_inner_lt {cs : List Char} (h : isGrouped cs) : (inner cs).length < cs.length := by
  have cut : ∀ ds : List Char, (Text.trimLeft ds).length ≤ ds.length := fun ds =>
    (List.dropWhile_sublist _).length_le
  have whole : (inner cs).length ≤ cs.tail.dropLast.length := by
    have left := cut cs.tail.dropLast
    have right := cut (Text.trimLeft cs.tail.dropLast).reverse
    simp only [List.length_reverse] at right
    simp only [inner, Text.trim, Text.trimRight, List.length_reverse]
    omega
  cases cs with
  | nil => simp [isGrouped] at h
  | cons c cs => simp only [List.tail_cons, List.length_dropLast] at whole; simp; omega

/-- Takes off parentheses that enclose the whole text, as often as there are. -/
def ungroup (cs : List Char) : List Char :=
  if _h : isGrouped cs then ungroup (inner cs) else cs
termination_by cs.length
decreasing_by exact length_inner_lt ‹_›

/-- The text without blanks and parentheses around the whole. -/
def stripOuter (cs : List Char) : List Char :=
  ungroup (Text.trim cs)

end TableClient.Filter
