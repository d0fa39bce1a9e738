import TableClient.Proofs.Filter.Conjunction
import TableClient.Proofs.Filter.OuterWord
import TableClient.Proofs.Text.Blank

/-! Well-formed filter texts: words without blanks outside quotes, closed quotes, single spaces and
parentheses, which spell a condition. Such a text means the same without the spaces around it and with
parentheses around it, and two of them can be joined by `and` if each is in parentheses where it has an
`or`. -/

namespace TableClient.Filter

variable {quoted blank after : Bool} {cs ds : List Char} {x y : Condition}

/-- Whether the last character of a text is a space outside quotes, given the same of the character before
it. There is no answer if a quote is left open, or if there is a blank outside quotes that is not a single
space. -/
def blankAfter (quoted blank : Bool) : List Char → Option Bool
  | [] => if quoted then none else some blank
  | c :: cs =>
    if quoted then blankAfter (c ≠ '\x27') false cs
    else if c = '\x27' then blankAfter true false cs
    else if c = ' ' then if blank then none else blankAfter false true cs
    else if Text.isBlank c then none
    else blankAfter false false cs

/-- A filter text that the store understands. -/
structure IsWellFormed (cs : List Char) : Prop where
  spaced : (blankAfter false false cs).isSome
  read : (condition? cs).isSome

instance (cs : List Char) : Decidable (IsWellFormed cs) :=
  decidable_of_iff ((blankAfter false false cs).isSome ∧ (condition? cs).isSome)
    ⟨fun h => ⟨h.1, h.2⟩, fun h => ⟨h.1, h.2⟩⟩

/-- Spaced singly, with no space at either end. -/
def IsNeat (cs : List Char) : Prop :=
  blankAfter false true cs = some false

/-! ### Spaces -/

theorem blankAfter_nil (h : blankAfter quoted blank [] = some after) :
    quoted = false ∧ blank = after := by
  cases quoted with
  | true => cases h
  | false => exact ⟨rfl, Option.some_inj.1 h⟩

/-- What the first character of a text can be. -/
theorem blankAfter_cons {c : Char} (h : blankAfter quoted blank (c :: cs) = some after) :
    (quoted = true ∧ blankAfter (c ≠ '\x27') false cs = some after) ∨
      (quoted = false ∧ c = '\x27' ∧ blankAfter true false cs = some after) ∨
      (quoted = false ∧ c = ' ' ∧ blank = false ∧ blankAfter false true cs = some after) ∨
      (quoted = false ∧ c ≠ '\x27' ∧ Text.isBlank c = false ∧
        blankAfter false false cs = some after) := by
  rw [blankAfter] at h
  cases quoted with
  | true => exact .inl ⟨rfl, by simpa using h⟩
  | false =>
    rw [if_neg Bool.false_ne_true] at h
    by_cases hquote : c = '\x27'
    · rw [if_pos hquote] at h
      exact .inr (.inl ⟨rfl, hquote, h⟩)
    · rw [if_neg hquote] at h
      by_cases hspace : c = ' '
      · rw [if_pos hspace] at h
        split at h
        · cases h
        next hb => exact .inr (.inr (.inl ⟨rfl, hspace, by simpa using hb, h⟩))
      · rw [if_neg hspace] at h
        split at h
        · cases h
        next hb => exact .inr (.inr (.inr ⟨rfl, hquote, by simpa using hb, h⟩))

/-- A character that is no blank and no quote. -/
theorem blankAfter_cons_of_not_blank {c : Char} (hquote : c ≠ '\x27') (hblank : Text.isBlank c = false)
    (blank : Bool) (cs : List Char) :
    blankAfter false blank (c :: cs) = blankAfter false false cs := by
  have hspace : c ≠ ' ' := by
    rintro rfl
    exact absurd hblank (by decide)
  rw [blankAfter, if_neg Bool.false_ne_true, if_neg hquote, if_neg hspace,
    if_neg (by simp [hblank])]

theorem blankAfter_append (h : blankAfter quoted blank cs = some after) (ds : List Char) :
    blankAfter quoted blank (cs ++ ds) = blankAfter false after ds := by
  induction cs generalizing quoted blank with
  | nil =>
    obtain ⟨rfl, rfl⟩ := blankAfter_nil h
    rfl
  | cons c cs ih =>
    rw [List.cons_append]
    rcases blankAfter_cons h with ⟨rfl, h⟩ | ⟨rfl, rfl, h⟩ | ⟨rfl, rfl, rfl, h⟩ | ⟨rfl, hquote, hb, h⟩
    · rw [blankAfter, if_pos rfl]
      exact ih h
    · exact ih h
    · exact ih h
    · rw [blankAfter_cons_of_not_blank hquote hb]
      exact ih h

/-- A text can be cut before a part without quotes. -/
theorem exists_of_blankAfter_append (hds : '\x27' ∉ ds)
    (h : blankAfter quoted blank (cs ++ ds) = some after) :
    ∃ between, blankAfter quoted blank cs = some between ∧
      blankAfter false between ds = some after := by
  induction cs generalizing quoted blank with
  | nil =>
    cases quoted with
    | false => exact ⟨blank, rfl, h⟩
    | true =>
      -- the quote would stay open
      have hopen {es : List Char} (hes : '\x27' ∉ es) (b : Bool) : blankAfter true b es = none := by
        induction es generalizing b with
        | nil => rfl
        | cons e es ih =>
          rw [List.mem_cons, not_or] at hes
          rw [blankAfter, if_pos rfl, decide_eq_true (Ne.symm hes.1)]
          exact ih hes.2 false
      rw [List.nil_append, hopen hds] at h
      cases h
  | cons c cs ih =>
    rw [List.cons_append] at h
    rcases blankAfter_cons h with ⟨rfl, h⟩ | ⟨rfl, rfl, h⟩ | ⟨rfl, rfl, rfl, h⟩ | ⟨rfl, hquote, hb, h⟩
    · rw [blankAfter, if_pos rfl]
      exact ih h
    · exact ih h
    · exact ih h
    · rw [blankAfter_cons_of_not_blank hquote hb]
      exact ih h

theorem quotedAfter_of_blankAfter (h : blankAfter quoted blank cs = some after) :
    quotedAfter quoted cs = false := by
  induction cs generalizing quoted blank with
  | nil => exact (blankAfter_nil h).1
  | cons c cs ih =>
    rcases blankAfter_cons h with ⟨rfl, h⟩ | ⟨rfl, rfl, h⟩ | ⟨rfl, rfl, rfl, h⟩ | ⟨rfl, hquote, hb, h⟩
    · rw [quotedAfter_true_cons]
      exact ih h
    · exact ih h
    · exact ih h
    · rw [quotedAfter, if_neg hquote]
      exact ih h

/-- What stands before a text matters only to a space at its start. -/
theorem blankAfter_of_head (hne : cs ≠ []) (hhead : ∀ c ∈ cs.head?, Text.isBlank c = false)
    (blank other : Bool) : blankAfter false blank cs = blankAfter false other cs := by
  obtain ⟨c, cs, rfl⟩ := List.exists_cons_of_ne_nil hne
  have hc := hhead c rfl
  by_cases hquote : c = '\x27'
  · rw [hquote]
    rfl
  · rw [blankAfter_cons_of_not_blank hquote hc, blankAfter_cons_of_not_blank hquote hc]

/-- A text that does not end with a blank does not end with a space. -/
theorem blankAfter_of_last (hne : cs ≠ []) (hlast : ∀ c ∈ cs.getLast?, Text.isBlank c = false)
    (h : blankAfter quoted blank cs = some after) : after = false := by
  induction cs generalizing quoted blank with
  | nil => exact absurd rfl hne
  | cons c cs ih =>
    cases cs with
    | nil =>
      have hc := hlast c rfl
      rcases blankAfter_cons h with ⟨-, h⟩ | ⟨-, -, ⟨⟩⟩ | ⟨-, rfl, -, -⟩ | ⟨-, -, -, h⟩
      · exact (blankAfter_nil h).2.symm
      · exact absurd hc (by decide)
      · exact (blankAfter_nil h).2.symm
    | cons d ds =>
      rw [List.getLast?_cons_cons] at hlast
      have hrest {quoted blank : Bool} (h : blankAfter quoted blank (d :: ds) = some after) :
          after = false := ih (List.cons_ne_nil d ds) hlast h
      rcases blankAfter_cons h with ⟨-, h⟩ | ⟨-, -, h⟩ | ⟨-, -, -, h⟩ | ⟨-, -, -, h⟩
      · exact hrest h
      · exact hrest h
      · exact hrest h
      · exact hrest h

/-! ### Neat texts -/

theorem IsNeat.ne_nil (h : IsNeat cs) : cs ≠ [] := by
  rintro rfl
  cases h

theorem IsNeat.quotedAfter (h : IsNeat cs) : quotedAfter false cs = false :=
  quotedAfter_of_blankAfter h

/-- A neat text may also stand where no space is before it. -/
theorem IsNeat.blankAfter (h : IsNeat cs) (blank : Bool) :
    blankAfter false blank cs = some false := by
  obtain ⟨c, cs, rfl⟩ := List.exists_cons_of_ne_nil h.ne_nil
  rcases blankAfter_cons h with ⟨⟨⟩, -⟩ | ⟨-, rfl, hrest⟩ | ⟨-, -, ⟨⟩, -⟩ | ⟨-, hquote, hb, hrest⟩
  · exact hrest
  · rw [blankAfter_cons_of_not_blank hquote hb]
    exact hrest

theorem isNeat_group (h : IsNeat cs) : IsNeat (group cs) := by
  show blankAfter false false (cs ++ [')']) = some false
  rw [blankAfter_append (h.blankAfter false)]
  rfl

theorem isNeat_groupForAnd (h : IsNeat cs) : IsNeat (groupForAnd cs) := by
  rw [groupForAnd]
  split
  · exact isNeat_group h
  · exact h

theorem isNeat_joinedChars (op : BinaryOp) (h : IsNeat cs) (hd : IsNeat ds) :
    IsNeat (joinedChars op cs ds) := by
  have hkeyword : blankAfter false true op.keyword.toList = some false := by
    cases op <;> decide
  rw [IsNeat, joinedChars, blankAfter_append h]
  show blankAfter false true (op.keyword.toList ++ ' ' :: ds) = some false
  rw [blankAfter_append hkeyword]
  exact hd

theorem IsNeat.isWellFormed (h : IsNeat cs) (hx : condition? cs = some x) : IsWellFormed cs :=
  ⟨by rw [h.blankAfter]; rfl, by rw [hx]; rfl⟩

/-! ### Spaces around a text -/

/-- Blanks at the start of a text are spaces, and no tokens. -/
theorem exists_of_blankAfter_lead {lead : List Char} (hlead : ∀ c ∈ lead, Text.isBlank c)
    (h : blankAfter false blank (lead ++ cs) = some after) :
    ∃ before, blankAfter false before cs = some after ∧ tokens (lead ++ cs) = tokens cs := by
  induction lead generalizing blank with
  | nil => exact ⟨blank, h, rfl⟩
  | cons c lead ih =>
    have hc := hlead c List.mem_cons_self
    rw [List.cons_append] at h ⊢
    rcases blankAfter_cons h with ⟨⟨⟩, -⟩ | ⟨-, rfl, -⟩ | ⟨-, rfl, -, hrest⟩ | ⟨-, -, hb, -⟩
    · exact absurd hc (by decide)
    · rw [tokens_blank]
      exact ih (fun d hd => hlead d (List.mem_cons_of_mem _ hd)) hrest
    · rw [hb] at hc
      cases hc

/-- Blanks at the end of a text are spaces, and no tokens. -/
theorem tokens_append_trail {trail : List Char} (htrail : ∀ c ∈ trail, Text.isBlank c)
    (hquoted : quotedAfter false cs = false) (h : blankAfter false blank trail = some after) :
    tokens (cs ++ trail) = tokens cs := by
  cases trail with
  | nil => rw [List.append_nil]
  | cons c trail =>
    have hc := htrail c List.mem_cons_self
    have hrest {b : Bool} (hb : blankAfter false b trail = some after) : tokens trail = [] := by
      have hlead : ∀ d ∈ trail, Text.isBlank d := fun d hd => htrail d (List.mem_cons_of_mem _ hd)
      rw [← List.append_nil trail] at hb ⊢
      obtain ⟨-, -, htokens⟩ := exists_of_blankAfter_lead hlead hb
      exact htokens
    rcases blankAfter_cons h with ⟨⟨⟩, -⟩ | ⟨-, rfl, -⟩ | ⟨-, rfl, -, hb⟩ | ⟨-, -, hb, -⟩
    · exact absurd hc (by decide)
    · rw [tokens, tokensFrom_append_break hquoted rfl, hrest hb]
      exact List.append_nil _
    · rw [hb] at hc
      cases hc

theorem trim_spec (h : blankAfter false blank cs = some after) (hne : Text.trim cs ≠ []) :
    IsNeat (Text.trim cs) ∧ tokens (Text.trim cs) = tokens cs := by
  have htight := Text.isTight_trim hne
  obtain ⟨lead, trail, hcs, hlead, htrail⟩ := Text.exists_trim cs
  have hquote : '\x27' ∉ trail := fun hmem => absurd (htrail _ hmem) (by decide)
  have hwhole := h
  rw [hcs] at hwhole
  obtain ⟨before, hrest, htokens⟩ := exists_of_blankAfter_lead hlead hwhole
  obtain ⟨between, hcore, hlast⟩ := exists_of_blankAfter_append hquote hrest
  have hbetween := blankAfter_of_last htight.ne_nil htight.last hcore
  constructor
  · rw [IsNeat, blankAfter_of_head htight.ne_nil htight.head true before, hcore, hbetween]
  · have hend := tokens_append_trail htrail (quotedAfter_of_blankAfter hcore) hlast
    rw [← hend, ← htokens, ← hcs]

/-- Without the blanks around it a well-formed text is neat, and means the same. -/
theorem IsWellFormed.trim (h : IsWellFormed cs) :
    IsNeat (Text.trim cs) ∧ condition? (Text.trim cs) = condition? cs := by
  obtain ⟨after, hafter⟩ := Option.isSome_iff_exists.1 h.spaced
  have hne : Text.trim cs ≠ [] := by
    intro hnil
    -- a text of blanks has no tokens, and spells no condition
    obtain ⟨lead, trail, hcs, hlead, htrail⟩ := Text.exists_trim cs
    have hblank : ∀ c ∈ cs, Text.isBlank c := by
      intro c hc
      rw [hcs, hnil, List.nil_append, List.mem_append] at hc
      exact hc.elim (hlead c) (htrail c)
    rw [← List.append_nil cs] at hafter
    obtain ⟨-, -, htokens⟩ := exists_of_blankAfter_lead hblank hafter
    rw [List.append_nil] at htokens
    have hread := h.read
    rw [condition?, htokens] at hread
    cases hread
  obtain ⟨hneat, htokens⟩ := trim_spec hafter hne
  exact ⟨hneat, by rw [condition?, condition?, htokens]⟩

/-! ### Joining -/

/-- A side of an `and` in the form in which it is joined: a level without an `or`. -/
theorem exists_level_groupForAnd (h : IsNeat cs) (hx : condition? cs = some x) :
    ∃ ps, IsLevel (tokens (groupForAnd cs)) ps ∧ .word "or".toList ∉ ps ∧ conjunction? ps = some x := by
  obtain ⟨ps, hlevel, hps⟩ := condition?_eq_some_iff.1 hx
  rw [groupForAnd]
  split
  next =>
    refine ⟨[.group x], ?_, by simp, rfl⟩
    rw [tokens_group h.quotedAfter]
    exact .group hlevel hps .nil
  next hor =>
    have hmem := or_not_mem_of_hasTopLevelOr h.quotedAfter (Bool.eq_false_iff.2 hor) hlevel
    exact ⟨ps, hlevel, hmem, by rwa [← disjunction?_of_not_mem hmem]⟩

/-- Two neat texts joined by `and` are a neat text that holds where both do. -/
theorem conjoin_spec {s t : String} (hs : IsNeat s.toList) (ht : IsNeat t.toList)
    (hx : condition? s.toList = some x) (hy : condition? t.toList = some y) :
    IsNeat (Plan.conjoin s t).toList ∧ ∃ z, condition? (Plan.conjoin s t).toList = some z ∧
      ∀ row, z.holds row = (x.holds row && y.holds row) := by
  obtain ⟨ps, hps, hpor, hpx⟩ := exists_level_groupForAnd hs hx
  obtain ⟨qs, hqs, hqor, hqy⟩ := exists_level_groupForAnd ht hy
  have hsneat := isNeat_groupForAnd hs
  rw [Plan.toList_conjoin]
  refine ⟨isNeat_joinedChars .and hsneat (isNeat_groupForAnd ht), ?_⟩
  obtain ⟨z, hz, hholds⟩ := conjunction?_append hpx hqy
  refine ⟨z, ?_, hholds⟩
  have hor : .word "or".toList ∉ ps ++ .word "and".toList :: qs := by
    rw [List.mem_append, List.mem_cons]
    rintro (hmem | hand | hmem)
    · exact hpor hmem
    · exact absurd (Part.word.inj hand) (by decide)
    · exact hqor hmem
  rw [condition?_eq_some_iff, tokens_joinedChars .and hsneat.quotedAfter]
  exact ⟨_, hps.append (.word _ hqs), (disjunction?_of_not_mem hor).trans hz⟩

end TableClient.Filter
