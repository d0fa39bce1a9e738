import TableClient.Proofs.Filter.Balance
import TableClient.Proofs.Text.Blank

/-! Gaps: texts with a place in which the literal of a text may stand, whichever text it is. Quotes are
closed around the place and a break stands at each side of it. Whatever is in the literal, the scanners find
the same parentheses and the same `or` around it, trimming and ungrouping cut the same characters, and it is
one token. -/

namespace TableClient.Filter

open Literal (doubleQuotes)

def QuotesClosed (cs : List Char) : Prop :=
  quotedAfter false cs = false

namespace QuotesClosed

variable {cs ds : List Char}

theorem nil : QuotesClosed [] := rfl

theorem of_not_mem (h : '\x27' ∉ cs) : QuotesClosed cs :=
  quotedAfter_of_not_mem h false

theorem append (h : QuotesClosed cs) (hd : QuotesClosed ds) : QuotesClosed (cs ++ ds) := by
  rw [QuotesClosed, quotedAfter_append, h, hd]

theorem keyword (op : BinaryOp) : QuotesClosed op.keyword.toList := by
  cases op <;> rfl

theorem joinedChars (op : BinaryOp) (h : QuotesClosed cs) (hd : QuotesClosed ds) :
    QuotesClosed (joinedChars op cs ds) :=
  h.append ((keyword op).append hd)

theorem group (h : QuotesClosed cs) : QuotesClosed (group cs) :=
  h.append rfl

/-- What stands before a text without quotes closes its own. -/
theorem of_append_left (h : QuotesClosed (cs ++ ds)) (hd : '\x27' ∉ ds) : QuotesClosed cs := by
  rwa [QuotesClosed, quotedAfter_append, quotedAfter_of_not_mem hd] at h

theorem of_append_right (h : QuotesClosed (cs ++ ds)) (hc : '\x27' ∉ cs) : QuotesClosed ds := by
  rwa [QuotesClosed, quotedAfter_append, quotedAfter_of_not_mem hc] at h

end QuotesClosed

def literalChars (s : String) : List Char :=
  '\x27' :: (doubleQuotes s.toList ++ ['\x27'])

theorem ofList_literalChars (s : String) :
    String.ofList (literalChars s) = Literal.marked "" (doubleQuotes s.toList) := by
  simp [literalChars, Literal.marked]

theorem read_literalChars (s : String) :
    Literal.read (String.ofList (literalChars s)) = .ok (.string s) := by
  rw [ofList_literalChars, Literal.read, (Literal.spells_string s).read?]

theorem isWord_literalChars (s : String) : IsWord (literalChars s) :=
  @IsWord.quoted [] s.toList (by decide)

theorem getLast?_literalChars (s : String) : (literalChars s).getLast? = some '\x27' := by
  rw [literalChars, ← List.cons_append, List.getLast?_concat]

/-! ### Scanners before a literal -/

section Congr

variable {quoted : Bool} {cs u v : List Char}

/-- Two texts that differ only after closed quotes have the same `or` if what differs has. -/
theorem scanOr_append_congr (h : quotedAfter quoted cs = false)
    (huv : ∀ depth word, scanOr depth false word u = scanOr depth false word v) (depth : Nat)
    (word : List Char) : scanOr depth quoted word (cs ++ u) = scanOr depth quoted word (cs ++ v) := by
  induction cs generalizing quoted depth word with
  | nil =>
    obtain rfl : quoted = false := h
    exact huv depth word
  | cons c cs ih =>
    rw [List.cons_append, List.cons_append, scanOr, scanOr]
    cases quoted with
    | true =>
      rw [quotedAfter_true_cons] at h
      rw [if_pos rfl, if_pos rfl]
      exact ih h depth word
    | false =>
      rw [quotedAfter] at h
      rw [if_neg Bool.false_ne_true, if_neg Bool.false_ne_true]
      split
      next hc =>
        rw [if_pos hc] at h
        exact ih h depth []
      next hc =>
        rw [if_neg hc] at h
        rw [ih h, ih h]

theorem closesAtEnd_append_congr (h : quotedAfter quoted cs = false) (hu : u ≠ []) (hv : v ≠ [])
    (huv : ∀ depth, closesAtEnd depth false u = closesAtEnd depth false v) (depth : Nat) :
    closesAtEnd depth quoted (cs ++ u) = closesAtEnd depth quoted (cs ++ v) := by
  induction cs generalizing quoted depth with
  | nil =>
    obtain rfl : quoted = false := h
    exact huv depth
  | cons c cs ih =>
    rw [List.cons_append, List.cons_append, closesAtEnd, closesAtEnd]
    cases quoted with
    | true =>
      rw [quotedAfter_true_cons] at h
      rw [if_pos rfl, if_pos rfl]
      exact ih h depth
    | false =>
      rw [quotedAfter] at h
      rw [if_neg Bool.false_ne_true, if_neg Bool.false_ne_true]
      split
      next hc =>
        rw [if_pos hc] at h
        exact ih h depth
      next hc =>
        rw [if_neg hc] at h
        have hempty : (cs ++ u).isEmpty = (cs ++ v).isEmpty := by
          rw [List.isEmpty_eq_false_iff.2 (by simp [hu]), List.isEmpty_eq_false_iff.2 (by simp [hv])]
        rw [ih h, hempty]

end Congr

theorem scanOr_literalChars (s : String) {rest : List Char} (depth : Nat) (word : List Char) :
    scanOr depth false word (literalChars s ++ rest) = scanOr depth false [] rest := by
  simp [literalChars, scanOr, scanOr_doubleQuotes]

theorem closesAtEnd_literalChars (s : String) (depth : Nat) (rest : List Char) :
    closesAtEnd depth false (literalChars s ++ rest) = closesAtEnd depth false rest :=
  closesAtEnd_word (isWord_literalChars s) depth rest

/-! ### Gaps -/

structure Gap where
  before : List Char
  after : List Char
  closed_before : QuotesClosed before
  closed_after : QuotesClosed after
  opens : ∀ c ∈ before.getLast?, isBreak c
  closes : AtBreak after

namespace Gap

theorem opens_nil : ∀ c ∈ ([] : List Char).getLast?, isBreak c := by
  rintro c ⟨⟩

def bare : Gap := ⟨[], [], .nil, .nil, opens_nil, atBreak_nil⟩

variable (g : Gap) (s t : String)

/-- The text with the literal of another text in the gap. -/
def fill : List Char := g.before ++ (literalChars s ++ g.after)

theorem fill_ne_nil : g.fill s ≠ [] := by
  simp [fill, literalChars]

theorem hasTopLevelOr_fill : hasTopLevelOr (g.fill s) = hasTopLevelOr (g.fill t) := by
  refine scanOr_append_congr g.closed_before ?_ 0 []
  intro depth word
  rw [scanOr_literalChars, scanOr_literalChars]

theorem head?_fill : (g.fill s).head? = (g.fill t).head? := by
  rw [fill, fill]
  cases g.before <;> rfl

theorem getLast?_fill : (g.fill s).getLast? = (g.fill t).getLast? := by
  have hlast (s : String) : (g.fill s).getLast? = g.after.getLast?.or (some '\x27') := by
    rw [fill, List.getLast?_append, List.getLast?_append, getLast?_literalChars]
    cases g.after.getLast? <;> rfl
  rw [hlast, hlast]

theorem isGrouped_fill : isGrouped (g.fill s) = isGrouped (g.fill t) := by
  have hclose : closesAtEnd 0 false (g.fill s) = closesAtEnd 0 false (g.fill t) := by
    refine closesAtEnd_append_congr g.closed_before (by simp [literalChars])
      (by simp [literalChars]) ?_ 0
    intro depth
    rw [closesAtEnd_literalChars, closesAtEnd_literalChars]
  rw [isGrouped, isGrouped, g.head?_fill s t, g.getLast?_fill s t, hclose]

/-- The literal is one token, and the others are those around it. -/
theorem tokens_fill :
    tokens (g.fill s) = tokens g.before ++ .word (literalChars s) :: tokens g.after := by
  have hword : tokens (literalChars s ++ g.after) = .word (literalChars s) :: tokens g.after :=
    tokensFrom_word (isWord_literalChars s) g.closes
  rcases List.eq_nil_or_concat g.before with hnil | ⟨cs, c, hcs⟩
  · rw [fill, hnil, List.nil_append, hword]
    rfl
  · have hc : isBreak c := g.opens c (by rw [hcs, List.concat_eq_append, List.getLast?_concat]; rfl)
    have hquote : '\x27' ∉ [c] := by
      rw [List.mem_singleton]
      rintro rfl
      exact absurd hc (by decide)
    have hclosed : QuotesClosed cs := by
      have hbefore := g.closed_before
      rw [hcs, List.concat_eq_append] at hbefore
      exact hbefore.of_append_left hquote
    have htokens (rest : List Char) : tokens (cs ++ c :: rest) = tokens cs ++ (breakTokens c ++ tokens rest) :=
      tokensFrom_append_break hclosed hc [] rest
    have hnil : tokens [] = [] := rfl
    rw [fill, hcs, List.concat_eq_append, List.append_assoc, List.singleton_append, htokens, htokens,
      hword, hnil]
    simp

/-! ### Texts around a gap -/

def within (l r : List Char) (hl : QuotesClosed l) (hr : QuotesClosed r)
    (hopens : ∀ c ∈ l.getLast?, isBreak c) (hcloses : AtBreak r) : Gap where
  before := l ++ g.before
  after := g.after ++ r
  closed_before := hl.append g.closed_before
  closed_after := g.closed_after.append hr
  opens := by
    intro c hc
    rw [List.getLast?_append] at hc
    cases hlast : g.before.getLast? with
    | none => exact hopens c (by rwa [hlast] at hc)
    | some d => exact g.opens c (by rwa [hlast] at hc ⊢)
  closes := by
    intro c hc
    rw [List.head?_append] at hc
    cases hhead : g.after.head? with
    | none => exact hcloses c (by rwa [hhead] at hc)
    | some d => exact g.closes c (by rwa [hhead] at hc ⊢)

theorem fill_within {l r : List Char} {hl : QuotesClosed l} {hr : QuotesClosed r}
    {hopens : ∀ c ∈ l.getLast?, isBreak c} {hcloses : AtBreak r} :
    (g.within l r hl hr hopens hcloses).fill s = l ++ (g.fill s ++ r) := by
  simp [fill, within]

def joinedLeft (op : BinaryOp) (r : List Char) (hr : QuotesClosed r) : Gap :=
  g.within [] (' ' :: (op.keyword.toList ++ ' ' :: r)) .nil ((QuotesClosed.keyword op).append hr)
    opens_nil (atBreak_cons rfl _)

theorem fill_joinedLeft {op : BinaryOp} {r : List Char} {hr : QuotesClosed r} :
    (g.joinedLeft op r hr).fill s = joinedChars op (g.fill s) r :=
  g.fill_within s

def joinedRight (op : BinaryOp) (l : List Char) (hl : QuotesClosed l) : Gap :=
  g.within (joinedChars op l []) [] (hl.joinedChars op .nil) .nil
    (by
      intro c hc
      rw [joinedChars, ← List.cons_append, ← List.append_assoc, List.getLast?_concat] at hc
      cases hc
      rfl)
    atBreak_nil

theorem fill_joinedRight {op : BinaryOp} {l : List Char} {hl : QuotesClosed l} :
    (g.joinedRight op l hl).fill s = joinedChars op l (g.fill s) := by
  rw [joinedRight, fill_within]
  simp [joinedChars]

def grouped : Gap :=
  g.within ['('] [')'] (.of_not_mem (by decide)) (.of_not_mem (by decide)) (by rintro c ⟨⟩; rfl)
    (atBreak_cons rfl _)

theorem fill_grouped : g.grouped.fill s = group (g.fill s) :=
  g.fill_within s

def negated : Gap :=
  g.within ("not".toList ++ [' ']) [] (.of_not_mem (by decide)) .nil (by rintro c ⟨⟩; rfl) atBreak_nil

theorem fill_negated : g.negated.fill s = "not".toList ++ ' ' :: g.fill s := by
  rw [negated, fill_within]
  simp

/-! ### Cuts around a gap -/

theorem quote_not_mem_of_blank {cs : List Char} (h : ∀ c ∈ cs, Text.isBlank c) : '\x27' ∉ cs :=
  fun hmem => absurd (h _ hmem) (by decide)

def trimmed : Gap where
  before := Text.trimLeft g.before
  after := Text.trimRight g.after
  closed_before := by
    obtain ⟨lead, hlead, hblank⟩ := Text.exists_trimLeft g.before
    have hclosed := g.closed_before
    rw [hlead] at hclosed
    exact hclosed.of_append_right (quote_not_mem_of_blank hblank)
  closed_after := by
    obtain ⟨trail, htrail, hblank⟩ := Text.exists_trimRight g.after
    have hclosed := g.closed_after
    rw [htrail] at hclosed
    exact hclosed.of_append_left (quote_not_mem_of_blank hblank)
  opens := by
    intro c hc
    obtain ⟨lead, hlead, -⟩ := Text.exists_trimLeft g.before
    apply g.opens c
    rw [hlead, List.getLast?_append, hc]
    rfl
  closes := by
    intro c hc
    obtain ⟨trail, htrail, -⟩ := Text.exists_trimRight g.after
    apply g.closes c
    rw [htrail, List.head?_append, hc]
    rfl

theorem fill_trimmed : g.trimmed.fill s = Text.trim (g.fill s) := by
  have hleft : Text.trimLeft (g.before ++ (literalChars s ++ g.after)) =
      Text.trimLeft g.before ++ (literalChars s ++ g.after) := by
    refine Text.trimLeft_append (by simp [literalChars]) ?_
    rintro c ⟨⟩
    decide
  have hright : Text.trimRight ((Text.trimLeft g.before ++ literalChars s) ++ g.after) =
      (Text.trimLeft g.before ++ literalChars s) ++ Text.trimRight g.after := by
    refine Text.trimRight_append (by simp [literalChars]) ?_
    intro c hc
    rw [List.getLast?_append, getLast?_literalChars] at hc
    cases hc
    decide
  have hfill : g.fill s = g.before ++ (literalChars s ++ g.after) := rfl
  rw [Text.trim, hfill, hleft, ← List.append_assoc, hright, List.append_assoc]
  rfl

/-- Parentheses around the whole stand outside the gap. -/
theorem exists_of_isGrouped (h : isGrouped (g.fill s)) :
    ∃ b a, g.before = '(' :: b ∧ g.after = a ++ [')'] := by
  rw [isGrouped, Bool.and_eq_true, Bool.and_eq_true, decide_eq_true_eq, decide_eq_true_eq] at h
  obtain ⟨⟨hhead, hlast⟩, -⟩ := h
  have hbefore : ∃ b, g.before = '(' :: b := by
    rw [fill, List.head?_append] at hhead
    cases hb : g.before with
    | nil =>
      rw [hb] at hhead
      cases hhead
    | cons c b =>
      rw [hb] at hhead
      cases hhead
      exact ⟨b, rfl⟩
  have hafter : ∃ a, g.after = a ++ [')'] := by
    rw [fill, List.getLast?_append, List.getLast?_append, getLast?_literalChars] at hlast
    rcases List.eq_nil_or_concat g.after with hnil | ⟨a, c, hc⟩
    · rw [hnil] at hlast
      cases hlast
    · rw [List.concat_eq_append] at hc
      rw [hc, List.getLast?_concat] at hlast
      cases hlast
      exact ⟨a, hc⟩
  obtain ⟨b, hb⟩ := hbefore
  obtain ⟨a, ha⟩ := hafter
  exact ⟨b, a, hb, ha⟩

theorem exists_inner (h : isGrouped (g.fill s)) : ∃ k : Gap, ∀ t, inner (g.fill t) = k.fill t := by
  obtain ⟨b, a, hb, ha⟩ := g.exists_of_isGrouped s h
  have hclosedb : QuotesClosed b := by
    have hclosed := g.closed_before
    rw [hb] at hclosed
    exact @QuotesClosed.of_append_right ['('] b hclosed (by decide)
  have hcloseda : QuotesClosed a := by
    have hclosed := g.closed_after
    rw [ha] at hclosed
    exact hclosed.of_append_left (by decide)
  have hopens : ∀ c ∈ b.getLast?, isBreak c := by
    intro c hc
    apply g.opens c
    rw [hb, ← List.singleton_append, List.getLast?_append, hc]
    rfl
  have hcloses : AtBreak a := by
    intro c hc
    apply g.closes c
    rw [ha, List.head?_append, hc]
    rfl
  refine ⟨(Gap.mk b a hclosedb hcloseda hopens hcloses).trimmed, fun t => ?_⟩
  have hcut : (g.fill t).tail.dropLast = b ++ (literalChars t ++ a) := by
    rw [fill, hb, ha, List.cons_append, List.tail_cons, ← List.append_assoc, ← List.append_assoc,
      List.dropLast_concat, List.append_assoc]
  rw [fill_trimmed, inner, hcut]
  rfl

/-- Parentheses come off around a gap as often as around any other text, whatever is in it. -/
theorem exists_ungroup : ∃ k : Gap, ∀ t, ungroup (g.fill t) = k.fill t := by
  induction hn : (g.fill "").length using Nat.strong_induction_on generalizing g with
  | _ n ih =>
    cases hgrouped : isGrouped (g.fill "") with
    | false =>
      refine ⟨g, fun t => ?_⟩
      rw [ungroup, dif_neg (by rw [g.isGrouped_fill t "", hgrouped]; decide)]
    | true =>
      obtain ⟨k, hk⟩ := g.exists_inner "" hgrouped
      have hlt : (k.fill "").length < n := by
        rw [← hk, ← hn]
        exact length_inner_lt hgrouped
      obtain ⟨k', hk'⟩ := ih _ hlt k rfl
      refine ⟨k', fun t => ?_⟩
      rw [ungroup, dif_pos (by rw [g.isGrouped_fill t "", hgrouped]), hk, hk']

theorem exists_stripOuter : ∃ k : Gap, ∀ t, stripOuter (g.fill t) = k.fill t := by
  obtain ⟨k, hk⟩ := g.trimmed.exists_ungroup
  refine ⟨k, fun t => ?_⟩
  rw [stripOuter, ← fill_trimmed, hk]

theorem exists_groupForAnd : ∃ k : Gap, ∀ t, groupForAnd (g.fill t) = k.fill t := by
  cases hor : hasTopLevelOr (g.fill "") with
  | false =>
    refine ⟨g, fun t => ?_⟩
    rw [groupForAnd, g.hasTopLevelOr_fill t "", hor, if_neg Bool.false_ne_true]
  | true =>
    refine ⟨g.grouped, fun t => ?_⟩
    rw [groupForAnd, g.hasTopLevelOr_fill t "", hor, if_pos rfl, fill_grouped]

end Gap

/-! ### Cuts of closed texts -/

namespace QuotesClosed

variable {cs : List Char}

theorem trim (h : QuotesClosed cs) : QuotesClosed (Text.trim cs) := by
  obtain ⟨lead, trail, hcs, hlead, htrail⟩ := Text.exists_trim cs
  rw [hcs] at h
  exact (h.of_append_right (Gap.quote_not_mem_of_blank hlead)).of_append_left
    (Gap.quote_not_mem_of_blank htrail)

theorem inner (h : QuotesClosed cs) (hg : isGrouped cs) : QuotesClosed (inner cs) := by
  rw [isGrouped, Bool.and_eq_true, Bool.and_eq_true, decide_eq_true_eq, decide_eq_true_eq] at hg
  obtain ⟨⟨hhead, hlast⟩, -⟩ := hg
  apply QuotesClosed.trim
  cases cs with
  | nil => exact .nil
  | cons c cs =>
    cases hhead
    have hclosed : QuotesClosed cs := @QuotesClosed.of_append_right ['('] cs h (by decide)
    rcases List.eq_nil_or_concat cs with rfl | ⟨ds, d, rfl⟩
    · exact .nil
    · rw [List.concat_eq_append, ← List.cons_append, List.getLast?_concat] at hlast
      cases hlast
      rw [List.concat_eq_append] at hclosed
      rw [List.tail_cons, List.concat_eq_append, List.dropLast_concat]
      exact hclosed.of_append_left (by decide)

theorem ungroup (h : QuotesClosed cs) : QuotesClosed (ungroup cs) := by
  induction cs using Filter.ungroup.induct with
  | case1 cs hg ih =>
    rw [Filter.ungroup, dif_pos hg]
    exact ih (h.inner hg)
  | case2 cs hg =>
    rw [Filter.ungroup, dif_neg hg]
    exact h

theorem groupForAnd (h : QuotesClosed cs) : QuotesClosed (groupForAnd cs) := by
  rw [Filter.groupForAnd]
  split
  · exact h.group
  · exact h

end QuotesClosed

end TableClient.Filter
