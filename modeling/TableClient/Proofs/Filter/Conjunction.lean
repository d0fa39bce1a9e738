import TableClient.Proofs.Filter.Scan
import TableClient.Query.Plan

/-! Joining filter texts with `and`. Groups around the whole of a text come off, a side with an `or` at its
root is put into a group, and the text of the whole is again that of a well-formed phrase. -/

namespace TableClient

theorem Plan.toList_conjoin (s t : String) :
    (conjoin s t).toList =
      Filter.joinedChars .and (Filter.groupForAnd s.toList) (Filter.groupForAnd t.toList) := by
  have hand : " and ".toList = ' ' :: (BinaryOp.and.keyword.toList ++ [' ']) := by decide
  rw [conjoin]
  simp [String.toList_append, hand, Filter.joinedChars]

namespace Filter.Phrase

variable {p q : Phrase}

/-! ### Outer groups -/

def ungrouped : Phrase → Phrase
  | group p => p.ungrouped
  | p => p

theorem wellFormed_ungrouped (h : p.WellFormed) : p.ungrouped.WellFormed := by
  induction p with
  | group p ih => exact ih h
  | _ => exact h

theorem holds_ungrouped (row : Value) : p.ungrouped.holds row = p.holds row := by
  induction p with
  | group p ih => exact ih
  | _ => rfl

theorem inner_text_group (h : p.WellFormed) : inner (group p).text = p.text := by
  rw [inner, text, Filter.group, List.cons_append, List.tail_cons, List.dropLast_concat, trim_text h]

theorem ungroup_text (h : p.WellFormed) : ungroup p.text = p.ungrouped.text := by
  induction p with
  | group p ih =>
    have hin : p.WellFormed := h
    have hgrouped : isGrouped (group p).text = true := isGrouped_text h
    rw [ungroup, dif_pos hgrouped, inner_text_group hin, ih hin, ungrouped]
  | _ =>
    rw [ungroup, dif_neg (by simp [isGrouped_text h, isGroup]), ungrouped]
    rintro q ⟨⟩

/-- Taking blanks and parentheses off a text is taking the groups off its phrase. -/
theorem stripOuter_text (h : p.WellFormed) : stripOuter p.text = p.ungrouped.text := by
  rw [stripOuter, trim_text h, ungroup_text h]

def asSide (p : Phrase) : Phrase :=
  if p.rank = 2 then group p else p

theorem groupForAnd_text (h : p.WellFormed) : groupForAnd p.text = p.asSide.text := by
  rw [groupForAnd, hasTopLevelOr_text h, asSide]
  by_cases hr : p.rank = 2 <;> simp [hr, text]

theorem wellFormed_asSide (h : p.WellFormed) : p.asSide.WellFormed := by
  rw [asSide]
  split <;> exact h

theorem rank_asSide (p : Phrase) : p.asSide.rank ≤ 1 := by
  rw [asSide]
  split
  next => simp [rank]
  next hr =>
    cases p with
    | or l r => exact absurd rfl hr
    | _ => simp [rank]

theorem holds_asSide (row : Value) : p.asSide.holds row = p.holds row := by
  rw [asSide]
  split <;> rfl

/-! ### Joining -/

/-- Both phrases under one chain of `and`, which nests to the right. -/
def andThen : Phrase → Phrase → Phrase
  | and l r, q => and l (r.andThen q)
  | p, q => and p q

theorem text_andThen (p q : Phrase) : (p.andThen q).text = joinedChars .and p.text q.text := by
  induction p with
  | and l r ihl ihr => simp [andThen, text, ihr, joinedChars]
  | _ => rfl

theorem rank_andThen (p q : Phrase) : (p.andThen q).rank = 1 := by
  cases p <;> rfl

theorem wellFormed_andThen (hp : p.WellFormed) (hq : q.WellFormed) (hrp : p.rank ≤ 1)
    (hrq : q.rank ≤ 1) : (p.andThen q).WellFormed := by
  induction p with
  | and l r ihl ihr =>
    obtain ⟨hl, hr, hwl, hwr⟩ := hp
    exact ⟨hl, Nat.le_of_eq (rank_andThen r q), hwl, ihr hwr hr⟩
  | or l r => exact absurd hrp (by simp [rank])
  | _ => exact ⟨rfl, hrq, hp, hq⟩

theorem holds_andThen (p q : Phrase) (row : Value) :
    (p.andThen q).holds row = (p.holds row && q.holds row) := by
  induction p with
  | and l r ihl ihr =>
    show (l.holds row && (r.andThen q).holds row) = (l.holds row && r.holds row && q.holds row)
    rw [ihr, Bool.and_assoc]
  | _ => rfl

/-- Joining two texts joins their phrases. -/
theorem toList_conjoin {s t : String} (hp : p.WellFormed) (hq : q.WellFormed)
    (hs : s.toList = p.text) (ht : t.toList = q.text) :
    (Plan.conjoin s t).toList = (p.asSide.andThen q.asSide).text := by
  rw [Plan.toList_conjoin, hs, ht, groupForAnd_text hp, groupForAnd_text hq, text_andThen]

end Filter.Phrase

end TableClient
