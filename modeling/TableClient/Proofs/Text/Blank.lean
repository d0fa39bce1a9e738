import Mathlib.Data.List.Basic
import Mathlib.Data.List.TakeWhile
import TableClient.Text.Cut

/-! Tight texts: no blank at either end, and not empty. What trimming leaves is tight unless nothing is
left, and trimming leaves a tight text as it is. -/

namespace TableClient.Text

variable {cs ds : List Char}

structure IsTight (cs : List Char) : Prop where
  ne_nil : cs ≠ []
  head : ∀ c ∈ cs.head?, isBlank c = false
  last : ∀ c ∈ cs.getLast?, isBlank c = false

theorem IsTight.trim_eq (h : IsTight cs) : trim cs = cs := by
  apply trim_eq_self
  · cases hc : cs.head? with
    | none => rfl
    | some c => simp [h.head c hc]
  · cases hc : cs.getLast? with
    | none => rfl
    | some c => simp [h.last c hc]

theorem head?_trimLeft (cs : List Char) : ∀ c ∈ (trimLeft cs).head?, isBlank c = false := by
  intro c hc
  have h := List.head?_dropWhile_not isBlank cs
  rw [Option.mem_def] at hc
  rw [← trimLeft, hc] at h
  exact h

theorem isTight_trim (h : trim cs ≠ []) : IsTight (trim cs) := by
  refine ⟨h, fun c hc => ?_, fun c hc => ?_⟩
  · -- the cut at the end leaves the first character in its place
    have hsub : trim cs <+: trimLeft cs := by
      rw [← List.reverse_suffix, trim, trimRight, List.reverse_reverse]
      exact List.dropWhile_suffix _
    obtain ⟨rest, hrest⟩ := hsub
    apply head?_trimLeft cs c
    rw [← hrest, List.head?_append_of_ne_nil _ h]
    exact hc
  · rw [trim, trimRight, List.getLast?_reverse] at hc
    exact head?_trimLeft _ c hc

theorem isTight_of_trim_eq (h : trim cs = cs) (hne : cs ≠ []) : IsTight cs := by
  rw [← h] at hne ⊢
  exact isTight_trim hne

/-- The cut at the beginning ends where a text begins that has no blank there. -/
theorem trimLeft_append (hne : ds ≠ []) (h : ∀ c ∈ ds.head?, isBlank c = false) :
    trimLeft (cs ++ ds) = trimLeft cs ++ ds := by
  have hstop : ds.dropWhile isBlank = ds := by
    obtain ⟨d, ds, rfl⟩ := List.exists_cons_of_ne_nil hne
    rw [List.dropWhile_cons, if_neg (by simp [h d rfl])]
  rw [trimLeft, trimLeft, List.dropWhile_append, hstop]
  split
  next hempty => rw [List.isEmpty_iff.1 hempty, List.nil_append]
  next => rfl

theorem trimRight_append (hne : cs ≠ []) (h : ∀ c ∈ cs.getLast?, isBlank c = false) :
    trimRight (cs ++ ds) = cs ++ trimRight ds := by
  have hreverse : trimLeft (ds.reverse ++ cs.reverse) = trimLeft ds.reverse ++ cs.reverse :=
    trimLeft_append (by simpa using hne) (by simpa using h)
  rw [trimRight, trimRight, List.reverse_append, hreverse, List.reverse_append, List.reverse_reverse]

/-- What is cut off at the beginning is blank. -/
theorem exists_trimLeft (cs : List Char) : ∃ lead, cs = lead ++ trimLeft cs ∧ ∀ c ∈ lead, isBlank c :=
  ⟨cs.takeWhile isBlank, List.takeWhile_append_dropWhile.symm, fun _ hc => List.mem_takeWhile_imp hc⟩

theorem exists_trimRight (cs : List Char) :
    ∃ trail, cs = trimRight cs ++ trail ∧ ∀ c ∈ trail, isBlank c := by
  obtain ⟨lead, hlead, hblank⟩ := exists_trimLeft cs.reverse
  refine ⟨lead.reverse, ?_, fun c hc => hblank c (List.mem_reverse.1 hc)⟩
  apply List.reverse_injective
  rw [trimRight, List.reverse_append, List.reverse_reverse, List.reverse_reverse]
  exact hlead

/-- What is cut off is blank. -/
theorem exists_trim (cs : List Char) :
    ∃ lead trail, cs = lead ++ (trim cs ++ trail) ∧ (∀ c ∈ lead, isBlank c) ∧ ∀ c ∈ trail, isBlank c := by
  obtain ⟨lead, hlead, hblank⟩ := exists_trimLeft cs
  obtain ⟨trail, htrail, hblank'⟩ := exists_trimRight (trimLeft cs)
  refine ⟨lead, trail, ?_, hblank, hblank'⟩
  rw [trim, ← htrail]
  exact hlead

/-- Nothing is left exactly of a text of blanks. -/
theorem trim_eq_nil_iff : trim cs = [] ↔ ∀ c ∈ cs, isBlank c := by
  constructor
  · intro h c hc
    obtain ⟨lead, trail, hcs, hlead, htrail⟩ := exists_trim cs
    rw [hcs, h, List.nil_append] at hc
    exact (List.mem_append.1 hc).elim (hlead c) (htrail c)
  · intro h
    have hleft : trimLeft cs = [] := List.dropWhile_eq_nil_iff.2 h
    rw [trim, hleft]
    rfl

/-- Whatever stands between two tight texts, the whole is tight. -/
theorem IsTight.append (h : IsTight cs) (hd : IsTight ds) (between : List Char) :
    IsTight (cs ++ (between ++ ds)) := by
  refine ⟨by simp [h.ne_nil], fun c hc => ?_, fun c hc => ?_⟩
  · rw [List.head?_append_of_ne_nil _ h.ne_nil] at hc
    exact h.head c hc
  · rw [List.getLast?_append_of_ne_nil _ (by simp [hd.ne_nil]),
      List.getLast?_append_of_ne_nil _ hd.ne_nil] at hc
    exact hd.last c hc

end TableClient.Text
