import Mathlib.Data.List.TakeWhile
import TableClient.Proofs.Filter.LiteralForm

/-! Quotes in literals. The characters of truth values, integers and doubles are no quotes, so that a text
that is read as a value and has a quote in it is a body between quotes, and ends with one. -/

namespace TableClient

namespace Binary64

theorem mem_readExponent? {cs : List Char} {n : Int} (h : readExponent? cs = some n) {c : Char}
    (hc : c ∈ cs) : c.isDigit ∨ c ∈ ['+', '-', 'e', 'E'] := by
  cases cs with
  | nil => cases hc
  | cons mark cs =>
    rw [readExponent?] at h
    split at h
    next hmark =>
      rcases List.mem_cons.1 hc with rfl | hc
      · rcases hmark with rfl | rfl <;> simp
      · rcases (Text.readInteger?_eq_some_iff.1 h).mem hc with rfl | rfl | hdigit
        · simp
        · simp
        · exact .inl hdigit
    next => cases h

theorem mem_spanDigits {cs : List Char} {c : Char} (hc : c ∈ cs) :
    c.isDigit ∨ c ∈ (spanDigits cs).2 := by
  rw [← List.takeWhile_append_dropWhile (p := Char.isDigit) (l := cs), List.mem_append] at hc
  exact hc.imp_left fun h => List.mem_takeWhile_imp h

theorem mem_splitSign {cs : List Char} {c : Char} (hc : c ∈ cs) :
    c ∈ ['+', '-'] ∨ c ∈ (splitSign cs).2 := by
  rw [splitSign.eq_def]
  split
  · rcases List.mem_cons.1 hc with rfl | hc
    · simp
    · exact .inr hc
  · rcases List.mem_cons.1 hc with rfl | hc
    · simp
    · exact .inr hc
  · exact .inr hc

/-- What stands after the first digits is a point with digits, and an exponent. -/
theorem exists_exponent {cs : List Char} {d : DecimalText} (h : DecimalText.read? cs = some d) :
    ∃ rest n, readExponent? rest = some n ∧
      ∀ c ∈ (spanDigits (splitSign cs).2).2, c = '.' ∨ c.isDigit ∨ c ∈ rest := by
  unfold DecimalText.read? at h
  simp only at h
  split at h
  next fraction hpoint =>
    split at h
    · cases h
    · obtain ⟨n, hn, -⟩ := Option.bind_eq_some_iff.1 h
      refine ⟨_, n, hn, fun c hc => ?_⟩
      rw [hpoint, List.mem_cons] at hc
      exact hc.imp_right mem_spanDigits
  next =>
    split at h
    · cases h
    · obtain ⟨n, hn, -⟩ := Option.bind_eq_some_iff.1 h
      exact ⟨_, n, hn, fun c hc => .inr (.inr hc)⟩

/-- The characters of the decimal texts of doubles. -/
theorem mem_of_read? {cs : List Char} {x : Binary64} (h : read? cs = some x) {c : Char} (hc : c ∈ cs) :
    c.isDigit ∨ c ∈ ['.', '+', '-', 'e', 'E'] := by
  obtain ⟨d, hd, -⟩ := Option.map_eq_some_iff.1 h
  obtain ⟨rest, n, hn, hrest⟩ := exists_exponent hd
  rcases mem_splitSign hc with hsign | hc
  · exact .inr (List.mem_cons_of_mem _ (List.mem_append_left ['e', 'E'] hsign))
  rcases mem_spanDigits hc with hdigit | hc
  · exact .inl hdigit
  rcases hrest c hc with rfl | hdigit | hc
  · exact .inr (by simp)
  · exact .inl hdigit
  · exact (mem_readExponent? hn hc).imp_right (List.mem_cons_of_mem _)

end Binary64

namespace Literal

theorem quote_not_mem_of_readBare? {cs : List Char} {v : Value} (h : readBare? cs = some v) :
    '\x27' ∉ cs := by
  unfold readBare? at h
  split at h
  next htrue =>
    rw [htrue]
    decide
  split at h
  next hfalse =>
    rw [hfalse]
    decide
  split at h
  next ds hwide =>
    obtain ⟨n, hn, -⟩ := Option.map_eq_some_iff.1 h
    have hquote := (Text.readInt64?_eq_some_iff.1 hn).not_mem (c := '\x27') rfl rfl
    rw [Text.dropFinal_eq_some_iff.1 hwide, List.mem_append]
    exact fun hmem => hmem.elim hquote (by decide)
  split at h
  next =>
    obtain ⟨x, hx, -⟩ := Option.map_eq_some_iff.1 h
    intro hmem
    have hdouble := Binary64.mem_of_read? (Option.filter_eq_some_iff.1 hx).1 hmem
    exact absurd hdouble (by decide)
  next =>
    obtain ⟨n, hn, -⟩ := Option.map_eq_some_iff.1 h
    exact (Text.readInt32?_eq_some_iff.1 hn).not_mem rfl rfl

/-- A literal with a quote in it ends with one. -/
theorem getLast?_of_read? {cs : List Char} {v : Value} (h : read? cs = some v) (hquote : '\x27' ∈ cs) :
    cs.getLast? = some '\x27' := by
  have hmarked {mark : String} {body : List Char} (hbody : body? mark cs = some body) :
      cs.getLast? = some '\x27' := by
    rw [body?_eq_some_iff.1 hbody, ← List.cons_append, ← List.append_assoc, List.getLast?_concat]
  unfold read? at h
  split at h
  next hbody => exact hmarked hbody
  next hbody _ =>
    rcases (Option.orElse_eq_some _ _ _).1 hbody with hX | ⟨-, hword⟩
    · exact hmarked hX
    · exact hmarked hword
  next hbody _ _ => exact hmarked hbody
  next hbody _ _ _ => exact hmarked hbody
  next => exact absurd hquote (quote_not_mem_of_readBare? h)

end Literal

end TableClient
