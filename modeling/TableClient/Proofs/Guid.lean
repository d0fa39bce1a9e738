import TableClient.Guid
import TableClient.Proofs.Text.Digits

/-! Identifiers read back. The hyphenated form has thirty-six characters, so none of the other
spellings is tried on it, and taking its hyphens out leaves the digits. -/

namespace TableClient.Guid

theorem length_digits (g : Guid) : g.digits.length = 32 :=
  Text.hexFixed_length 32 _

/-- No digit is a hyphen. -/
theorem ne_hyphen_of_mem_digits {g : Guid} {c : Char} (h : c ∈ g.digits) : c ≠ '-' :=
  Text.ne_of_mem_hex (Text.mem_hexFixed h) rfl

theorem length_hyphenate {ds : List Char} (h : ds.length = 32) : (hyphenate ds).length = 36 := by
  simp [hyphenate, h]

theorem mem_hyphenate {ds : List Char} {c : Char} (h : c ∈ hyphenate ds) : c = '-' ∨ c ∈ ds := by
  simp only [hyphenate, List.mem_append, List.mem_cons] at h
  rcases h with (((h | h | h) | h | h) | h | h) | h | h
  · exact .inr (List.mem_of_mem_take h)
  · exact .inl h
  · exact .inr (List.mem_of_mem_drop (List.mem_of_mem_take h))
  · exact .inl h
  · exact .inr (List.mem_of_mem_drop (List.mem_of_mem_take h))
  · exact .inl h
  · exact .inr (List.mem_of_mem_drop (List.mem_of_mem_take h))
  · exact .inl h
  · exact .inr (List.mem_of_mem_drop h)

/-- The groups of a hyphenated text, one after another, are the digits. -/
theorem filter_hyphenate {ds : List Char} (h : ∀ c ∈ ds, c ≠ '-') :
    (hyphenate ds).filter (· ≠ '-') = ds := by
  have keep {es : List Char} (hsub : ∀ c ∈ es, c ∈ ds) : es.filter (· ≠ '-') = es :=
    List.filter_eq_self.2 fun c hc => by simpa using h c (hsub c hc)
  simp only [hyphenate, List.filter_append, List.filter_cons, ne_eq, not_true_eq_false, decide_false,
    Bool.false_eq_true, if_false]
  rw [keep fun c => List.mem_of_mem_take, keep fun c hc => List.mem_of_mem_drop (List.mem_of_mem_take hc),
    keep fun c hc => List.mem_of_mem_drop (List.mem_of_mem_take hc),
    keep fun c hc => List.mem_of_mem_drop (List.mem_of_mem_take hc), keep fun c => List.mem_of_mem_drop]
  have join (i j : Nat) : (ds.drop i).take j ++ ds.drop (i + j) = ds.drop i := by
    rw [← List.drop_drop, List.take_append_drop]
  simp only [List.append_assoc]
  rw [join 16 4, join 12 4, join 8 4, List.take_append_drop]

theorem readDigits?_digits (g : Guid) : readDigits? g.digits = some g := by
  have hread : Text.readHex? g.digits = some g.bits.toNat := by
    have hlt : g.bits.toNat < Nat.pow 16 32 := g.bits.isLt
    rw [Text.readHex?, digits, Text.readHexFrom_hexFixed, Nat.mod_eq_of_lt hlt, Nat.zero_mul,
      Nat.zero_add]
  simp [readDigits?, length_digits, hread]

theorem readHyphenated?_hyphenated (g : Guid) : readHyphenated? g.hyphenated = some g := by
  have hfilter : g.hyphenated.filter (· ≠ '-') = g.digits :=
    filter_hyphenate fun _ => ne_hyphen_of_mem_digits
  rw [readHyphenated?, hfilter]
  exact (if_pos rfl).trans g.readDigits?_digits

theorem read?_hyphenated (g : Guid) : read? g.hyphenated = some g := by
  have hlen : g.hyphenated.length = 36 := length_hyphenate g.length_digits
  simp [read?, hlen, readHyphenated?_hyphenated]

end TableClient.Guid
