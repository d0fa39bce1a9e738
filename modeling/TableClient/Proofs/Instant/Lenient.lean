import TableClient.Proofs.Instant.RoundTrip
import TableClient.Proofs.Text.Blank

/-! Printed moments read leniently. The lenient reader takes years of any length behind a sign, so that it
gives back every moment whose year it accepts, also those that have no text in the strict format. -/

namespace TableClient.Instant

open Text (decimalPadded)

/-- A run of digits is read whole, if the reader may take that many and no digit follows. -/
theorem readNumber_of_digits {least most : Nat} {ds rest : List Char} (hd : ∀ c ∈ ds, c.isDigit)
    (hleast : least ≤ ds.length) (hmost : ds.length ≤ most)
    (hrest : ds.length = most ∨ ∀ c ∈ rest.head?, c.isDigit = false) :
    readNumber least most (ds ++ rest) = some (Nat.ofDigitChars 10 ds 0, rest) := by
  have htaken : ((ds ++ rest).take most).takeWhile Char.isDigit = ds := by
    rw [List.take_append, List.take_of_length_le hmost, List.takeWhile_append_of_pos hd]
    rcases hrest with heq | hstop
    · rw [heq, Nat.sub_self, List.take_zero, List.takeWhile_nil, List.append_nil]
    · cases rest with
      | nil => simp
      | cons c rest =>
        have hc : c.isDigit = false := hstop c rfl
        cases most - ds.length <;> simp [hc]
  simp [readNumber, htaken, hleast]

theorem not_isBlank_of_isDigit {c : Char} (h : c.isDigit) : Text.isBlank c = false := by
  have hrange : 48 ≤ c.toNat ∧ c.toNat ≤ 57 := Char.isDigit_iff_toNat.1 h
  simp only [Text.isBlank, Bool.or_eq_false_iff, Bool.and_eq_false_iff, decide_eq_false_iff_not,
    beq_eq_false_iff_ne]
  omega

theorem trimLeft_cons {c : Char} (h : Text.isBlank c = false) (rest : List Char) :
    Text.trimLeft (c :: rest) = c :: rest := by
  simp [Text.trimLeft, h]

theorem trimLeft_decimalPadded (width n : Nat) (rest : List Char) :
    Text.trimLeft (decimalPadded width n ++ rest) = decimalPadded width n ++ rest := by
  obtain ⟨d, ds, hds⟩ := List.exists_cons_of_ne_nil (decimalPadded_ne_nil width n)
  have hd : d.isDigit := Text.isDigit_of_mem_decimalPadded (hds ▸ List.mem_cons_self)
  rw [hds, List.cons_append, trimLeft_cons (not_isBlank_of_isDigit hd)]

theorem readPair_decimalPadded {n : Nat} (h : n < 100) (rest : List Char) :
    readPair (decimalPadded 2 n ++ rest) = some (n, rest) := by
  have hlen : (decimalPadded 2 n).length = 2 := Text.length_decimalPadded (by omega) h
  rw [readPair, trimLeft_decimalPadded, readNumber_of_digits (fun _ => Text.isDigit_of_mem_decimalPadded)
    (by omega) (by omega) (.inl hlen), Text.ofDigitChars_decimalPadded]

theorem readSpacedMark_cons {mark : Char} (h : Text.isBlank mark = false) (rest : List Char) :
    readSpacedMark mark (mark :: rest) = some rest := by
  rw [readSpacedMark, trimLeft_cons h, readMark_cons]

theorem readYear_yearText (year : Int) (rest : List Char) :
    readYear (yearText year ++ '-' :: rest) = some (year, '-' :: rest) := by
  have hdigits : ∀ c ∈ decimalPadded 4 year.natAbs, c.isDigit := fun _ => Text.isDigit_of_mem_decimalPadded
  have hvalue := Text.ofDigitChars_decimalPadded 4 year.natAbs
  have hone : 1 ≤ (decimalPadded 4 year.natAbs).length :=
    List.length_pos_iff.2 (decimalPadded_ne_nil 4 year.natAbs)
  -- behind a sign, the mark after the digits ends the year
  have hsigned : readNumber 1 (decimalPadded 4 year.natAbs ++ '-' :: rest).length
      (decimalPadded 4 year.natAbs ++ '-' :: rest) = some (year.natAbs, '-' :: rest) := by
    rw [readNumber_of_digits hdigits hone (by simp) (.inr (by simp)), hvalue]
  rw [yearText_eq, yearSign, List.append_assoc]
  split
  next hplain =>
    have hlen : (decimalPadded 4 year.natAbs).length = 4 := Text.length_decimalPadded (by omega) (by omega)
    have hback : (year.natAbs : Int) = year := by omega
    have hnumber : readNumber 1 4 (decimalPadded 4 year.natAbs ++ '-' :: rest) =
        some (year.natAbs, '-' :: rest) := by
      rw [readNumber_of_digits hdigits hone (by omega) (.inl hlen), hvalue]
    have hhead {c : Char} {cs : List Char} (hc : c.isDigit = false) :
        decimalPadded 4 year.natAbs ++ '-' :: rest ≠ c :: cs := by
      obtain ⟨d, ds, hds⟩ := List.exists_cons_of_ne_nil (decimalPadded_ne_nil 4 year.natAbs)
      have hd : d.isDigit := hdigits d (hds ▸ List.mem_cons_self)
      rw [hds, List.cons_append]
      rintro ⟨⟩
      rw [hc] at hd
      cases hd
    rw [List.nil_append, readYear, trimLeft_decimalPadded]
    split
    next heq => exact absurd heq (hhead (by decide))
    next heq => exact absurd heq (hhead (by decide))
    next => simp only [hnumber, Option.map_some, hback]
  next hother =>
    by_cases hneg : year < 0
    · have hback : -(year.natAbs : Int) = year := by omega
      rw [if_pos hneg, List.singleton_append, readYear, trimLeft_cons (by decide)]
      simp only [hsigned, Option.map_some, hback]
    · have hback : (year.natAbs : Int) = year := by omega
      rw [if_neg hneg, List.singleton_append, readYear, trimLeft_cons (by decide)]
      simp only [hsigned, Option.map_some, hback]

/-- One reading after another. -/
theorem bind_of_read {α β : Type} {read : Option α} {next : α → Option β} {a : α} {b : β}
    (hread : read = some a) (hnext : next a = some b) : (read >>= next) = some b :=
  Option.bind_eq_some_iff.2 ⟨a, hread, hnext⟩

theorem readLenient?_zuluText_fields (t : Instant) : Fields.readLenient? t.zuluText = some t.printedFields := by
  obtain ⟨hmonth, hday⟩ : t.date.month < 100 ∧ t.date.day < 100 :=
    month_lt_of_isValid (Calendar.isValid_ofDays (t.seconds / 86400))
  have hclock := t.secondOfDay_lt
  have hsecond := t.printedSecond_le
  have hnanos : t.nanos % 1000000000 < 1000000000 := Nat.mod_lt _ (by omega)
  have hdash (rest : List Char) : readSpacedMark '-' ('-' :: rest) = some rest :=
    readSpacedMark_cons (by decide) rest
  have hcolon (rest : List Char) : readSpacedMark ':' (':' :: rest) = some rest :=
    readSpacedMark_cons (by decide) rest
  rw [zuluText_eq, afterYear]
  refine bind_of_read (readYear_yearText _ _) ?_
  refine bind_of_read (hdash _) (bind_of_read (readPair_decimalPadded hmonth _) ?_)
  refine bind_of_read (hdash _) (bind_of_read (readPair_decimalPadded hday _) ?_)
  refine bind_of_read (congrArg (· <|> _) (readMark_cons 'T' _)) ?_
  refine bind_of_read (readPair_decimalPadded (by omega) _) ?_
  refine bind_of_read (hcolon _) (bind_of_read (readPair_decimalPadded (by omega) _) ?_)
  refine bind_of_read (hcolon _) (bind_of_read (readPair_decimalPadded (by omega) _) ?_)
  exact bind_of_read (readFraction_fractionText hnanos) rfl

/-- The text of a moment is read, if its year is one that the lenient reader accepts. -/
theorem readLenient?_zuluText {t : Instant} (h : isLenientYear t.date.year) :
    readLenient? t.zuluText = some t.carried := by
  have hyear : isLenientYear t.printedFields.date.year := h
  have hcarried : isLenientYear t.carried.date.year := by rwa [date_carried]
  simp only [readLenient?, readLenient?_zuluText_fields, Option.bind_eq_bind, Option.bind_some,
    ofFields?_printedFields, hyear, hcarried, Bool.and_self, if_true]

end TableClient.Instant
