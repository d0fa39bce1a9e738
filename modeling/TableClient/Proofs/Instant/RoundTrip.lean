import TableClient.Instant.Text
import TableClient.Proofs.Instant.Calendar
import TableClient.Proofs.Text.Digits
import TableClient.Value.Basic

/-! Printed moments are read back. Within the years 0 to 9999 the text of a moment names its date,
its time of day and its fraction in fields of fixed width, and the moment that these fields name is
the one that was printed, leap seconds at the end of a minute included. A leap second within a minute
has the text of the second after it, and is read as that. -/

namespace TableClient

namespace Instant

open Text (decimalPadded)

/-! ### Fields of fixed width -/

theorem readNumber_append {width : Nat} {ds rest : List Char} (hlen : ds.length = width)
    (hd : ∀ c ∈ ds, c.isDigit) :
    readNumber width width (ds ++ rest) = some (Nat.ofDigitChars 10 ds 0, rest) := by
  have hall : ds.takeWhile Char.isDigit = ds := by
    rw [← List.append_nil ds, List.takeWhile_append_of_pos hd, List.takeWhile_nil]
  subst hlen
  simp [readNumber, hall]

theorem readNumber_decimalPadded {width n : Nat} (hw : 0 < width) (h : n < 10 ^ width)
    (rest : List Char) : readNumber width width (decimalPadded width n ++ rest) = some (n, rest) := by
  rw [readNumber_append (Text.length_decimalPadded hw h) fun _ => Text.isDigit_of_mem_decimalPadded,
    Text.ofDigitChars_decimalPadded]

theorem readMark_cons (mark : Char) (rest : List Char) : readMark mark (mark :: rest) = some rest := by
  simp [readMark]

/-- The digits of a fraction end where the mark of the offset stands. -/
theorem readFraction_decimalPadded {width n : Nat} (hw : 0 < width) (hle : width ≤ 9)
    (h : n < 10 ^ width) :
    readFraction ('.' :: (decimalPadded width n ++ ['Z'])) =
      some (n * Text.tenTo (9 - width), ['Z']) := by
  have hlen := Text.length_decimalPadded hw h
  have hdigits : (decimalPadded width n ++ ['Z']).takeWhile Char.isDigit = decimalPadded width n := by
    rw [List.takeWhile_append_of_pos fun _ => Text.isDigit_of_mem_decimalPadded]
    simp [show Char.isDigit 'Z' = false by decide]
  have hne : decimalPadded width n ≠ [] := by
    intro hnil
    simp [hnil] at hlen
    omega
  have hkept : (decimalPadded width n).take 9 = decimalPadded width n :=
    List.take_of_length_le (by omega)
  have hrest : (decimalPadded width n ++ ['Z']).drop width = ['Z'] := List.drop_left' hlen
  simp only [readFraction, hdigits, hne, if_false, hkept, hlen, Text.ofDigitChars_decimalPadded,
    hrest]

theorem readFraction_fractionText {nanos : Nat} (h : nanos < 1000000000) :
    readFraction (fractionText nanos ++ ['Z']) = some (nanos, ['Z']) := by
  unfold fractionText
  split
  next hzero => subst hzero; rfl
  next hne =>
    split
    next hmilli =>
      rw [List.cons_append, readFraction_decimalPadded (by omega) (by omega) (by omega)]
      have hback : nanos / 1000000 * Text.tenTo (9 - 3) = nanos := by
        rw [show Text.tenTo (9 - 3) = 1000000 from rfl]
        omega
      rw [hback]
    next hmicro =>
      split
      next hdiv =>
        rw [List.cons_append, readFraction_decimalPadded (by omega) (by omega) (by omega)]
        have hback : nanos / 1000 * Text.tenTo (9 - 6) = nanos := by
          rw [show Text.tenTo (9 - 6) = 1000 from rfl]
          omega
        rw [hback]
      next =>
        rw [List.cons_append, readFraction_decimalPadded (by omega) (by omega) (by omega)]
        have hback : nanos * Text.tenTo (9 - 9) = nanos := by
          rw [show Text.tenTo (9 - 9) = 1 from rfl]
          omega
        rw [hback]

/-! ### The fields of a printed moment -/

/-- The second of the minute as it is printed: 60 within a leap second. -/
def printedSecond (t : Instant) : Nat :=
  t.secondOfDay % 60 + if t.isLeapSecond then 1 else 0

theorem secondOfDay_lt (t : Instant) : t.secondOfDay < 86400 := by
  unfold secondOfDay
  omega

theorem printedSecond_le (t : Instant) : t.printedSecond ≤ 60 := by
  unfold printedSecond
  split <;> omega

def printedFields (t : Instant) : Fields where
  date := t.date
  hour := t.secondOfDay / 3600
  minute := t.secondOfDay / 60 % 60
  second := t.printedSecond
  nanos := t.nanos % 1000000000
  offset := 0

theorem month_lt_of_isValid {d : Calendar.Date} (h : d.isValid) : d.month < 100 ∧ d.day < 100 := by
  obtain ⟨-, hmonth, -, hday⟩ := Calendar.bounds_of_isValid h
  omega

def afterYear (t : Instant) : List Char :=
  '-' :: (decimalPadded 2 t.date.month ++ '-' :: (decimalPadded 2 t.date.day ++ 'T' ::
    (decimalPadded 2 (t.secondOfDay / 3600) ++ ':' :: (decimalPadded 2 (t.secondOfDay / 60 % 60) ++
      ':' :: (decimalPadded 2 t.printedSecond ++ (fractionText (t.nanos % 1000000000) ++ ['Z']))))))

theorem zuluText_eq (t : Instant) : t.zuluText = yearText t.date.year ++ t.afterYear := by
  simp [zuluText, localText, dateText, clockText, printedSecond, afterYear]

/-- What stands after the year is read as the fields of the moment, behind any year of four
digits. -/
theorem read?_afterYear (t : Instant) {year : Nat} (h : year < 10 ^ 4) :
    Fields.read? (decimalPadded 4 year ++ t.afterYear) =
      some { t.printedFields with date := { t.date with year } } := by
  obtain ⟨hmonth, hday⟩ : t.date.month < 100 ∧ t.date.day < 100 :=
    month_lt_of_isValid (Calendar.isValid_ofDays (t.seconds / 86400))
  have hclock := t.secondOfDay_lt
  have hsecond := t.printedSecond_le
  have hnanos : t.nanos % 1000000000 < 1000000000 := Nat.mod_lt _ (by omega)
  have two {n : Nat} (h : n < 100) (rest : List Char) :
      readNumber 2 2 (decimalPadded 2 n ++ rest) = some (n, rest) :=
    readNumber_decimalPadded (by omega) h rest
  rw [afterYear, Fields.read?]
  simp only [readNumber_decimalPadded (show 0 < 4 by omega) h, two hmonth, two hday,
    two (show t.secondOfDay / 3600 < 100 by omega),
    two (show t.secondOfDay / 60 % 60 < 100 by omega), two (show t.printedSecond < 100 by omega),
    readMark_cons, readFraction_fractionText hnanos, Option.bind_eq_bind, Option.bind_some,
    Option.orElse_eq_orElse, Option.orElse_some]
  simp [readOffset, printedFields]

theorem read?_zuluText_fields (t : Instant) (h0 : 0 ≤ t.date.year) (h1 : t.date.year ≤ 9999) :
    Fields.read? t.zuluText = some t.printedFields := by
  have hback : ((t.date.year.toNat : Nat) : Int) = t.date.year := by omega
  rw [zuluText_eq, yearText, if_pos ⟨h0, h1⟩, read?_afterYear t (by omega), hback]
  rfl

/-! ### The moment that is named -/

/-- The moment is one that a clock shows. -/
def IsOnClock (t : Instant) : Prop :=
  t.nanos < 1000000000 ∨ t.seconds % 60 = 59

instance (t : Instant) : Decidable t.IsOnClock :=
  inferInstanceAs (Decidable (_ ∨ _))

/-- The moment with a leap second within a minute carried into the seconds. -/
def carried (t : Instant) : Instant :=
  if t.IsOnClock then t else ⟨t.seconds + 1, t.nanos - 1000000000, Nat.lt_of_le_of_lt (Nat.sub_le _ _) t.nanos_lt⟩

theorem carried_of_isOnClock {t : Instant} (h : t.IsOnClock) : t.carried = t :=
  if_pos h

theorem isOnClock_carried (t : Instant) : t.carried.IsOnClock := by
  by_cases h : t.IsOnClock
  · rwa [carried_of_isOnClock h]
  · have hlt := t.nanos_lt
    rw [carried, if_neg h]
    exact .inl (by dsimp only; omega)

theorem carried_eq_iff {t : Instant} : t.carried = t ↔ t.IsOnClock :=
  ⟨fun h => h ▸ t.isOnClock_carried, carried_of_isOnClock⟩

/-- The second after a leap second within a minute is of the same minute, so that the text is the same. -/
theorem printedFields_carried (t : Instant) : t.carried.printedFields = t.printedFields := by
  by_cases h : t.IsOnClock
  · rw [carried_of_isOnClock h]
  · obtain ⟨hleap, hwithin⟩ := not_or.1 h
    have hlt := t.nanos_lt
    have hdate : (t.seconds + 1) / 86400 = t.seconds / 86400 := by omega
    have hnext : ((t.seconds + 1) % 86400).toNat = (t.seconds % 86400).toNat + 1 := by omega
    have hbelow : ¬1000000000 ≤ t.nanos - 1000000000 := by omega
    have hfraction : (t.nanos - 1000000000) % 1000000000 = t.nanos % 1000000000 := by omega
    have hminute : (t.seconds % 86400).toNat % 60 ≠ 59 := by omega
    rw [carried, if_neg h]
    simp only [printedFields, printedSecond, secondOfDay, isLeapSecond, date, hdate, hnext, hbelow, hfraction,
      Nat.not_lt.1 hleap, decide_false, decide_true, Bool.false_eq_true, if_false, if_true, Fields.mk.injEq,
      true_and, and_true]
    omega

theorem date_carried (t : Instant) : t.carried.date = t.date :=
  congrArg Fields.date t.printedFields_carried

theorem ofUnix?_eq {t : Instant} (h : t.IsOnClock) {seconds : Int} {nanos : Nat} (hs : seconds = t.seconds)
    (hn : nanos = t.nanos) : ofUnix? seconds nanos = some t := by
  subst hs hn
  exact dif_pos (h.imp_right fun hlast => ⟨t.nanos_lt, hlast⟩)

theorem ofFields?_of_isOnClock {t : Instant} (h : t.IsOnClock) : ofFields? t.printedFields = some t := by
  have hvalid : t.date.isValid := Calendar.isValid_ofDays _
  have hdays : t.date.toDays = t.seconds / 86400 := Calendar.toDays_ofDays _
  have hclock := t.secondOfDay_lt
  have hsecond := t.printedSecond_le
  have hlt := t.nanos_lt
  have hday : (t.secondOfDay : Int) = t.seconds % 86400 := by
    unfold secondOfDay
    omega
  -- a leap second is held as second 59, and its fraction counts on from there
  have hsplit : (if t.printedSecond = 60 then t.nanos % 1000000000 + 1000000000
      else t.nanos % 1000000000) = t.nanos ∧
      min t.printedSecond 59 = t.secondOfDay % 60 := by
    unfold printedSecond isLeapSecond
    by_cases hno : 1000000000 ≤ t.nanos
    · have hlast : t.seconds % 60 = 59 := h.resolve_left (Nat.not_lt.2 hno)
      have heq : t.secondOfDay % 60 + 1 = 60 := by omega
      simp only [hno, decide_true, if_true, heq]
      omega
    · have hne : ¬t.secondOfDay % 60 + 0 = 60 := by omega
      simp only [hno, decide_false, Bool.false_eq_true, if_false, hne]
      omega
  have hseconds : t.date.toDays * 86400 + ((t.secondOfDay / 3600 * 3600 +
      t.secondOfDay / 60 % 60 * 60 + min t.printedSecond 59 : Nat) : Int) - 0 = t.seconds := by
    rw [hsplit.2, hdays]
    omega
  rw [ofFields?, if_pos ⟨hvalid, by simp only [printedFields]; omega,
    by simp only [printedFields]; omega, hsecond, by simp [printedFields]⟩]
  exact ofUnix?_eq h hseconds hsplit.1

theorem ofFields?_printedFields (t : Instant) : ofFields? t.printedFields = some t.carried := by
  rw [← printedFields_carried, ofFields?_of_isOnClock t.isOnClock_carried]

/-- The text of a moment of the years 0 to 9999 is read. -/
theorem read?_zuluText (t : Instant) (h0 : 0 ≤ t.date.year) (h1 : t.date.year ≤ 9999) :
    read? t.zuluText = some t.carried := by
  rw [read?, read?_zuluText_fields t h0 h1, Option.bind_some, ofFields?_printedFields]

/-! ### Years that do not have four digits -/

/-- The sign that stands before the digits of a year outside 0 to 9999. -/
def yearSign (year : Int) : List Char :=
  if 0 ≤ year ∧ year ≤ 9999 then [] else [if year < 0 then '-' else '+']

theorem yearText_eq (year : Int) : yearText year = yearSign year ++ decimalPadded 4 year.natAbs := by
  unfold yearText yearSign
  split
  next h => rw [List.nil_append, show year.toNat = year.natAbs by omega]
  · rfl

theorem isDigit_of_mem_yearSign {year : Int} {c : Char} (h : c ∈ yearSign year) :
    c.isDigit = false := by
  unfold yearSign at h
  split at h
  · simp at h
  · rw [List.mem_singleton.1 h]
    split <;> decide

theorem yearSign_eq_minus_iff {year : Int} : yearSign year = ['-'] ↔ year < 0 := by
  unfold yearSign
  split
  next h => exact iff_of_false (List.cons_ne_nil _ _).symm (by omega)
  next h =>
    split
    next hneg => exact iff_of_true rfl hneg
    next hneg => exact iff_of_false (by simp) hneg

/-- A signed year is refused. -/
theorem read?_zuluText_eq_none {t : Instant} (h : ¬(0 ≤ t.date.year ∧ t.date.year ≤ 9999)) :
    read? t.zuluText = none := by
  have hsign : ∀ c, yearSign t.date.year = [c] → c.isDigit = false := fun c hc =>
    isDigit_of_mem_yearSign (hc ▸ List.mem_singleton_self c)
  rw [yearSign, if_neg h] at hsign
  have hnumber (cs : List Char) :
      readNumber 4 4 ((if t.date.year < 0 then '-' else '+') :: cs) = none := by
    simp [readNumber, hsign _ rfl]
  rw [read?, zuluText_eq, yearText, if_neg h, List.cons_append, Fields.read?, hnumber]
  rfl

theorem decimalPadded_ne_nil (width n : Nat) : decimalPadded width n ≠ [] := by
  simp [decimalPadded, Text.decimal_ne_nil]

/-- The sign, the digits and the rest of a text that begins with a year can be told apart. -/
theorem yearText_append_inj {y z : Int} {cs ds : List Char}
    (h : yearText y ++ '-' :: cs = yearText z ++ '-' :: ds) : y = z ∧ cs = ds := by
  have hsign (year : Int) (rest : List Char) :
      (yearText year ++ '-' :: rest).takeWhile (!·.isDigit) = yearSign year := by
    obtain ⟨d, digits, hd⟩ := List.exists_cons_of_ne_nil (decimalPadded_ne_nil 4 year.natAbs)
    have hmem : d ∈ decimalPadded 4 year.natAbs := hd ▸ List.mem_cons_self
    have hdigit : d.isDigit := Text.isDigit_of_mem_decimalPadded hmem
    rw [yearText_eq, List.append_assoc, List.takeWhile_append_of_pos, hd]
    · simp [hdigit]
    · intro c hc
      simp [isDigit_of_mem_yearSign hc]
  have hdigits (n : Nat) (rest : List Char) :
      (decimalPadded 4 n ++ '-' :: rest).takeWhile Char.isDigit = decimalPadded 4 n := by
    rw [List.takeWhile_append_of_pos fun _ => Text.isDigit_of_mem_decimalPadded]
    simp [show Char.isDigit '-' = false by decide]
  have hsame : yearSign y = yearSign z := by rw [← hsign y cs, h, hsign]
  rw [yearText_eq, yearText_eq, hsame, List.append_assoc, List.append_assoc] at h
  have hrest := List.append_cancel_left h
  have hpadded : decimalPadded 4 y.natAbs = decimalPadded 4 z.natAbs := by
    rw [← hdigits y.natAbs cs, hrest, hdigits]
  have habs : y.natAbs = z.natAbs := by
    rw [← Text.ofDigitChars_decimalPadded 4 y.natAbs, hpadded, Text.ofDigitChars_decimalPadded]
  rw [hpadded] at hrest
  have hnegative : y < 0 ↔ z < 0 := by rw [← yearSign_eq_minus_iff, hsame, yearSign_eq_minus_iff]
  exact ⟨by omega, (List.cons.inj (List.append_cancel_left hrest)).2⟩

theorem printedFields_of_zuluText {s t : Instant} (h : s.zuluText = t.zuluText) :
    s.printedFields = t.printedFields := by
  rw [zuluText_eq, zuluText_eq] at h
  obtain ⟨hyear, hrest⟩ := yearText_append_inj h
  have hfields : Fields.read? (decimalPadded 4 0 ++ s.afterYear) =
      Fields.read? (decimalPadded 4 0 ++ t.afterYear) := by
    rw [afterYear, afterYear, hrest]
  rw [read?_afterYear s (by omega), read?_afterYear t (by omega)] at hfields
  simp only [Option.some.injEq, printedFields, Fields.mk.injEq, Calendar.Date.mk.injEq] at hfields
  obtain ⟨⟨-, hmonth, hday⟩, hhour, hminute, hsecond, hnanos, -⟩ := hfields
  have hdate : s.date = t.date := by
    cases hs : s.date
    cases ht : t.date
    simp_all
  simp only [printedFields, hdate, hhour, hminute, hsecond, hnanos]

theorem zuluText_of_printedFields {s t : Instant} (h : s.printedFields = t.printedFields) :
    s.zuluText = t.zuluText := by
  obtain ⟨hdate, hhour, hminute, hsecond, hnanos, -⟩ := Fields.mk.inj h
  rw [zuluText_eq, zuluText_eq, afterYear, afterYear, hdate, hhour, hminute, hsecond, hnanos]

/-- Moments have one text only if one is carried into the other, whatever their years. -/
theorem zuluText_eq_iff {s t : Instant} : s.zuluText = t.zuluText ↔ s.carried = t.carried := by
  constructor
  · intro h
    have hnamed := ofFields?_printedFields s
    rw [printedFields_of_zuluText h, ofFields?_printedFields] at hnamed
    exact (Option.some.inj hnamed).symm
  · intro h
    refine zuluText_of_printedFields ?_
    rw [← printedFields_carried s, h, printedFields_carried]

end Instant

namespace Value

/-- The value with a leap second within a minute carried into the seconds. -/
def carried : Value → Value
  | dateTime t => dateTime t.carried
  | v => v

theorem carried_eq_iff {v : Value} : v.carried = v ↔ ∀ t, v = dateTime t → t.IsOnClock := by
  cases v <;> simp [carried, Instant.carried_eq_iff]

end Value

end TableClient
