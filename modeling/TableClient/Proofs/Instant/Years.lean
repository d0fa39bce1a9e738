import TableClient.Proofs.Instant.RoundTrip

/-! The years of moments. The days of a year lie between its first and its last, and the years follow one
another, so that the year of a day number is known from two bounds. A text names a year of four digits
in its own offset; the moment that it names may lie in another year only by that offset, on the first day
or on the last. -/

namespace TableClient

namespace Calendar

/-- The days between 1 March of year zero and 1 March of a year. -/
def marchDays (year : Int) : Int :=
  365 * year + year / 4 - year / 100 + year / 400

theorem marchDays_pred (year : Int) :
    marchDays (year - 1) + 365 ≤ marchDays year ∧ marchDays year ≤ marchDays (year - 1) + 366 := by
  unfold marchDays
  omega

theorem toDays_of_le {d : Date} (h1 : 1 ≤ d.month) (h2 : d.month ≤ 2) :
    d.toDays = marchDays (d.year - 1) + 306 + 31 * (d.month - 1 : Int) + d.day - 1 - epochOffset := by
  dsimp only [Date.toDays, cycleDays, marchDays]
  rw [if_pos h2]
  omega

theorem toDays_of_lt {d : Date} (h2 : 2 < d.month) (h12 : d.month ≤ 12) :
    d.toDays = marchDays d.year + (153 * (d.month - 3 : Int) + 2) / 5 + d.day - 1 - epochOffset := by
  dsimp only [Date.toDays, cycleDays, marchDays]
  rw [if_neg (Nat.not_le.2 h2)]
  omega

def firstDay (year : Int) : Date :=
  ⟨year, 1, 1⟩

def lastDay (year : Int) : Date :=
  ⟨year, 12, 31⟩

theorem toDays_firstDay (year : Int) :
    (firstDay year).toDays = marchDays (year - 1) + 306 - epochOffset := by
  rw [toDays_of_le (Nat.le_refl 1) (Nat.le_succ 1)]
  simp only [firstDay]
  omega

theorem toDays_lastDay (year : Int) : (lastDay year).toDays = marchDays year + 305 - epochOffset := by
  rw [toDays_of_lt (by simp [lastDay]) (Nat.le_refl 12)]
  simp only [lastDay]
  omega

theorem firstDay_le_lastDay (year : Int) : (firstDay year).toDays ≤ (lastDay year).toDays := by
  have hyear := marchDays_pred year
  rw [toDays_firstDay, toDays_lastDay]
  omega

/-- No day of a year is before its first, and none other has the same number. -/
theorem firstDay_le {d : Date} (h : d.isValid) :
    (firstDay d.year).toDays ≤ d.toDays ∧ (d.toDays = (firstDay d.year).toDays ↔ d = firstDay d.year) := by
  obtain ⟨hm1, hm12, hd1, hd31⟩ := bounds_of_isValid h
  have hyear := marchDays_pred d.year
  obtain ⟨year, month, day⟩ := d
  simp only at *
  rw [toDays_firstDay]
  by_cases h2 : month ≤ 2
  · rw [toDays_of_le hm1 h2]
    simp only [firstDay, Date.mk.injEq, true_and]
    omega
  · rw [toDays_of_lt (by simpa using h2) hm12]
    simp only [firstDay, Date.mk.injEq, true_and]
    omega

/-- No day of a year is after its last, and none other has the same number. -/
theorem le_lastDay {d : Date} (h : d.isValid) :
    d.toDays ≤ (lastDay d.year).toDays ∧ (d.toDays = (lastDay d.year).toDays ↔ d = lastDay d.year) := by
  obtain ⟨hm1, hm12, hd1, hd31⟩ := bounds_of_isValid h
  have hyear := marchDays_pred d.year
  obtain ⟨year, month, day⟩ := d
  simp only at *
  rw [toDays_lastDay]
  by_cases h2 : month ≤ 2
  · rw [toDays_of_le hm1 h2]
    simp only [lastDay, Date.mk.injEq, true_and]
    omega
  · rw [toDays_of_lt (by simpa using h2) hm12]
    simp only [lastDay, Date.mk.injEq, true_and]
    omega

theorem marchDays_mono {y z : Int} (h : y ≤ z) : marchDays y ≤ marchDays z := by
  unfold marchDays
  omega

/-- The year of a date is known from its day number. -/
theorem le_year_iff {d : Date} (h : d.isValid) (year : Int) :
    year ≤ d.year ↔ (firstDay year).toDays ≤ d.toDays := by
  have hfirst := (firstDay_le h).1
  have hlast := (le_lastDay h).1
  rw [toDays_firstDay] at hfirst ⊢
  rw [toDays_lastDay] at hlast
  constructor
  · intro hle
    have hmono := marchDays_mono (show year - 1 ≤ d.year - 1 by omega)
    omega
  · refine fun hle => Int.not_lt.1 fun hlt => ?_
    have hmono := marchDays_mono (show d.year ≤ year - 1 by omega)
    omega

theorem year_le_iff {d : Date} (h : d.isValid) (year : Int) :
    d.year ≤ year ↔ d.toDays ≤ (lastDay year).toDays := by
  have hnext := le_year_iff h (year + 1)
  rw [toDays_firstDay, show year + 1 - 1 = year by omega] at hnext
  rw [toDays_lastDay]
  omega

theorem eq_firstDay_iff {d : Date} (h : d.isValid) (year : Int) :
    d = firstDay year ↔ d.toDays = (firstDay year).toDays := by
  constructor
  · rintro rfl
    rfl
  · intro hsame
    have hle := (le_year_iff h year).2 (Int.le_of_eq hsame.symm)
    have hge := (year_le_iff h year).2 (by rw [hsame]; exact firstDay_le_lastDay year)
    obtain rfl : d.year = year := by omega
    exact (firstDay_le h).2.1 hsame

theorem eq_lastDay_iff {d : Date} (h : d.isValid) (year : Int) :
    d = lastDay year ↔ d.toDays = (lastDay year).toDays := by
  constructor
  · rintro rfl
    rfl
  · intro hsame
    have hge := (year_le_iff h year).2 (Int.le_of_eq hsame)
    have hle := (le_year_iff h year).2 (by rw [hsame]; exact firstDay_le_lastDay year)
    obtain rfl : d.year = year := by omega
    exact (le_lastDay h).2.1 hsame

end Calendar

namespace Instant

open Calendar (firstDay lastDay)

/-! ### Moments that fields name -/

theorem readNumber_lt {least most n : Nat} {cs rest : List Char}
    (h : readNumber least most cs = some (n, rest)) : n < 10 ^ most := by
  obtain ⟨ds, hds⟩ : ∃ ds, ds = (cs.take most).takeWhile Char.isDigit := ⟨_, rfl⟩
  have hlength : ds.length ≤ most := by
    rw [hds]
    exact Nat.le_trans (List.takeWhile_sublist _).length_le (List.length_take_le _ _)
  have hdigit : ∀ c ∈ ds, c.isDigit := by
    rw [hds]
    exact List.all_eq_true.1 List.all_takeWhile
  have hvalue : Nat.ofDigitChars 10 ds 0 = n := by
    simp only [readNumber, ← hds] at h
    split at h
    · cases h
    · exact (Prod.mk.inj (Option.some.inj h)).1
  calc n = Nat.ofDigitChars 10 ds 0 := hvalue.symm
    _ < 1 * 10 ^ ds.length := Text.ofDigitChars_lt hdigit 0
    _ ≤ 10 ^ most := by
      rw [Nat.one_mul]
      exact Nat.pow_le_pow_right (by decide) hlength

theorem year_of_read? {cs : List Char} {f : Fields} (h : Fields.read? cs = some f) :
    0 ≤ f.date.year ∧ f.date.year ≤ 9999 := by
  unfold Fields.read? at h
  obtain ⟨⟨year, cs⟩, hyear, h⟩ := Option.bind_eq_some_iff.1 h
  have hlt := readNumber_lt hyear
  -- the other twelve readings leave the year as it is
  iterate 12 obtain ⟨_, -, h⟩ := Option.bind_eq_some_iff.1 h
  simp only at h
  split at h
  · cases h
  · cases h
    simp only
    omega

/-- Seconds since midnight, in the offset of the fields. -/
def Fields.clock (f : Fields) : Nat :=
  f.hour * 3600 + f.minute * 60 + min f.second 59

/-- The offset takes the moment to the year before 0 or to the year after 9999. -/
def Fields.LeavesYears (f : Fields) : Prop :=
  f.date = firstDay 0 ∧ f.clock < f.offset ∨ f.date = lastDay 9999 ∧ 86400 ≤ f.clock - f.offset

/-- What fields are known to be, if they name a moment. -/
structure Fields.Names (f : Fields) (t : Instant) : Prop where
  isValid : f.date.isValid
  clock_lt : f.clock < 86400
  offset_lt : f.offset.natAbs < 86400
  seconds_eq : t.seconds = f.date.toDays * 86400 + f.clock - f.offset
  isOnClock : t.IsOnClock

theorem isOnClock_of_ofUnix? {seconds : Int} {nanos : Nat} {t : Instant}
    (h : ofUnix? seconds nanos = some t) : t.seconds = seconds ∧ t.IsOnClock := by
  unfold ofUnix? at h
  split at h
  next hclock =>
    cases h
    exact ⟨rfl, hclock.imp_right And.right⟩
  next => cases h

theorem names_of_ofFields? {f : Fields} {t : Instant} (h : ofFields? f = some t) : f.Names t := by
  unfold ofFields? at h
  by_cases hfields : f.date.isValid ∧ f.hour ≤ 23 ∧ f.minute ≤ 59 ∧ f.second ≤ 60 ∧
      f.offset.natAbs < 86400
  · rw [if_pos hfields] at h
    obtain ⟨hvalid, hhour, hminute, -, hoffset⟩ := hfields
    obtain ⟨hseconds, honclock⟩ := isOnClock_of_ofUnix? h
    refine ⟨hvalid, ?_, hoffset, hseconds, honclock⟩
    unfold Fields.clock
    omega
  · rw [if_neg hfields] at h
    cases h

/-- The moments of the years 0 to 9999 are those of the days between the first and the last of them. -/
theorem fourDigits_iff (t : Instant) : 0 ≤ t.date.year ∧ t.date.year ≤ 9999 ↔
    (firstDay 0).toDays ≤ t.seconds / 86400 ∧ t.seconds / 86400 ≤ (lastDay 9999).toDays := by
  have hvalid : t.date.isValid := Calendar.isValid_ofDays _
  have hdays : t.date.toDays = t.seconds / 86400 := Calendar.toDays_ofDays _
  rw [Calendar.le_year_iff hvalid, Calendar.year_le_iff hvalid, hdays]

/-- An offset is less than a day, so it matters on two days only. -/
theorem leavesYears_iff {f : Fields} {t : Instant} (h : f.Names t) (h0 : 0 ≤ f.date.year)
    (h1 : f.date.year ≤ 9999) : f.LeavesYears ↔ ¬(0 ≤ t.date.year ∧ t.date.year ≤ 9999) := by
  obtain ⟨hvalid, hclock, hoffset, hseconds, -⟩ := h
  rw [Calendar.le_year_iff hvalid] at h0
  rw [Calendar.year_le_iff hvalid] at h1
  rw [fourDigits_iff, Fields.LeavesYears, Calendar.eq_firstDay_iff hvalid,
    Calendar.eq_lastDay_iff hvalid]
  omega

end Instant

end TableClient
