import TableClient.Instant.Basic

/-! Day numbers and dates determine each other. A day of a cycle of four hundred years is taken
apart into centuries, groups of four years, years and days; the quotients by which a date is
computed are then exact, and the date is one of the calendar. -/

namespace TableClient.Calendar

theorem bounds_of_isValid {d : Date} (h : d.isValid) :
    1 ≤ d.month ∧ d.month ≤ 12 ∧ 1 ≤ d.day ∧ d.day ≤ 31 := by
  have hdays : daysInMonth d.year d.month ≤ 31 := by
    unfold daysInMonth
    split
    · split <;> decide
    · split <;> decide
  simp only [Date.isValid, Bool.and_eq_true, decide_eq_true_eq] at h
  omega

/-- A day of a cycle in centuries, groups of four years, years and days. The last day of a year
numbered 365 occurs in the last year of a group, and of a century only at the end of the cycle. -/
structure CycleParts (d centuries groups years days : Int) : Prop where
  centuries_nonneg : 0 ≤ centuries
  centuries_le : centuries ≤ 3
  groups_nonneg : 0 ≤ groups
  groups_le : groups ≤ 24
  years_nonneg : 0 ≤ years
  years_le : years ≤ 3
  days_nonneg : 0 ≤ days
  days_le : days ≤ 365
  sum : d = 36524 * centuries + 1461 * groups + 365 * years + days
  leap : days = 365 → years = 3 ∧ (groups = 24 → centuries = 3)

theorem exists_cycleParts {d : Int} (h0 : 0 ≤ d) (h1 : d < cycleDays) :
    ∃ centuries groups years days, CycleParts d centuries groups years days := by
  unfold cycleDays at h1
  obtain ⟨q, hq0, hq3, he0, he1, hlast⟩ : ∃ q : Int, 0 ≤ q ∧ q ≤ 3 ∧ 0 ≤ d - 36524 * q ∧
      d - 36524 * q ≤ 36524 ∧ (d - 36524 * q = 36524 → q = 3) := by
    by_cases h : d < 146096
    · exact ⟨d / 36524, by omega, by omega, by omega, by omega, by omega⟩
    · exact ⟨3, by omega, by omega, by omega, by omega, by omega⟩
  obtain ⟨e, he⟩ : ∃ e, e = d - 36524 * q := ⟨_, rfl⟩
  obtain ⟨s, hs⟩ : ∃ s, s = e - 1461 * (e / 1461) := ⟨_, rfl⟩
  obtain ⟨u, hu0, hu3, hr0, hr1, hday⟩ : ∃ u : Int, 0 ≤ u ∧ u ≤ 3 ∧ 0 ≤ s - 365 * u ∧
      s - 365 * u ≤ 365 ∧ (s - 365 * u = 365 → u = 3) := by
    by_cases h : s < 1460
    · exact ⟨s / 365, by omega, by omega, by omega, by omega, by omega⟩
    · exact ⟨3, by omega, by omega, by omega, by omega, by omega⟩
  exact ⟨q, e / 1461, u, s - 365 * u, hq0, hq3, by omega, by omega, hu0, hu3, hr0, hr1, by omega,
    fun h => ⟨hday h, by omega⟩⟩

variable {d centuries groups years days : Int}

/-- The year of the cycle is the quotient by which `Date.ofDays` finds it. -/
theorem CycleParts.year_eq (p : CycleParts d centuries groups years days) :
    (d - d / 1460 + d / 36524 - d / 146096) / 365 = 100 * centuries + 4 * groups + years := by
  obtain ⟨hc0, hc3, hg0, hg24, hy0, hy3, hd0, hd365, hsum, hleap⟩ := p
  have hlast : 1461 * groups + 365 * years + days ≤ 36523 ∨ centuries = 3 := by
    by_cases hd : days = 365
    · obtain ⟨-, hgroup⟩ := hleap hd
      by_cases hg : groups = 24
      · exact .inr (hgroup hg)
      · exact .inl (by omega)
    · exact .inl (by omega)
  have hcentury : d / 36524 - d / 146096 = centuries := by
    rcases hlast with h | rfl
    · have hwhole : d / 146096 = 0 := by omega
      have hquot : d / 36524 = centuries := by omega
      omega
    · omega
  by_cases h : 24 * centuries + groups + 365 * years + days < 1460
  · have hgroup : d / 1460 = 25 * centuries + groups := by omega
    omega
  · have hgroup : d / 1460 = 25 * centuries + groups + 1 := by omega
    omega

/-- The day of the year is what the days of earlier years leave. -/
theorem CycleParts.day_eq (p : CycleParts d centuries groups years days) :
    d - (365 * (100 * centuries + 4 * groups + years) + (100 * centuries + 4 * groups + years) / 4
      - (100 * centuries + 4 * groups + years) / 100) = days := by
  obtain ⟨hc0, hc3, hg0, hg24, hy0, hy3, hd0, hd365, hsum, hleap⟩ := p
  have hfour : (100 * centuries + 4 * groups + years) / 4 = 25 * centuries + groups := by omega
  have hhundred : (100 * centuries + 4 * groups + years) / 100 = centuries := by omega
  omega

/-- A year whose last day is numbered 365 is followed by a leap year. -/
theorem CycleParts.isLeapYear_next (p : CycleParts d centuries groups years days)
    (h : days = 365) (cycle : Int) :
    isLeapYear (cycle * 400 + (100 * centuries + 4 * groups + years) + 1) := by
  obtain ⟨hyears, hgroups⟩ := p.leap h
  have hg0 := p.groups_nonneg
  have hg24 := p.groups_le
  have hfour : (cycle * 400 + (100 * centuries + 4 * groups + years) + 1) % 4 = 0 := by omega
  by_cases hg : groups = 24
  · have hc := hgroups hg
    have hcycle : (cycle * 400 + (100 * centuries + 4 * groups + years) + 1) % 400 = 0 := by omega
    simp [isLeapYear, hfour, hcycle]
  · have hcentury : (cycle * 400 + (100 * centuries + 4 * groups + years) + 1) % 100 ≠ 0 := by
      omega
    simp [isLeapYear, hfour, hcentury]

/-- A date written by cycle, year of the cycle and day of the year, years beginning in March. -/
def Date.ofParts (cycle year day : Int) : Date :=
  let month := (5 * day + 2) / 153
  { year := if month < 10 then cycle * 400 + year else cycle * 400 + year + 1
    month := (if month < 10 then month + 3 else month - 9).toNat
    day := (day - (153 * month + 2) / 5 + 1).toNat }

theorem ofDays_eq_ofParts (n : Int) (p : CycleParts ((n + epochOffset) % cycleDays)
    centuries groups years days) :
    Date.ofDays n = Date.ofParts ((n + epochOffset) / cycleDays)
      (100 * centuries + 4 * groups + years) days := by
  simp only [Date.ofDays, Date.ofParts, p.year_eq, p.day_eq]

theorem toDays_ofParts {cycle year day : Int} (hy0 : 0 ≤ year) (hy : year < 400) (hd0 : 0 ≤ day)
    (hd : day ≤ 365) :
    (Date.ofParts cycle year day).toDays =
      cycle * cycleDays + (365 * year + year / 4 - year / 100) + day - epochOffset := by
  obtain ⟨month, hm⟩ : ∃ month, month = (5 * day + 2) / 153 := ⟨_, rfl⟩
  have hcycle : (cycle * 400 + year) / 400 = cycle := by omega
  have hyear : (cycle * 400 + year) % 400 = year := by omega
  by_cases h : month < 10
  · have hmonth : ((month + 3).toNat : Int) = month + 3 := by omega
    have hback : (month + 3 + 9) % 12 = month := by omega
    have hlate : ¬(month + 3).toNat ≤ 2 := by omega
    have hday : ((day - (153 * month + 2) / 5 + 1).toNat : Int) =
        day - (153 * month + 2) / 5 + 1 := by omega
    simp only [Date.ofParts, Date.toDays, ← hm, h, if_true, hlate, if_false, hmonth, hback, hday,
      hcycle, hyear]
    omega
  · have hmonth : ((month - 9).toNat : Int) = month - 9 := by omega
    have hback : (month - 9 + 9) % 12 = month := by omega
    have hearly : (month - 9).toNat ≤ 2 := by omega
    have hday : ((day - (153 * month + 2) / 5 + 1).toNat : Int) =
        day - (153 * month + 2) / 5 + 1 := by omega
    have hprior : cycle * 400 + year + 1 - 1 = cycle * 400 + year := by omega
    simp only [Date.ofParts, Date.toDays, ← hm, h, if_true, hearly, if_false, hmonth, hback, hday,
      hprior, hcycle, hyear]
    omega

/-- A day number is recovered from its date. -/
theorem toDays_ofDays (n : Int) : (Date.ofDays n).toDays = n := by
  have hpos : (0 : Int) < cycleDays := by decide
  obtain ⟨q, f, u, r, p⟩ := exists_cycleParts (Int.emod_nonneg (n + epochOffset) (by decide))
    (Int.emod_lt_of_pos (n + epochOffset) hpos)
  obtain ⟨hc0, hc3, hg0, hg24, hy0, hy3, hd0, hd365, hsum, hleap⟩ := id p
  have hday := p.day_eq
  rw [ofDays_eq_ofParts n p, toDays_ofParts (by omega) (by omega) hd0 hd365]
  have hsplit := Int.mul_ediv_add_emod (n + epochOffset) cycleDays
  rw [Int.mul_comm] at hsplit
  omega

/-- The date of a day number is one of the calendar. -/
theorem isValid_ofDays (n : Int) : (Date.ofDays n).isValid := by
  have hpos : (0 : Int) < cycleDays := by decide
  obtain ⟨q, f, u, r, p⟩ := exists_cycleParts (Int.emod_nonneg (n + epochOffset) (by decide))
    (Int.emod_lt_of_pos (n + epochOffset) hpos)
  rw [ofDays_eq_ofParts n p]
  have hd0 := p.days_nonneg
  have hd365 := p.days_le
  obtain ⟨cycle, hcycle⟩ : ∃ c, c = (n + epochOffset) / cycleDays := ⟨_, rfl⟩
  obtain ⟨month, hm⟩ : ∃ month, month = (5 * r + 2) / 153 := ⟨_, rfl⟩
  simp only [Date.isValid, Date.ofParts, ← hm, ← hcycle, daysInMonth, Bool.and_eq_true,
    decide_eq_true_eq]
  have hfirst : 1 ≤ (r - (153 * month + 2) / 5 + 1).toNat := by omega
  by_cases h : month < 10
  · have hlate : (month + 3).toNat ≠ 2 := by omega
    simp only [h, if_true, hlate, if_false]
    refine ⟨⟨⟨by omega, by omega⟩, hfirst⟩, ?_⟩
    split <;> omega
  · by_cases hfeb : month = 11
    · subst hfeb
      simp only [show ¬((11 : Int) < 10) by omega, if_false,
        show ((11 : Int) - 9).toNat = 2 by omega, if_true]
      refine ⟨⟨⟨by omega, by omega⟩, by omega⟩, ?_⟩
      by_cases hr : r = 365
      · rw [if_pos (p.isLeapYear_next hr cycle)]; omega
      · split <;> omega
    · have hjan : month = 10 := by omega
      subst hjan
      simp only [show ¬((10 : Int) < 10) by omega, if_false,
        show ((10 : Int) - 9).toNat = 1 by omega]
      refine ⟨⟨⟨by omega, by omega⟩, by omega⟩, ?_⟩
      simp only [show ¬(1 = 2) by omega, if_false]
      split <;> omega

end TableClient.Calendar
