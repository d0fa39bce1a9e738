/-! Moments of universal time to the nanosecond. A leap second is held as the second before it with at
least 10⁹ nanoseconds, and so comes after that second and before the next. On a clock it is the second
60 of a minute; a moment may hold one behind any second.

Days are those of the proleptic Gregorian calendar: day numbers counted from 1970-01-01 and the dates they
stand for. Years are counted from a March, so that the leap day is the last day of its year and the
lengths of months follow one linear rule. -/

namespace TableClient.Calendar

/-! ### Days -/

structure Date where
  year : Int
  month : Nat
  day : Nat
  deriving DecidableEq

def isLeapYear (year : Int) : Bool :=
  year % 4 = 0 && (year % 100 ≠ 0 || year % 400 = 0)

def daysInMonth (year : Int) (month : Nat) : Nat :=
  if month = 2 then if isLeapYear year then 29 else 28
  else if month = 4 ∨ month = 6 ∨ month = 9 ∨ month = 11 then 30
  else 31

def Date.isValid (d : Date) : Bool :=
  1 ≤ d.month && d.month ≤ 12 && 1 ≤ d.day && d.day ≤ daysInMonth d.year d.month

/-- Days in a cycle of four hundred years. -/
def cycleDays : Int := 146097

/-- The number of 1970-01-01 counted from 1 March of year zero. -/
def epochOffset : Int := 719468

/-- The day number of a date. -/
def Date.toDays (d : Date) : Int :=
  let year := if d.month ≤ 2 then d.year - 1 else d.year
  let month : Int := (d.month + 9) % 12
  let yearOfCycle := year % 400
  let dayOfYear := (153 * month + 2) / 5 + d.day - 1
  year / 400 * cycleDays + yearOfCycle * 365 + yearOfCycle / 4 - yearOfCycle / 100 + dayOfYear
    - epochOffset

/-- The date of a day number. -/
def Date.ofDays (n : Int) : Date :=
  let shifted := n + epochOffset
  let dayOfCycle := shifted % cycleDays
  let yearOfCycle :=
    (dayOfCycle - dayOfCycle / 1460 + dayOfCycle / 36524 - dayOfCycle / 146096) / 365
  let dayOfYear := dayOfCycle - (365 * yearOfCycle + yearOfCycle / 4 - yearOfCycle / 100)
  let month := (5 * dayOfYear + 2) / 153
  let day := dayOfYear - (153 * month + 2) / 5 + 1
  let year := shifted / cycleDays * 400 + yearOfCycle
  { year := if month < 10 then year else year + 1
    month := (if month < 10 then month + 3 else month - 9).toNat
    day := day.toNat }

end TableClient.Calendar

namespace TableClient

/-! ### Moments -/

/-- A moment, in seconds since 1970-01-01T00:00:00Z and nanoseconds. -/
structure Instant where
  seconds : Int
  nanos : Nat
  nanos_lt : nanos < 2000000000
  deriving DecidableEq

namespace Instant

/-- Whether a clock shows these seconds and nanoseconds. -/
abbrev IsClockTime (seconds : Int) (nanos : Nat) : Prop :=
  nanos < 1000000000 ∨ (nanos < 2000000000 ∧ seconds % 60 = 59)

theorem IsClockTime.nanos_lt {seconds : Int} {nanos : Nat} (h : IsClockTime seconds nanos) :
    nanos < 2000000000 := by
  unfold IsClockTime at h
  omega

/-- The moment that a clock shows. -/
def ofUnix? (seconds : Int) (nanos : Nat) : Option Instant :=
  if h : IsClockTime seconds nanos then some ⟨seconds, nanos, h.nanos_lt⟩ else none

/-- 1970-01-01T00:00:00Z. -/
def epoch : Instant := ⟨0, 0, by decide⟩

/-- 0001-01-01T00:00:00Z. -/
def firstYear : Instant := ⟨-62135596800, 0, by decide⟩

instance : Inhabited Instant := ⟨epoch⟩

def compare (s t : Instant) : Ordering :=
  (Ord.compare s.seconds t.seconds).then (Ord.compare s.nanos t.nanos)

def isLeapSecond (t : Instant) : Bool :=
  1000000000 ≤ t.nanos

def date (t : Instant) : Calendar.Date :=
  .ofDays (t.seconds / 86400)

def secondOfDay (t : Instant) : Nat :=
  (t.seconds % 86400).toNat

/-- Date and time of day as they stand in a text, with the offset from universal time. -/
structure Fields where
  date : Calendar.Date
  hour : Nat
  minute : Nat
  second : Nat
  nanos : Nat
  /-- Seconds east of universal time. -/
  offset : Int

/-- The moment that fields name: a real date, a time of day of at most 23:59:60 and an offset of
less than a day. -/
def ofFields? (f : Fields) : Option Instant :=
  if f.date.isValid ∧ f.hour ≤ 23 ∧ f.minute ≤ 59 ∧ f.second ≤ 60 ∧ f.offset.natAbs < 86400 then
    let clock := f.hour * 3600 + f.minute * 60 + min f.second 59
    ofUnix? (f.date.toDays * 86400 + clock - f.offset)
      (if f.second = 60 then f.nanos + 1000000000 else f.nanos)
  else none

end Instant

end TableClient
