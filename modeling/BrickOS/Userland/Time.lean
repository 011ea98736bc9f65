import Mathlib.Algebra.BigOperators.Intervals
import Mathlib.Algebra.Order.BigOperators.Group.Finset
import Mathlib.Algebra.Order.Ring.Nat

/-! The calendar of the C library: a timestamp is taken apart by loops of subtractions. -/
namespace BrickOS.Userland

structure Date where
  year : ℕ
  month : ℕ
  day : ℕ
  hour : ℕ
  minute : ℕ
  second : ℕ
deriving DecidableEq, Repr

def isLeapYear (year : ℕ) : Bool := year % 4 = 0 ∧ year % 100 ≠ 0 ∨ year % 400 = 0

def yearDays (year : ℕ) : ℕ := if isLeapYear year then 366 else 365

/-- The loop over the years, on 32-bit days and a 16-bit year. It yields nothing when it takes
`fuel` turns or more. -/
def skipYears : ℕ → ℕ → ℕ → Option (ℕ × ℕ)
  | 0, _, _ => none
  | fuel + 1, nDays, currYear =>
    if 364 < nDays then
      skipYears fuel ((nDays + 2 ^ 32 - yearDays currYear) % 2 ^ 32) ((currYear + 1) % 2 ^ 16)
    else some (nDays, currYear)

def monthDays : List ℕ := [31, 28, 31, 30, 31, 30, 31, 31, 30, 31, 30, 31]

/-- The loop over the months, with the month and the day that follow from it. The list holds the
days of the months from `currMonth` on; it yields nothing behind its end. -/
def skipMonths (leap : Bool) (nDays currMonth : ℕ) : List ℕ → Option (ℕ × ℕ)
  | [] => none
  | days :: rest =>
    if days < nDays then
      skipMonths leap (if currMonth = 1 ∧ leap then nDays - days - 1 else nDays - days)
        (currMonth + 1) rest
    else if days < nDays + 1 then some (((currMonth + 1) % 12 + 1) % 12, 1)
    else some ((currMonth + 1) % 12, nDays + 1)

def takeUnits (unit : ℕ) (hunit : 0 < unit) (secondsLeft taken : ℕ) : ℕ × ℕ :=
  if unit < secondsLeft then takeUnits unit hunit (secondsLeft - unit) (taken + 1)
  else (taken, secondsLeft)

def parseUnixTimestamp (fuel timestamp : ℕ) : Option Date := do
  let (nDays, year) ← skipYears fuel (timestamp / (60 * 60 * 24) % 2 ^ 32) 1970
  -- The rule for the months leaves out the years that 400 divides.
  let (month, day) ← skipMonths (year % 4 = 0 ∧ year % 100 ≠ 0) nDays 0 monthDays
  let hours := takeUnits 3600 (Nat.succ_pos _) (timestamp % (60 * 60 * 24)) 0
  let minutes := takeUnits 60 (Nat.succ_pos _) hours.2 0
  return ⟨year, month, day, hours.1, minutes.1, minutes.2⟩

/-! The proleptic Gregorian calendar from 1970 on. -/

def monthLength (leap : Bool) (month : ℕ) : ℕ :=
  if month = 2 then if leap then 29 else 28
  else if month ∈ [4, 6, 9, 11] then 30
  else 31

def daysBeforeYear (year : ℕ) : ℕ := ∑ y ∈ Finset.Ico 1970 year, yearDays y

def daysBeforeMonth (leap : Bool) (month : ℕ) : ℕ := ∑ m ∈ Finset.Ico 1 month, monthLength leap m

namespace Date

structure Valid (date : Date) : Prop where
  year : 1970 ≤ date.year
  month : 1 ≤ date.month ∧ date.month ≤ 12
  day : 1 ≤ date.day ∧ date.day ≤ monthLength (isLeapYear date.year) date.month
  hour : date.hour < 24
  minute : date.minute < 60
  second : date.second < 60

def dayOfYear (date : Date) : ℕ :=
  daysBeforeMonth (isLeapYear date.year) date.month + (date.day - 1)

def seconds (date : Date) : ℕ :=
  (daysBeforeYear date.year + date.dayOfYear) * 86400 + date.hour * 3600 + date.minute * 60 +
    date.second

/-- The dates that are found: none in December, no leap day, none of 2000 after its leap day and
no full minute but midnight. -/
structure Found (date : Date) : Prop where
  month : date.month ≠ 12
  day : ¬ (date.month = 2 ∧ date.day = 29)
  year : date.year = 2000 → date.month ≤ 2
  second : date.second = 0 → date.hour = 0 ∧ date.minute = 0

end Date

/-- `parse_unix_timestamp` ends with the date and the time of day of the timestamp. -/
def Converts (timestamp : ℕ) : Prop :=
  ∃ fuel date, parseUnixTimestamp fuel timestamp = some date ∧ date.Valid ∧
    date.seconds = timestamp

section Loops

variable {fuel fuel' nDays year : ℕ}

/-- More turns change nothing once the loop has ended. -/
theorem skipYears_unique {r r' : ℕ × ℕ} (h : skipYears fuel nDays year = some r)
    (h' : skipYears fuel' nDays year = some r') : r = r' := by
  induction fuel generalizing fuel' nDays year with
  | zero => cases h
  | succ fuel ih =>
    cases fuel' with
    | zero => cases h'
    | succ fuel' =>
      rw [skipYears] at h h'
      split_ifs at h h' with hn
      · exact ih h h'
      · exact Option.some.inj (h.symm.trans h')

theorem skipYears_le {r : ℕ × ℕ} (h : skipYears fuel nDays year = some r) : r.1 ≤ 364 := by
  induction fuel generalizing nDays year with
  | zero => cases h
  | succ fuel ih =>
    rw [skipYears] at h
    split_ifs at h with hn
    · exact ih h
    · obtain rfl := Option.some.inj h
      exact Nat.le_of_not_lt hn

theorem yearDays_bounds (year : ℕ) : 365 ≤ yearDays year ∧ yearDays year ≤ 366 := by
  unfold yearDays
  split_ifs <;> decide

/-- From the start of a year the loop comes to every later day but the last ones of leap years. -/
theorem skipYears_sum (turns : ℕ) (hn : nDays ≤ 364) (hyear : year + turns < 2 ^ 16)
    (hdays : ∑ y ∈ Finset.Ico year (year + turns), yearDays y + nDays < 2 ^ 32) :
    skipYears (turns + 1) (∑ y ∈ Finset.Ico year (year + turns), yearDays y + nDays) year =
      some (nDays, year + turns) := by
  induction turns generalizing year with
  | zero => simp [skipYears, Nat.not_lt_of_le hn]
  | succ turns ih =>
    have hsplit : ∑ y ∈ Finset.Ico year (year + (turns + 1)), yearDays y =
        yearDays year + ∑ y ∈ Finset.Ico (year + 1) (year + 1 + turns), yearDays y := by
      rw [Finset.sum_eq_sum_Ico_succ_bot (by omega), Nat.add_right_comm, Nat.add_assoc]
    rw [hsplit] at hdays ⊢
    have hlen := yearDays_bounds year
    rw [skipYears, if_pos (by omega), Nat.mod_eq_of_lt (by omega : year + 1 < 2 ^ 16)]
    have hleft : (yearDays year + ∑ y ∈ Finset.Ico (year + 1) (year + 1 + turns), yearDays y +
        nDays + 2 ^ 32 - yearDays year) % 2 ^ 32 =
          ∑ y ∈ Finset.Ico (year + 1) (year + 1 + turns), yearDays y + nDays := by
      omega
    rw [hleft, ih (by omega) (by omega)]
    congr 2
    omega

set_option synthInstance.maxSize 512 in
/-- What the loop over the months comes to; `leap` says what the year is and `code` what it is
taken for. -/
theorem skipMonths_daysBeforeMonth : ∀ leap code : Bool, ∀ m < 11, ∀ d < monthLength leap (m + 1),
    (leap = code ∨ m < 2) ∧ ¬ (m = 1 ∧ d = 28) →
      skipMonths code (daysBeforeMonth leap (m + 1) + d) 0 monthDays = some (m + 1, d + 1) := by
  decide +kernel

/-- After February a leap year that is not taken for one is off by a day. -/
theorem skipMonths_daysBeforeMonth_ne : ∀ m < 11, ∀ d < monthLength true (m + 1), 2 ≤ m →
    skipMonths false (daysBeforeMonth true (m + 1) + d) 0 monthDays ≠ some (m + 1, d + 1) := by
  decide +kernel

theorem daysBeforeMonth_le : ∀ leap : Bool, ∀ m < 11, ∀ d < monthLength leap (m + 1),
    daysBeforeMonth leap (m + 1) + d ≤ 364 := by
  decide +kernel

theorem skipMonths_ne : ∀ code : Bool, ∀ nDays ≤ 364, ∀ r ∈ skipMonths code nDays 0 monthDays,
    r.1 ≠ 12 ∧ ¬ (r.1 = 2 ∧ r.2 = 29) := by
  decide +kernel

end Loops

/-- The loop stops before the last unit is taken off. -/
theorem takeUnits_eq {unit : ℕ} (hunit : 0 < unit) (secondsLeft taken : ℕ) :
    takeUnits unit hunit secondsLeft taken =
      (taken + (secondsLeft - 1) / unit, secondsLeft - (secondsLeft - 1) / unit * unit) := by
  fun_induction takeUnits with
  | case1 left taken hlt ih =>
    rw [ih]
    have hdiv : (left - 1) / unit = (left - unit - 1) / unit + 1 := by
      rw [show left - 1 = left - unit - 1 + unit by omega, Nat.add_div_right _ hunit]
    rw [hdiv, Nat.add_mul]
    ext <;> simp <;> omega
  | case2 left taken hlt =>
    rw [Nat.div_eq_of_lt (by omega)]
    simp

namespace Date

variable {date : Date} {fuel timestamp : ℕ}

theorem Valid.seconds_div (hvalid : date.Valid) :
    date.seconds / (60 * 60 * 24) = daysBeforeYear date.year + date.dayOfYear ∧
      date.seconds % (60 * 60 * 24) = date.hour * 3600 + date.minute * 60 + date.second := by
  have hh := hvalid.hour
  have hm := hvalid.minute
  have hs := hvalid.second
  unfold seconds
  omega

theorem year_lt (h : date.seconds < daysBeforeYear 2400 * 86400) :
    date.year < 2400 := by
  by_contra hle
  have hmono : daysBeforeYear 2400 ≤ daysBeforeYear date.year :=
    Finset.sum_le_sum_of_subset (Finset.Ico_subset_Ico_right (Nat.le_of_not_lt hle))
  unfold seconds at h
  omega

theorem Valid.exists_month (hvalid : date.Valid) (hmonth : date.month ≠ 12) :
    ∃ m d, date.month = m + 1 ∧ date.day = d + 1 ∧ m < 11 ∧
      d < monthLength (isLeapYear date.year) (m + 1) := by
  have hm := hvalid.month
  have hd := hvalid.day
  refine ⟨date.month - 1, date.day - 1, by omega, by omega, by omega, ?_⟩
  rw [Nat.sub_add_cancel hm.1]
  omega

/-- The year and the day of the year are found outside December. -/
theorem Valid.skipYears_eq (hvalid : date.Valid) (hmonth : date.month ≠ 12)
    (hyear : date.year < 2400) : ∃ fuel,
      skipYears fuel ((daysBeforeYear date.year + date.dayOfYear) % 2 ^ 32) 1970 =
        some (date.dayOfYear, date.year) := by
  have hday : date.dayOfYear ≤ 364 := by
    obtain ⟨m, d, hm, hd, hm11, hdlt⟩ := hvalid.exists_month hmonth
    rw [dayOfYear, hm, hd]
    exact daysBeforeMonth_le _ m hm11 d hdlt
  have hsum : daysBeforeYear date.year ≤ daysBeforeYear 2400 :=
    Finset.sum_le_sum_of_subset (Finset.Ico_subset_Ico_right hyear.le)
  have hlt : daysBeforeYear 2400 < 2 ^ 31 := by decide +kernel
  obtain ⟨turns, hturns⟩ := Nat.exists_eq_add_of_le hvalid.year
  rw [Nat.mod_eq_of_lt (by omega), daysBeforeYear, hturns]
  refine ⟨turns + 1, skipYears_sum turns hday (by omega) ?_⟩
  rw [← hturns]
  change daysBeforeYear date.year + _ < _
  omega

/-- The months take the leap years before 2400 for what they are, but not 2000. -/
theorem isLeapYear_eq {year : ℕ} (hle : 1970 ≤ year) (hlt : year < 2400) (hne : year ≠ 2000) :
    isLeapYear year = decide (year % 4 = 0 ∧ year % 100 ≠ 0) := by
  have h400 : year % 400 ≠ 0 := by omega
  simp [isLeapYear, h400]

theorem Valid.parse_eq (hvalid : date.Valid) (hfound : date.Found) (hyear : date.year < 2400) :
    ∃ fuel, parseUnixTimestamp fuel date.seconds = some date := by
  obtain ⟨hdays, hsecs⟩ := hvalid.seconds_div
  obtain ⟨fuel, hskip⟩ := hvalid.skipYears_eq hfound.month hyear
  obtain ⟨m, d, hm, hd, hm11, hdlt⟩ := hvalid.exists_month hfound.month
  have hmonths : skipMonths (date.year % 4 = 0 ∧ date.year % 100 ≠ 0) date.dayOfYear 0 monthDays =
      some (date.month, date.day) := by
    rw [dayOfYear, hm, hd]
    refine skipMonths_daysBeforeMonth _ _ m hm11 d hdlt ⟨?_, fun h => hfound.day (by omega)⟩
    by_cases h2000 : date.year = 2000
    · have := hfound.year h2000
      exact .inr (by omega)
    · exact .inl (isLeapYear_eq hvalid.year hyear h2000)
  refine ⟨fuel, ?_⟩
  have hh := hvalid.hour
  have hmin := hvalid.minute
  have hs := hvalid.second
  have hzero := hfound.second
  have hhour : (date.hour * 3600 + date.minute * 60 + date.second - 1) / 3600 = date.hour := by
    omega
  have hleft : date.hour * 3600 + date.minute * 60 + date.second - date.hour * 3600 =
      date.minute * 60 + date.second := by omega
  have hminute : (date.minute * 60 + date.second - 1) / 60 = date.minute := by omega
  simp only [parseUnixTimestamp, hdays, hsecs, takeUnits_eq, hhour, hleft, hminute,
    Option.bind_eq_bind, hskip, hmonths, Option.bind_some, Nat.zero_add, Nat.add_sub_cancel_left]
  rfl

/-- What a date that was parsed comes from. -/
theorem of_parse (h : parseUnixTimestamp fuel timestamp = some date) :
    (∃ nDays, skipYears fuel (timestamp / (60 * 60 * 24) % 2 ^ 32) 1970 = some (nDays, date.year) ∧
      skipMonths (date.year % 4 = 0 ∧ date.year % 100 ≠ 0) nDays 0 monthDays =
        some (date.month, date.day)) ∧
    (date.second = 0 → date.hour = 0 ∧ date.minute = 0) := by
  simp only [parseUnixTimestamp, Option.bind_eq_bind, Option.bind_eq_some_iff, takeUnits_eq] at h
  obtain ⟨⟨nDays, year⟩, hskip, ⟨month, day⟩, hmonths, h⟩ := h
  cases h
  refine ⟨⟨nDays, hskip, hmonths⟩, ?_⟩
  dsimp only
  omega

theorem Valid.found (hvalid : date.Valid)
    (hparse : parseUnixTimestamp fuel date.seconds = some date) : date.Found := by
  obtain ⟨⟨nDays, hskip, hmonths⟩, hsecond⟩ := of_parse hparse
  obtain ⟨hmonth, hday⟩ := skipMonths_ne _ nDays (skipYears_le hskip) _ hmonths
  refine ⟨hmonth, hday, fun h2000 => ?_, hsecond⟩
  by_contra hlt
  obtain ⟨fuel', hskip'⟩ := hvalid.skipYears_eq hmonth (by omega)
  obtain ⟨m, d, hm, hd, hm11, hdlt⟩ := hvalid.exists_month hmonth
  -- The loop over the years ends in 2000 with the right day, which the months then miss.
  rw [hvalid.seconds_div.1] at hskip
  cases skipYears_unique hskip hskip'
  rw [dayOfYear, hm, hd, h2000] at hmonths
  rw [h2000] at hdlt
  exact skipMonths_daysBeforeMonth_ne m hm11 d hdlt (by omega) hmonths

end Date

/-- Of the timestamps before 2400, those of the dates that are found are converted. -/
theorem converts_iff {timestamp : ℕ} (h : timestamp < daysBeforeYear 2400 * 86400) :
    Converts timestamp ↔ ∃ date : Date, date.Valid ∧ date.seconds = timestamp ∧ date.Found := by
  constructor
  · rintro ⟨fuel, date, hparse, hvalid, rfl⟩
    exact ⟨date, hvalid, rfl, hvalid.found hparse⟩
  · rintro ⟨date, hvalid, rfl, hfound⟩
    obtain ⟨fuel, hparse⟩ := hvalid.parse_eq hfound (Date.year_lt h)
    exact ⟨fuel, date, hparse, hvalid, rfl⟩

/-- The evening of 28 February 2024. -/
theorem converts_evening : 1709150703 < daysBeforeYear 2400 * 86400 ∧ Converts 1709150703 := by
  have hlt : 1709150703 < daysBeforeYear 2400 * 86400 := by decide +kernel
  refine ⟨hlt, (converts_iff hlt).2 ⟨⟨2024, 2, 28, 20, 5, 3⟩, ?_, by decide +kernel, ?_⟩⟩
  · constructor <;> decide
  · constructor <;> decide

/-- One minute past the start of 1970 comes out as sixty seconds past it. -/
theorem not_converts_minute : ¬ Converts 60 := by
  rintro ⟨fuel, date, hparse, hvalid, -⟩
  cases fuel with
  | zero => cases hparse
  | succ fuel =>
    have hdate : parseUnixTimestamp (fuel + 1) 60 = some ⟨1970, 1, 1, 0, 0, 60⟩ := by
      simp [parseUnixTimestamp, skipYears, skipMonths, monthDays, takeUnits_eq]
    cases hparse.symm.trans hdate
    exact absurd hvalid.second (by decide)

end BrickOS.Userland
