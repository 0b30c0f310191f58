import Mathlib

/-! `calendar`: the number of a day since January 1 of year 0, and back. `none` is a call
that fails. -/

namespace Otp.Calendar

-- `div` and `rem` are only applied to numbers that are not negative

/-- `is_leap_year1/1` -/
def isLeapYear1 (year : Int) : Bool :=
  if year % 4 = 0 ∧ year % 100 > 0 then true
  else if year % 400 = 0 then true
  else false

/-- `is_leap_year/1` -/
def isLeapYear (y : Int) : Option Bool :=
  if 0 ≤ y then some (isLeapYear1 y) else none

/-- `last_day_of_the_month1/2` -/
def lastDayOfTheMonth1 (y m : Int) : Option Int :=
  if m = 4 ∨ m = 6 ∨ m = 9 ∨ m = 11 then some 30
  else if m = 2 then (isLeapYear y).map fun leap => if leap then 29 else 28
  else if 0 < m ∧ m < 13 then some 31
  else none

/-- `last_day_of_the_month/2` -/
def lastDayOfTheMonth (y m : Int) : Option Int :=
  if 0 ≤ y then lastDayOfTheMonth1 y m else none

/-- `valid_date/3` -/
def validDate (y m d : Int) : Option Bool :=
  if 0 ≤ y ∧ 0 < m ∧ m < 13 ∧ 0 < d then (lastDayOfTheMonth y m).map fun last => d ≤ last
  else some false

/-- `dy/1`: the days of the years before. -/
def dy (y : Int) : Int :=
  if y ≤ 0 then 0
  else
    let x := y - 1
    x / 4 - x / 100 + x / 400 + x * 365 + 366

/-- `dm/1`: the days of the months before, in an ordinary year. -/
def dm : Int → Option Int
  | 1 => some 0
  | 2 => some 31
  | 3 => some 59
  | 4 => some 90
  | 5 => some 120
  | 6 => some 151
  | 7 => some 181
  | 8 => some 212
  | 9 => some 243
  | 10 => some 273
  | 11 => some 304
  | 12 => some 334
  | _ => none

/-- `df/2`: the extra day in February. -/
def df (year month : Int) : Option Int :=
  if month < 3 then some 0 else (isLeapYear year).map fun leap => if leap then 1 else 0

/-- `date_to_gregorian_days/3` -/
def dateToGregorianDays (year month day : Int) : Option Int :=
  if 0 < day then do
    let last ← lastDayOfTheMonth year month
    if day ≤ last then return dy year + (← dm month) + (← df year month) + day - 1
    else none
  else none

/-- `dty/3` -/
def dty : Nat → Int → Int → Int → Option (Int × Int)
  | 0, _, _, _ => none
  | fuel + 1, y, d1, d2 => if d1 < d2 then dty fuel (y - 1) d1 (dy (y - 1)) else some (y, d2)

/-- `day_to_year/1` -/
def dayToYear (dayOfEpoch : Int) : Option (Int × Int) :=
  if 0 ≤ dayOfEpoch then do
    let y0 := dayOfEpoch / 365
    let (y1, d1) ← dty (y0.toNat + 1) y0 dayOfEpoch (dy y0)
    return (y1, dayOfEpoch - d1)
  else none

/-- `year_day_to_date2/2` -/
def yearDayToDate2 (e day : Int) : Option (Int × Int) :=
  if day < 31 then some (1, day)
  else if 31 ≤ day ∧ day < 59 + e then some (2, day - 31)
  else if 59 + e ≤ day ∧ day < 90 + e then some (3, day - (59 + e))
  else if 90 + e ≤ day ∧ day < 120 + e then some (4, day - (90 + e))
  else if 120 + e ≤ day ∧ day < 151 + e then some (5, day - (120 + e))
  else if 151 + e ≤ day ∧ day < 181 + e then some (6, day - (151 + e))
  else if 181 + e ≤ day ∧ day < 212 + e then some (7, day - (181 + e))
  else if 212 + e ≤ day ∧ day < 243 + e then some (8, day - (212 + e))
  else if 243 + e ≤ day ∧ day < 273 + e then some (9, day - (243 + e))
  else if 273 + e ≤ day ∧ day < 304 + e then some (10, day - (273 + e))
  else if 304 + e ≤ day ∧ day < 334 + e then some (11, day - (304 + e))
  else if 334 + e ≤ day then some (12, day - (334 + e))
  else none

/-- `year_day_to_date/2` -/
def yearDayToDate (year dayOfYear : Int) : Option (Int × Int) := do
  let extraDay := if ← isLeapYear year then 1 else 0
  let (month, day) ← yearDayToDate2 extraDay dayOfYear
  return (month, day + 1)

/-- `gregorian_days_to_date/1` -/
def gregorianDaysToDate (days : Int) : Option (Int × Int × Int) := do
  let (year, dayOfYear) ← dayToYear days
  let (month, dayOfMonth) ← yearDayToDate year dayOfYear
  return (year, month, dayOfMonth)

/-- The extra day of a leap year. -/
def extraDay (year : Int) : Int :=
  if isLeapYear1 year then 1 else 0

theorem extraDay_cases (year : Int) : extraDay year = 0 ∨ extraDay year = 1 := by
  rw [extraDay]
  split
  · exact .inr rfl
  · exact .inl rfl

theorem dy_succ (natural : 0 ≤ y) : dy (y + 1) = dy y + 365 + extraDay y := by
  rw [dy, dy, extraDay, isLeapYear1]
  dsimp only
  split_ifs <;> first | contradiction | omega

theorem dy_mono (natural : 0 ≤ y) (before : y ≤ y') : dy y ≤ dy y' := by
  induction y', before using Int.leInduction with
  | base => exact le_rfl
  | succ y' before ih =>
    have := dy_succ (natural.trans before)
    have := extraDay_cases y'
    omega

/-- The year comes down to the one the day is in. -/
theorem dty_spec (fuel : Nat) {y : Int} (natural : 0 ≤ d) (enough : y < fuel) (positive : 0 ≤ y)
    (below : d < dy (y + 1)) :
    ∃ year, 0 ≤ year ∧ dty fuel y d (dy y) = some (year, dy year) ∧ dy year ≤ d ∧
    d < dy (year + 1) := by
  induction fuel generalizing y with
  | zero => omega
  | succ fuel ih =>
    rw [dty]
    split
    · rename_i earlier
      have later : 0 < y := by
        by_contra first
        rw [dy] at earlier
        omega
      exact ih (by omega) (by omega) (by simpa using earlier)
    · exact ⟨y, positive, rfl, by omega, below⟩

theorem dayToYear_spec (natural : 0 ≤ d) :
    ∃ year, 0 ≤ year ∧ dayToYear d = some (year, d - dy year) ∧ dy year ≤ d ∧
    d < dy (year + 1) := by
  have guess : d < dy (d / 365 + 1) := by
    rw [dy]
    dsimp only
    omega
  obtain ⟨year, positive, found, bounds⟩ :=
    dty_spec ((d / 365).toNat + 1) natural (by omega) (by omega) guess
  exact ⟨year, positive, by simp [dayToYear, natural, found], bounds⟩

/-- The days of the months before, in that year. -/
def monthStart (year month : Int) : Int :=
  (dm month).getD 0 + (df year month).getD 0

def monthLength (year month : Int) : Int :=
  (lastDayOfTheMonth year month).getD 0

/-- A date that `valid_date/3` accepts. -/
structure Valid (y m d : Int) : Prop where
  year : 0 ≤ y
  month : 0 < m ∧ m ≤ 12
  day : 0 < d ∧ d ≤ monthLength y m

theorem lastDayOfTheMonth_eq (year : 0 ≤ y) (month : 0 < m ∧ m ≤ 12) :
    lastDayOfTheMonth y m = some (monthLength y m) := by
  rw [monthLength, lastDayOfTheMonth, lastDayOfTheMonth1, isLeapYear]
  split_ifs
  · rfl
  · rfl
  · rfl
  · omega

theorem valid_iff : validDate y m d = some true ↔ Valid y m d := by
  rw [validDate]
  split
  · rename_i inside
    rw [lastDayOfTheMonth_eq inside.1 ⟨inside.2.1, by omega⟩]
    refine ⟨fun fits => ⟨inside.1, ⟨inside.2.1, by omega⟩, inside.2.2.2, by simpa using fits⟩, ?_⟩
    exact fun valid => by simpa using valid.day.2
  · refine ⟨nofun, fun valid => ?_⟩
    have := valid.year
    have := valid.month
    have := valid.day
    omega

theorem months {m : Int} (month : 0 < m ∧ m ≤ 12) : m = 1 ∨ m = 2 ∨ m = 3 ∨ m = 4 ∨ m = 5 ∨ m = 6 ∨
    m = 7 ∨ m = 8 ∨ m = 9 ∨ m = 10 ∨ m = 11 ∨ m = 12 := by
  omega

theorem df_eq (year : 0 ≤ y) (m : Int) : df y m = some (if m < 3 then 0 else extraDay y) := by
  rw [df, isLeapYear]
  split <;> rfl

theorem monthLength_eq (year : 0 ≤ y) (m : Int) : monthLength y m =
    if m = 2 then 28 + extraDay y else if m = 4 ∨ m = 6 ∨ m = 9 ∨ m = 11 then 30
    else if 0 < m ∧ m < 13 then 31 else 0 := by
  rw [monthLength, lastDayOfTheMonth, lastDayOfTheMonth1, isLeapYear, extraDay]
  split_ifs <;> simp_all

theorem month_bounds (year : 0 ≤ y) (month : 0 < m ∧ m ≤ 12) : 0 ≤ monthStart y m ∧
    0 ≤ monthLength y m ∧ monthStart y m + monthLength y m ≤ 365 + extraDay y := by
  have := extraDay_cases y
  rcases months month with rfl | rfl | rfl | rfl | rfl | rfl | rfl | rfl | rfl | rfl | rfl | rfl <;>
    simp [monthStart, dm, df_eq year, monthLength_eq year] <;> omega

theorem monthStart_succ (year : 0 ≤ y) (month : 0 < m ∧ m ≤ 12) (before : m < 12) :
    monthStart y (m + 1) = monthStart y m + monthLength y m := by
  rcases months month with rfl | rfl | rfl | rfl | rfl | rfl | rfl | rfl | rfl | rfl | rfl | rfl <;>
    simp [monthStart, dm, df_eq year, monthLength_eq year] at before ⊢ <;> omega

theorem monthStart_le (year : 0 ≤ y) (first : 0 < m) (before : m < m') (last : m' ≤ 12) :
    monthStart y m + monthLength y m ≤ monthStart y m' := by
  induction m', before using Int.leInduction with
  | base => exact (monthStart_succ year ⟨first, by omega⟩ (by omega)).ge
  | succ m' before ih =>
    have inside : 0 < m' ∧ m' ≤ 12 := by omega
    have := monthStart_succ year inside (by omega)
    have := month_bounds year inside
    exact (ih (by omega)).trans (by omega)

theorem dateToGregorianDays_eq (valid : Valid y m d) :
    dateToGregorianDays y m d = some (dy y + monthStart y m + d - 1) := by
  have first : ∃ days, dm m = some days := by
    rcases months valid.month with rfl | rfl | rfl | rfl | rfl | rfl | rfl | rfl | rfl | rfl |
      rfl | rfl <;> exact ⟨_, rfl⟩
  obtain ⟨days, first⟩ := first
  simp [dateToGregorianDays, lastDayOfTheMonth_eq valid.year valid.month, valid.day,
    monthStart, first, df_eq valid.year]
  omega

/-- The day is within its year. -/
theorem days_bounds (valid : Valid y m d) : dy y ≤ dy y + monthStart y m + d - 1 ∧
    dy y + monthStart y m + d - 1 < dy (y + 1) := by
  obtain ⟨year, month, day⟩ := valid
  have := month_bounds year month
  have := dy_succ year
  omega

theorem yearDayToDate2_spec (year : 0 ≤ y) (extra : extraDay y = e) (first : 0 ≤ k)
    (last : k < 365 + e) : ∃ m r, yearDayToDate2 e k = some (m, r) ∧ (0 < m ∧ m ≤ 12) ∧
      monthStart y m + r = k ∧ 0 ≤ r ∧ r < monthLength y m := by
  have := extraDay_cases y
  have month : k < 31 ∨ 31 ≤ k ∧ k < 59 + e ∨ 59 + e ≤ k ∧ k < 90 + e ∨ 90 + e ≤ k ∧ k < 120 + e ∨
      120 + e ≤ k ∧ k < 151 + e ∨ 151 + e ≤ k ∧ k < 181 + e ∨ 181 + e ≤ k ∧ k < 212 + e ∨
      212 + e ≤ k ∧ k < 243 + e ∨ 243 + e ≤ k ∧ k < 273 + e ∨ 273 + e ≤ k ∧ k < 304 + e ∨
      304 + e ≤ k ∧ k < 334 + e ∨ 334 + e ≤ k := by omega
  rcases month with _ | _ | _ | _ | _ | _ | _ | _ | _ | _ | _ | _
  all_goals
    simp (disch := omega) only [yearDayToDate2, if_pos, if_neg]
    refine ⟨_, _, rfl, by omega, ?_⟩
    simp [monthStart, dm, df_eq year, monthLength_eq year]
    omega

theorem yearDayToDate_spec (year : 0 ≤ y) (first : 0 ≤ k) (last : k < 365 + extraDay y) :
    ∃ m d, yearDayToDate y k = some (m, d) ∧ Valid y m d ∧ monthStart y m + d - 1 = k := by
  obtain ⟨m, r, found, month, same, low, high⟩ := yearDayToDate2_spec year rfl first last
  refine ⟨m, r + 1, ?_, ⟨year, month, by omega, by omega⟩, by omega⟩
  rw [extraDay] at found
  simp [yearDayToDate, isLeapYear, year, found]

/-- A day number is the number of its date. -/
theorem gregorianDaysToDate_spec (natural : 0 ≤ n) :
    ∃ y m d, gregorianDaysToDate n = some (y, m, d) ∧ Valid y m d ∧
    n = dy y + monthStart y m + d - 1 := by
  obtain ⟨y, year, found, low, high⟩ := dayToYear_spec natural
  rw [dy_succ year] at high
  obtain ⟨m, d, date, valid, same⟩ := yearDayToDate_spec year (k := n - dy y) (by omega) (by omega)
  exact ⟨y, m, d, by simp [gregorianDaysToDate, found, date], valid, by omega⟩

/-- Lexicographic order of dates. -/
def Before (y m d y' m' d' : Int) : Prop :=
  y < y' ∨ y = y' ∧ (m < m' ∨ m = m' ∧ d < d')

theorem days_lt (valid : Valid y m d) (valid' : Valid y' m' d') (before : Before y m d y' m' d') :
    dy y + monthStart y m + d - 1 < dy y' + monthStart y' m' + d' - 1 := by
  rcases before with earlier | ⟨rfl, earlier | ⟨rfl, earlier⟩⟩
  · have := (days_bounds valid).2
    have := (days_bounds valid').1
    have := dy_mono (y := y + 1) (by have := valid.year; omega) earlier
    omega
  · have := monthStart_le valid.year valid.month.1 earlier valid'.month.2
    have := valid.day
    have := valid'.day
    omega
  · omega

theorem days_inj (valid : Valid y m d) (valid' : Valid y' m' d')
    (same : dy y + monthStart y m + d - 1 = dy y' + monthStart y' m' + d' - 1) : y = y' ∧ m = m' ∧
    d = d' := by
  by_contra different
  have order : Before y m d y' m' d' ∨ Before y' m' d' y m d := by
    rw [Before, Before]
    omega
  rcases order with before | before
  · exact (days_lt valid valid' before).ne same
  · exact (days_lt valid' valid before).ne same.symm

/-- Day numbers and valid dates are in bijection, and the order is kept. -/
theorem gregorian_days_isomorphism :
    (∀ n : Nat, ∃ y m d, gregorianDaysToDate n = some (y, m, d) ∧ validDate y m d = some true ∧
      dateToGregorianDays y m d = some (n : Int)) ∧
    (∀ y m d, validDate y m d = some true → ∃ n : Nat, dateToGregorianDays y m d = some (n : Int) ∧
      gregorianDaysToDate n = some (y, m, d)) ∧
    ∀ y m d y' m' d', validDate y m d = some true → validDate y' m' d' = some true →
      Before y m d y' m' d' → ∃ n n', dateToGregorianDays y m d = some n ∧
        dateToGregorianDays y' m' d' = some n' ∧ n < n' := by
  refine ⟨fun n => ?_, fun y m d accepted => ?_, fun y m d y' m' d' accepted accepted' before => ?_⟩
  · obtain ⟨y, m, d, date, valid, same⟩ := gregorianDaysToDate_spec (Int.natCast_nonneg n)
    exact ⟨y, m, d, date, valid_iff.mpr valid, by rw [dateToGregorianDays_eq valid, same]⟩
  · have valid := valid_iff.mp accepted
    have natural := (dy_mono le_rfl valid.year).trans (days_bounds valid).1
    obtain ⟨n, same⟩ := Int.eq_ofNat_of_zero_le natural
    obtain ⟨y', m', d', date, valid', number⟩ := gregorianDaysToDate_spec (Int.natCast_nonneg n)
    obtain ⟨rfl, rfl, rfl⟩ := days_inj valid valid' (same.trans number)
    exact ⟨n, by rw [dateToGregorianDays_eq valid, same], date⟩
  · have valid := valid_iff.mp accepted
    have valid' := valid_iff.mp accepted'
    exact ⟨_, _, dateToGregorianDays_eq valid, dateToGregorianDays_eq valid',
      days_lt valid valid' before⟩

end Otp.Calendar
