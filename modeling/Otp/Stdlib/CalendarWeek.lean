import Otp.Stdlib.Calendar

/-! `calendar:iso_week_number/1` against the Thursdays of the year. -/

namespace Otp.Calendar

/-- `day_of_the_week/3` -/
def dayOfTheWeek (year month day : Int) : Option Int :=
  (dateToGregorianDays year month day).map fun days => (days + 5) % 7 + 1

/-- `gregorian_days_of_iso_w01_1/1` -/
def gregorianDaysOfIsoW01_1 (year : Int) : Option Int := do
  let d0101 ← dateToGregorianDays year 1 1
  let dow ← dayOfTheWeek year 1 1
  return if dow ≤ 4 then d0101 - dow + 1 else d0101 + 7 - dow + 1

/-- `iso_week_number/1` -/
def isoWeekNumber (year month day : Int) : Option (Int × Int) := do
  let d ← dateToGregorianDays year month day
  let w01_1_year ← gregorianDaysOfIsoW01_1 year
  let w01_1_nextYear ← gregorianDaysOfIsoW01_1 (year + 1)
  if w01_1_year ≤ d ∧ d < w01_1_nextYear then return (year, (d - w01_1_year) / 7 + 1)
  else if d < w01_1_year then
    if (← dayOfTheWeek (year - 1) 1 1) = 4 then return (year - 1, 53)
    else if (← dayOfTheWeek (year - 1) 12 31) = 4 then return (year - 1, 53)
    else return (year - 1, 52)
  else if w01_1_nextYear ≤ d then return (year + 1, 1)
  else none

/-- The day of the week of a day number, from Monday, 1, to Sunday, 7. -/
def weekday (n : Int) : Int :=
  (n + 5) % 7 + 1

/-- The Thursday between the same Monday and Sunday. -/
def thursday (n : Int) : Int :=
  n + 4 - weekday n

/-- The day is in that year. -/
def InYear (year n : Int) : Prop :=
  (gregorianDaysToDate n).map Prod.fst = some year

instance (year n : Int) : Decidable (InYear year n) :=
  inferInstanceAs (Decidable (_ = _))

theorem inYear_iff (year : 0 ≤ y) (natural : 0 ≤ n) : InYear y n ↔ dy y ≤ n ∧ n < dy (y + 1) := by
  obtain ⟨y', m, d, date, valid, rfl⟩ := gregorianDaysToDate_spec natural
  rw [InYear, date, Option.map_some, Option.some.injEq]
  have bounds := days_bounds valid
  constructor
  · rintro rfl
    exact bounds
  · intro within
    rcases lt_trichotomy y' y with before | same | after
    · have := dy_mono (y := y' + 1) (by have := valid.year; omega) before
      omega
    · exact same
    · have := dy_mono (y := y + 1) (by omega) after
      omega

/-- The days that are Thursdays leave 5 when divided by 7. -/
theorem count_thursdays (year : 0 ≤ y) (first : dy y ≤ n) (last : n ≤ dy (y + 1)) :
    Nat.count (fun t : Nat => InYear y t ∧ weekday t = 4) n.toNat =
      (n + 1) / 7 - (dy y + 1) / 7 := by
  have natural : 0 ≤ dy y := dy_mono le_rfl year
  induction n, first using Int.leInduction with
  | base =>
    rw [Nat.count_iff_forall_not.mpr, Int.sub_self, Nat.cast_zero]
    rintro t below ⟨inside, -⟩
    have := (inYear_iff year t.cast_nonneg).mp inside
    omega
  | succ n first ih =>
    have inside := (inYear_iff year (natural.trans first)).mpr ⟨first, by omega⟩
    have next : (n + 1).toNat = n.toNat + 1 := by omega
    have cast : (n.toNat : Int) = n := by omega
    rw [next, Nat.count_succ, Nat.cast_add, ih (by omega), cast]
    simp only [inside, true_and, weekday]
    split <;> omega

/-- A week whose Thursday is in that year. -/
theorem week_counted (year : 0 ≤ y) (first : dy y ≤ thursday n) (last : thursday n < dy (y + 1))
    (week : w = 1 + ((thursday n + 1) / 7 - (dy y + 1) / 7)) :
    0 ≤ thursday n ∧ InYear y (thursday n) ∧
      w = 1 + Nat.count (fun t : Nat => InYear y t ∧ weekday t = 4) (thursday n).toNat := by
  have natural : 0 ≤ thursday n := (dy_mono le_rfl year).trans first
  exact ⟨natural, (inYear_iff year natural).mpr ⟨first, last⟩, by
    rw [week, count_thursdays year first last.le]⟩

theorem dateToGregorianDays_first (year : 0 ≤ y) : dateToGregorianDays y 1 1 = some (dy y) := by
  have valid : Valid y 1 1 := ⟨year, by omega, by simp [monthLength_eq year]⟩
  rw [dateToGregorianDays_eq valid]
  simp [monthStart, dm, df_eq year]

theorem dateToGregorianDays_last (year : 0 ≤ y) :
    dateToGregorianDays y 12 31 = some (dy (y + 1) - 1) := by
  have valid : Valid y 12 31 := ⟨year, by omega, by simp [monthLength_eq year]⟩
  rw [dateToGregorianDays_eq valid, dy_succ year]
  simp [monthStart, dm, df_eq year]
  omega

/-- The Monday nearest to the first day of the year. -/
theorem gregorianDaysOfIsoW01_1_spec (year : 0 ≤ y) : ∃ w, gregorianDaysOfIsoW01_1 y = some w ∧
    weekday w = 1 ∧ dy y - 3 ≤ w ∧ w ≤ dy y + 3 := by
  simp only [gregorianDaysOfIsoW01_1, dayOfTheWeek, dateToGregorianDays_first year, weekday]
  refine ⟨_, rfl, ?_⟩
  dsimp only
  split <;> omega

theorem isoWeekNumber_first_days (first : y = 0 ∧ m = 1 ∧ d ≤ 2) (valid : Valid y m d) :
    isoWeekNumber y m d = none := by
  obtain ⟨rfl, rfl, low⟩ := first
  have := valid.day
  obtain rfl | rfl : d = 1 ∨ d = 2 := by omega
  all_goals decide

/-- The ISO week of a date is the one its Thursday counts in the year of that Thursday, but
the call fails for the first two days of year 0. -/
theorem iso_week_number_counts_thursdays (y m d : Int) (accepted : validDate y m d = some true) :
    (∃ n year week, dateToGregorianDays y m d = some n ∧
      isoWeekNumber y m d = some (year, week) ∧ 0 ≤ thursday n ∧ InYear year (thursday n) ∧
      week = 1 + Nat.count (fun t : Nat => InYear year t ∧ weekday t = 4) (thursday n).toNat) ↔
    ¬(y = 0 ∧ m = 1 ∧ d ≤ 2) := by
  have valid := valid_iff.mp accepted
  constructor
  · rintro ⟨n, year, week, -, number, -⟩ first
    exact nomatch number.symm.trans (isoWeekNumber_first_days first valid)
  intro later
  have year := valid.year
  have next : 0 ≤ y + 1 := by omega
  have nextLength := dy_succ next
  have bounds := days_bounds valid
  have found := dateToGregorianDays_eq valid
  have late : y = 0 → 2 ≤ dy y + monthStart y m + d - 1 := by
    rintro rfl
    have := valid.month
    have := valid.day
    have : monthStart 0 1 = 0 ∧ monthLength 0 1 = 31 ∧ dy 0 = 0 := by decide
    rcases eq_or_lt_of_le (show 1 ≤ m by omega) with rfl | second
    · omega
    · have := monthStart_le le_rfl one_pos second valid.month.2
      omega
  generalize dy y + monthStart y m + d - 1 = n at *
  have nextExtra := extraDay_cases (y + 1)
  have day : thursday n = n + 4 - ((n + 5) % 7 + 1) := rfl
  obtain ⟨w, start, monday, near⟩ := gregorianDaysOfIsoW01_1_spec year
  obtain ⟨w', nextStart, nextMonday, nextNear⟩ := gregorianDaysOfIsoW01_1_spec next
  simp only [isoWeekNumber, found, start, nextStart, Option.bind_eq_bind, Option.bind_some]
  rw [weekday] at monday nextMonday
  by_cases within : w ≤ n ∧ n < w'
  · rw [if_pos within]
    exact ⟨n, _, _, rfl, rfl, week_counted year (by omega) (by omega) (by omega)⟩
  rw [if_neg within]
  by_cases before : n < w
  · have previous : 0 ≤ y - 1 := by
      by_contra none
      obtain rfl : y = 0 := by omega
      have : dy 0 = 0 := rfl
      omega
    have previousLength := dy_succ previous
    have previousExtra := extraDay_cases (y - 1)
    rw [Int.sub_add_cancel] at previousLength
    rw [dayOfTheWeek, dateToGregorianDays_first previous, dayOfTheWeek,
      dateToGregorianDays_last previous, Int.sub_add_cancel]
    simp only [Option.map_some, Option.bind_some]
    split_ifs
    all_goals
      refine ⟨n, _, _, rfl, rfl,
        week_counted previous (by omega) (by rw [Int.sub_add_cancel]; omega) ?_⟩
      omega
  · rw [if_neg before, if_pos (by omega)]
    exact ⟨n, _, _, rfl, rfl, week_counted next (by omega) (by omega) (by omega)⟩

theorem iso_week_number_fails : validDate 0 1 1 = some true ∧ isoWeekNumber 0 1 1 = none := by
  decide

theorem iso_week_number_counts_thursdays_2016 :
    ∃ n year week, dateToGregorianDays 2016 1 3 = some n ∧
    isoWeekNumber 2016 1 3 = some (year, week) ∧ 0 ≤ thursday n ∧ InYear year (thursday n) ∧
      week = 1 + Nat.count (fun t : Nat => InYear year t ∧ weekday t = 4) (thursday n).toNat :=
  (iso_week_number_counts_thursdays 2016 1 3 (by decide)).mpr (by decide)

end Otp.Calendar
