import Mathlib.Algebra.BigOperators.Group.Finset.Basic
import Mathlib.Algebra.BigOperators.Intervals
import Mathlib.Algebra.Order.BigOperators.Group.Finset
import Mathlib.Data.Int.ConditionallyCompleteOrder
import Mathlib.Data.Prod.Lex
import Mathlib.Tactic.IntervalCases

/-!
# The Gregorian calendar

Dates of the proleptic Gregorian calendar, one after the other (`Date.next`) from the first of
January 1970 on (`dateAfter`). The days of a date can be counted (`Date.dayNumber`): the count goes
up by one from each date to the next, and tells any two dates apart. With the year begun in March
it has a closed form (`Date.dayNumber_eq`).
-/

namespace Gregorian

/-- Every fourth year, but of the centuries only every fourth. -/
def IsLeap (year : ℤ) : Prop := 4 ∣ year ∧ (100 ∣ year → 400 ∣ year)

instance (year : ℤ) : Decidable (IsLeap year) := inferInstanceAs (Decidable (_ ∧ _))

def daysInMonth (year : ℤ) (month : ℕ) : ℕ :=
  if month = 2 then if IsLeap year then 29 else 28
  else if month = 4 ∨ month = 6 ∨ month = 9 ∨ month = 11 then 30
  else 31

theorem daysInMonth_pos (year : ℤ) (month : ℕ) : 0 < daysInMonth year month := by
  unfold daysInMonth
  split_ifs <;> decide

theorem daysInMonth_le (year : ℤ) (month : ℕ) : daysInMonth year month ≤ 31 := by
  unfold daysInMonth
  split_ifs <;> decide

/-- A day that the calendar has. -/
@[ext]
structure Date where
  year : ℤ
  month : ℕ
  day : ℕ
  month_pos : 1 ≤ month
  month_le : month ≤ 12
  day_pos : 1 ≤ day
  day_le : day ≤ daysInMonth year month
deriving DecidableEq

namespace Date

/-- The day after. -/
def next (date : Date) : Date :=
  if hday : date.day < daysInMonth date.year date.month then
    { date with day := date.day + 1, day_pos := Nat.le_add_left 1 _, day_le := hday }
  else if hmonth : date.month < 12 then
    { year := date.year
      month := date.month + 1
      day := 1
      month_pos := Nat.le_add_left 1 _
      month_le := hmonth
      day_pos := le_refl 1
      day_le := daysInMonth_pos _ _ }
  else
    { year := date.year + 1
      month := 1
      day := 1
      month_pos := le_refl 1
      month_le := by decide
      day_pos := le_refl 1
      day_le := daysInMonth_pos _ _ }

/-- Dates in the order of their years, then their months, then their days. -/
def key (date : Date) : ℤ ×ₗ ℕ ×ₗ ℕ := toLex (date.year, toLex (date.month, date.day))

theorem key_injective : Function.Injective key := by
  intro left right h
  have hyear := congrArg (fun k => (ofLex k).1) h
  have hmonth := congrArg (fun k => (ofLex (ofLex k).2).1) h
  have hday := congrArg (fun k => (ofLex (ofLex k).2).2) h
  exact Date.ext hyear hmonth hday

instance : LinearOrder Date := LinearOrder.lift' key key_injective

/-- Dates are ordered by year, then by month, then by day. -/
theorem lt_iff {left right : Date} : left < right ↔
    left.year < right.year ∨ left.year = right.year ∧
      (left.month < right.month ∨ left.month = right.month ∧ left.day < right.day) := by
  show key left < key right ↔ _
  rw [key, key, Prod.Lex.toLex_lt_toLex, Prod.Lex.toLex_lt_toLex]

theorem year_mono {left right : Date} (h : left ≤ right) : left.year ≤ right.year := by
  rcases h.lt_or_eq with hlt | rfl
  · rcases lt_iff.mp hlt with hyear | ⟨hyear, _⟩
    · exact hyear.le
    · exact hyear.le
  · exact le_rfl

end Date

/-- The first of January 1970. -/
def epoch : Date where
  year := 1970
  month := 1
  day := 1
  month_pos := le_refl 1
  month_le := by decide
  day_pos := le_refl 1
  day_le := by decide

/-- The date `days` days after the first of January 1970. -/
def dateAfter (days : ℕ) : Date := Date.next^[days] epoch

/-- The calendar goes on day by day. -/
theorem dateAfter_succ (days : ℕ) : dateAfter (days + 1) = (dateAfter days).next :=
  Function.iterate_succ_apply' _ _ _

/-! ## Counting days -/

/-- The days from the first of January of year 1 to that of `year`. -/
def daysBeforeYear (year : ℤ) : ℤ :=
  365 * (year - 1) + (year - 1) / 4 - (year - 1) / 100 + (year - 1) / 400

/-- The days of the year before the month. -/
def daysBeforeMonth (year : ℤ) (month : ℕ) : ℕ :=
  ∑ i ∈ Finset.range (month - 1), daysInMonth year (i + 1)

theorem daysBeforeMonth_succ (year : ℤ) {month : ℕ} (h : 1 ≤ month) :
    daysBeforeMonth year (month + 1) = daysBeforeMonth year month + daysInMonth year month := by
  obtain ⟨m, rfl⟩ := Nat.exists_eq_add_of_le' h
  exact Finset.sum_range_succ _ _

theorem daysBeforeMonth_mono (year : ℤ) : Monotone (daysBeforeMonth year) := by
  intro m m' h
  exact Finset.sum_le_sum_of_subset (Finset.range_mono (Nat.sub_le_sub_right h 1))

/-- From March on the months are long and short by one rule. -/
theorem daysInMonth_eq (year : ℤ) {month : ℕ} (h : 3 ≤ month) (hle : month ≤ 12) :
    daysInMonth year month = (153 * (month - 2) + 2) / 5 - (153 * (month - 3) + 2) / 5 := by
  interval_cases month <;> rfl

/-- From March on the lengths of the months follow one linear pattern. -/
theorem daysBeforeMonth_eq (year : ℤ) {month : ℕ} (h : 3 ≤ month) (hle : month ≤ 13) :
    daysBeforeMonth year month = 31 + daysInMonth year 2 + (153 * (month - 3) + 2) / 5 := by
  induction month, h using Nat.le_induction with
  | base =>
    rw [daysBeforeMonth_succ year (by decide), daysBeforeMonth_succ year le_rfl]
    rfl
  | succ m hm ih =>
    rw [daysBeforeMonth_succ year (by omega), ih (by omega), daysInMonth_eq year hm (by omega)]
    omega

/-- February has 28 days, and one more in a leap year. -/
theorem daysInMonth_february (year : ℤ) : (daysInMonth year 2 : ℤ) =
    28 + (year / 4 - (year - 1) / 4) - (year / 100 - (year - 1) / 100) +
      (year / 400 - (year - 1) / 400) := by
  have hdays : daysInMonth year 2 = if IsLeap year then 29 else 28 := rfl
  rw [hdays]
  by_cases h : IsLeap year
  · rw [if_pos h]
    obtain ⟨hfour, hcentury⟩ := h
    omega
  · rw [if_neg h]
    have hfour : ¬ (4 ∣ year ∧ (100 ∣ year → 400 ∣ year)) := h
    omega

/-- The days of a year. -/
theorem daysBeforeYear_succ (year : ℤ) :
    daysBeforeYear (year + 1) = daysBeforeYear year + daysBeforeMonth year 13 := by
  have hfebruary := daysInMonth_february year
  rw [daysBeforeMonth_eq year (by decide) le_rfl]
  unfold daysBeforeYear
  push_cast
  omega

theorem daysBeforeYear_mono : Monotone daysBeforeYear := by
  apply monotone_int_of_le_succ
  intro year
  rw [daysBeforeYear_succ]
  omega

namespace Date

variable {date left right : Date}

/-- The days from the first of January 1970 to the date. -/
def dayNumber (date : Date) : ℤ :=
  daysBeforeYear date.year + daysBeforeMonth date.year date.month + date.day - 719163

/-- The next day has the next number. -/
theorem dayNumber_next (date : Date) : date.next.dayNumber = date.dayNumber + 1 := by
  have hmonth := daysBeforeMonth_succ date.year date.month_pos
  have hday := date.day_le
  unfold next
  split_ifs with hmore hdecember
  · -- within the month
    simp only [dayNumber]
    push_cast
    omega
  · -- to the first of the next month, which the days before it count up to
    simp only [dayNumber, hmonth]
    push_cast
    omega
  · -- to the first of the next year
    have hlast : date.month = 12 := by
      have hle := date.month_le
      omega
    have hfirst : daysBeforeMonth (date.year + 1) 1 = 0 := rfl
    rw [hlast] at hmonth hmore hday
    simp only [dayNumber, daysBeforeYear_succ, hmonth, hfirst, hlast]
    push_cast
    omega

/-- Within a year the days go up to those before the next. -/
theorem day_le_year (date : Date) :
    daysBeforeMonth date.year date.month + date.day ≤ daysBeforeMonth date.year 13 := by
  have hmonth := daysBeforeMonth_succ date.year date.month_pos
  have hday := date.day_le
  have hmono : daysBeforeMonth date.year (date.month + 1) ≤ daysBeforeMonth date.year 13 :=
    daysBeforeMonth_mono date.year (Nat.succ_le_succ date.month_le)
  rw [hmonth] at hmono
  omega

/-- A later date has a larger number. -/
theorem dayNumber_strictMono : StrictMono dayNumber := by
  intro left right h
  have hpos := right.day_pos
  unfold dayNumber
  -- in an earlier year, in an earlier month of one year, on an earlier day of one month
  rcases lt_iff.mp h with hyear | ⟨hyear, hmonth | ⟨hmonth, hday⟩⟩
  · have hend := left.day_le_year
    have hmono := daysBeforeYear_mono hyear
    rw [daysBeforeYear_succ] at hmono
    omega
  · have hend := left.day_le
    have hmono := daysBeforeMonth_mono right.year hmonth
    rw [← hyear, daysBeforeMonth_succ left.year left.month_pos] at hmono
    rw [← hyear]
    omega
  · rw [hyear, hmonth]
    omega

/-! ## Years that begin in March -/

/-- The year that began in the March before. -/
def marchYear (date : Date) : ℤ := if date.month ≤ 2 then date.year - 1 else date.year

/-- The months since March. -/
def marchMonth (date : Date) : ℕ := if date.month ≤ 2 then date.month + 9 else date.month - 3

/-- The leap day comes last, and the months before it are long and short by one rule. -/
theorem dayNumber_eq (date : Date) : date.dayNumber =
    365 * date.marchYear + date.marchYear / 4 - date.marchYear / 100 + date.marchYear / 400 +
      (153 * date.marchMonth + 2) / 5 + date.day - 719469 := by
  have hpos := date.month_pos
  have hle := date.month_le
  have hfebruary := daysInMonth_february date.year
  unfold dayNumber marchYear marchMonth daysBeforeYear
  split_ifs with h
  · -- January and February are the last months of the year before
    have hbefore : daysBeforeMonth date.year date.month = 31 * (date.month - 1) := by
      interval_cases date.month <;> rfl
    rw [hbefore]
    push_cast
    omega
  · rw [daysBeforeMonth_eq date.year (by omega) (by omega)]
    push_cast
    omega

/-- The day of a year that begins in March. -/
theorem exists_march (year : ℤ) {dayOfYear month : ℕ} (hmonth : month = (5 * dayOfYear + 2) / 153)
    (hyear : dayOfYear < 337 + daysInMonth (year + 1) 2) : ∃ date : Date,
      date.year = (if date.month ≤ 2 then year + 1 else year) ∧
      date.month = (if month < 10 then month + 3 else month - 9) ∧
      date.day = dayOfYear - (153 * month + 2) / 5 + 1 := by
  have hfebruary : daysInMonth (year + 1) 2 ≤ 29 := by
    have hdays := daysInMonth_february (year + 1)
    omega
  by_cases hten : month < 10
  · have hday : dayOfYear - (153 * month + 2) / 5 + 1 ≤ daysInMonth year (month + 3) := by
      have hnext : month + 3 - 2 = month + 1 := rfl
      rw [daysInMonth_eq year (by omega) (by omega), hnext, Nat.add_sub_cancel]
      omega
    refine ⟨⟨year, month + 3, _, by omega, by omega, Nat.le_add_left 1 _, hday⟩, ?_, ?_, rfl⟩
    · exact (if_neg (by dsimp only; omega)).symm
    · exact (if_pos hten).symm
  · have hday : dayOfYear - (153 * month + 2) / 5 + 1 ≤ daysInMonth (year + 1) (month - 9) := by
      -- January and February end the year
      obtain rfl | rfl : month = 10 ∨ month = 11 := by omega
      · show _ ≤ 31
        omega
      · show _ ≤ daysInMonth (year + 1) 2
        omega
    refine ⟨⟨year + 1, month - 9, _, by omega, by omega, Nat.le_add_left 1 _, hday⟩, ?_, ?_, rfl⟩
    · exact (if_pos (by dsimp only; omega)).symm
    · exact (if_neg hten).symm

end Date

/-- Counting the days of the date that many days after the epoch gives them back. -/
theorem dayNumber_dateAfter (days : ℕ) : (dateAfter days).dayNumber = days := by
  induction days with
  | zero => decide
  | succ days ih => rw [dateAfter_succ, Date.dayNumber_next, ih, Nat.cast_succ]

/-- A date is that after as many days as it has. -/
theorem dateAfter_eq {days : ℕ} {date : Date} (h : date.dayNumber = days) :
    dateAfter days = date := by
  apply Date.dayNumber_strictMono.injective
  rw [dayNumber_dateAfter, h]

theorem dateAfter_strictMono : StrictMono dateAfter := by
  intro m n h
  rw [← Date.dayNumber_strictMono.lt_iff_lt, dayNumber_dateAfter, dayNumber_dateAfter]
  exact_mod_cast h

end Gregorian
