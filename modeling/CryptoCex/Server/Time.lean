import CryptoCex.Lib.Gregorian
import CryptoCex.Lib.Numerals
import Mathlib.Tactic.Linarith

/-!
# Timestamps

`time.rs` writes the time of an event as an RFC 3339 string. The date comes from the number of
days since 1970 by divisions alone, and it is the date of the calendar as long as the year is an
`i32` (`civilFromDays_dateAfter`); beyond that the year stays at `i32::MAX`. The string has fields
of fixed width up to the year 9999, so until then strings are in the order of the times.

The integers of the code are unbounded here: no sum or product on the way from the seconds leaves
its type.
-/

namespace CryptoCex.Server.Time

open Gregorian (Date dateAfter daysInMonth)
open Digits (padded)

/-! ## The functions of the source -/

def i32Max : ℤ := 2 ^ 31 - 1

def i64Max : ℤ := 2 ^ 63 - 1

/-- `i32::try_from` -/
def i32TryFrom (n : ℤ) : Option ℤ := if -2 ^ 31 ≤ n ∧ n ≤ i32Max then some n else none

/-- `i64::try_from` -/
def i64TryFrom (n : ℕ) : Option ℤ := if (n : ℤ) ≤ i64Max then some n else none

/-- `u32::try_from` -/
def u32TryFrom (n : ℤ) : Option ℕ := if 0 ≤ n ∧ n < 2 ^ 32 then some n.toNat else none

/-- Division of `i64` cuts off toward zero. -/
def civilFromDays (daysSinceEpoch : ℤ) : ℤ × ℕ × ℕ :=
  -- from the first of March of the year 0 on
  let shifted := daysSinceEpoch + 719468
  let era := (if shifted ≥ 0 then shifted else shifted - 146096).tdiv 146097
  let dayOfEra := shifted - era * 146097
  let yearOfEra :=
    (dayOfEra - dayOfEra.tdiv 1460 + dayOfEra.tdiv 36524 - dayOfEra.tdiv 146096).tdiv 365
  let year := yearOfEra + era * 400
  let dayOfYear := dayOfEra - (365 * yearOfEra + yearOfEra.tdiv 4 - yearOfEra.tdiv 100)
  -- March is month 0, and the year is the next one from month 10 on
  let monthPrime := (5 * dayOfYear + 2).tdiv 153
  let day := dayOfYear - (153 * monthPrime + 2).tdiv 5 + 1
  let month := monthPrime + if monthPrime < 10 then 3 else -9
  let adjustedYear := year + if month ≤ 2 then 1 else 0
  ((i32TryFrom adjustedYear).getD i32Max, (u32TryFrom month).getD 1, (u32TryFrom day).getD 1)

/-- A year with at least four characters, of which a sign is one. -/
def paddedYear (year : ℤ) : List Char :=
  if year < 0 then '-' :: padded 3 (-year).toNat else padded 4 year.toNat

def formatUnixMillis (seconds : UInt64) (millis : UInt32) : String :=
  let days := (i64TryFrom (seconds.toNat / 86400)).getD i64Max
  let secondsOfDay := seconds.toNat % 86400
  let hour := secondsOfDay / 3600
  let minute := secondsOfDay % 3600 / 60
  let second := secondsOfDay % 60
  let date := civilFromDays days
  String.ofList (List.flatten [paddedYear date.1, ['-'], padded 2 date.2.1, ['-'],
    padded 2 date.2.2, ['T'], padded 2 hour, [':'], padded 2 minute, [':'], padded 2 second, ['.'],
    padded 3 millis.toNat, ['Z']])

/-! ## Dates -/

/-- Parts of one size, of which the last is longer by `extra`. -/
theorem exists_part {n : ℕ} (size last extra : ℕ) (hsize : 0 < size)
    (h : n < size * (last + 1) + extra) : ∃ part rest, n = size * part + rest ∧ part ≤ last ∧
      (part < last → rest < size) ∧ rest < size + extra := by
  by_cases hshort : n < size * (last + 1)
  · have hrest := Nat.mod_lt n hsize
    refine ⟨n / size, n % size, (Nat.div_add_mod n size).symm, ?_, fun _ => hrest, by omega⟩
    exact Nat.le_of_lt_succ (Nat.div_lt_of_lt_mul hshort)
  · rw [Nat.mul_succ] at h hshort
    refine ⟨last, n - size * last, by omega, le_rfl, ?_, by omega⟩
    exact fun hlt => absurd hlt (lt_irrefl _)

/-- In an era of 400 years that begin in March: leap days end every fourth of them, but of the
centuries only the last. -/
theorem yearOfEra_eq {dayOfEra : ℕ} (h : dayOfEra < 146097) :
    ∃ yearOfEra dayOfYear : ℕ,
      ((dayOfEra : ℤ) - dayOfEra / 1460 + dayOfEra / 36524 - dayOfEra / 146096) / 365 = yearOfEra ∧
      (dayOfEra : ℤ) = 365 * yearOfEra + yearOfEra / 4 - yearOfEra / 100 + dayOfYear ∧
      yearOfEra < 400 ∧ dayOfYear < 337 + daysInMonth (yearOfEra + 1) 2 := by
  obtain ⟨c, inCentury, rfl, hc, hcentury, hlong⟩ :=
    exists_part 36524 3 1 (by decide) h
  obtain ⟨q, inSpan, rfl, hq, _, hspan⟩ :=
    exists_part 1461 24 0 (by decide) hlong
  obtain ⟨t, u, rfl, ht, hyear, hu⟩ :=
    exists_part 365 3 1 (by decide) hspan
  refine ⟨100 * c + 4 * q + t, u, ?_, ?_, by omega, ?_⟩
  · push_cast
    by_cases hlast : c = 3 ∧ q = 24 ∧ t = 3 ∧ u = 365
    · -- the one day on which the divisor of the centuries finds a fifth
      obtain ⟨rfl, rfl, rfl, rfl⟩ := hlast
      decide
    · have hcenturies : (36524 * c + (1461 * q + (365 * t + u)) : ℤ) / 36524 = c := by
        omega
      have hera : (36524 * c + (1461 * q + (365 * t + u)) : ℤ) / 146096 = 0 := by
        omega
      rw [hcenturies, hera]
      -- the divisor of the spans is short by a day, and so may find one more near a span's end
      by_cases hcarry : 24 * c + q + (365 * t + u) < 1460
      · have hspans : (36524 * c + (1461 * q + (365 * t + u)) : ℤ) / 1460 = 25 * c + q := by
          omega
        rw [hspans]
        omega
      · have hspans : (36524 * c + (1461 * q + (365 * t + u)) : ℤ) / 1460 = 25 * c + q + 1 := by
          omega
        rw [hspans]
        omega
  · push_cast
    omega
  · by_cases hleap : Gregorian.IsLeap ((100 * c + 4 * q + t : ℕ) + 1)
    · have hfebruary : daysInMonth ((100 * c + 4 * q + t : ℕ) + 1) 2 = 29 := if_pos hleap
      omega
    · have hfebruary : daysInMonth ((100 * c + 4 * q + t : ℕ) + 1) 2 = 28 := if_neg hleap
      have hshort : t < 3 ∨ q = 24 ∧ c < 3 := by
        by_contra hfull
        apply hleap
        have hthree : t = 3 := by omega
        subst hthree
        unfold Gregorian.IsLeap
        push_cast
        omega
      omega

/-- February is as long as 400 years before. -/
theorem february_of_era (year : ℤ) (era : ℕ) :
    daysInMonth (year + era * 400) 2 = daysInMonth year 2 := by
  have hleap : Gregorian.IsLeap (year + era * 400) ↔ Gregorian.IsLeap year := by
    unfold Gregorian.IsLeap
    omega
  unfold daysInMonth
  rw [if_pos rfl, if_pos rfl]
  simp only [hleap]

theorem u32TryFrom_natCast {n : ℕ} (h : n < 2 ^ 32) : u32TryFrom n = some n := by
  rw [u32TryFrom, if_pos (by omega), Int.toNat_natCast]

/-- The date of the calendar, but for its year where that is no `i32`. -/
theorem civilFromDays_eq {days : ℤ} (h : 0 ≤ days) : ∃ date : Date, date.dayNumber = days ∧
    civilFromDays days = ((i32TryFrom date.year).getD i32Max, date.month, date.day) := by
  obtain ⟨era, dayOfEra, hshifted, hlt⟩ : ∃ era dayOfEra : ℕ,
      days + 719468 = era * 146097 + dayOfEra ∧ dayOfEra < 146097 := by
    lift days to ℕ using h
    refine ⟨(days + 719468) / 146097, (days + 719468) % 146097, ?_, ?_⟩ <;> omega
  obtain ⟨yearOfEra, dayOfYear, hyearOfEra, hdayOfEra, hyear, hlength⟩ := yearOfEra_eq hlt
  have hmarch : dayOfYear < 337 + daysInMonth ((yearOfEra + era * 400 : ℤ) + 1) 2 := by
    rw [add_right_comm, february_of_era]
    exact hlength
  obtain ⟨date, hdateYear, hdateMonth, hdateDay⟩ := Date.exists_march _ rfl hmarch
  have hmonth : (5 * dayOfYear + 2) / 153 < 12 := by
    have hdays := Gregorian.daysInMonth_february (yearOfEra + 1)
    omega
  have hera : (days + 719468).tdiv 146097 = era := by
    rw [Int.tdiv_eq_ediv_of_nonneg (by omega)]
    omega
  have hrest : days + 719468 - era * 146097 = dayOfEra := by omega
  have hyears : ((dayOfEra : ℤ) - (dayOfEra : ℤ).tdiv 1460 + (dayOfEra : ℤ).tdiv 36524 -
      (dayOfEra : ℤ).tdiv 146096).tdiv 365 = yearOfEra := by
    simp only [Int.tdiv_eq_ediv_of_nonneg (Int.natCast_nonneg dayOfEra)]
    rw [Int.tdiv_eq_ediv_of_nonneg (by omega)]
    exact hyearOfEra
  have hdays : (dayOfEra : ℤ) - (365 * yearOfEra + (yearOfEra : ℤ).tdiv 4 -
      (yearOfEra : ℤ).tdiv 100) = dayOfYear := by
    simp only [Int.tdiv_eq_ediv_of_nonneg (Int.natCast_nonneg yearOfEra)]
    omega
  have hmonths : (5 * (dayOfYear : ℤ) + 2).tdiv 153 = ((5 * dayOfYear + 2) / 153 : ℕ) := by
    rw [Int.tdiv_eq_ediv_of_nonneg (by omega)]
    push_cast
    rfl
  -- no division is left, but that of the months and days by their rule
  have hstart : (153 * ((5 * dayOfYear + 2) / 153) + 2) / 5 ≤ dayOfYear := by omega
  generalize (5 * dayOfYear + 2) / 153 = monthPrime at *
  have hday : (date.day : ℤ) = dayOfYear - (153 * monthPrime + 2) / 5 + 1 := by
    rw [hdateDay]
    push_cast [Nat.cast_sub hstart]
    rfl
  refine ⟨date, ?_, ?_⟩
  · have hmarchYear : date.marchYear = yearOfEra + era * 400 := by
      unfold Date.marchYear
      split_ifs at hdateYear ⊢ <;> omega
    have hmarchMonth : date.marchMonth = monthPrime := by
      unfold Date.marchMonth
      split_ifs at hdateMonth ⊢ <;> omega
    have hfours : ((yearOfEra : ℤ) + era * 400) / 4 = yearOfEra / 4 + era * 100 := by omega
    have hcenturies : ((yearOfEra : ℤ) + era * 400) / 100 = yearOfEra / 100 + era * 4 := by omega
    have heras : ((yearOfEra : ℤ) + era * 400) / 400 = era := by omega
    rw [Date.dayNumber_eq, hmarchYear, hmarchMonth, hfours, hcenturies, heras, hday]
    linarith only [hshifted, hdayOfEra]
  · unfold civilFromDays
    simp only [ge_iff_le, if_pos (by omega : 0 ≤ days + 719468), hera, hrest, hyears, hdays, hmonths]
    have hadjusted : (monthPrime : ℤ) + (if (monthPrime : ℤ) < 10 then 3 else -9) = date.month := by
      split_ifs at hdateMonth ⊢ <;> omega
    have hday' : (dayOfYear : ℤ) - (153 * (monthPrime : ℤ) + 2).tdiv 5 + 1 = date.day := by
      rw [Int.tdiv_eq_ediv_of_nonneg (by omega), hday]
    have hyear' : (yearOfEra : ℤ) + era * 400 + (if (date.month : ℤ) ≤ 2 then 1 else 0) =
        date.year := by
      split_ifs at hdateYear ⊢ <;> omega
    rw [hadjusted, hday', hyear', u32TryFrom_natCast (by omega),
      u32TryFrom_natCast (by omega), Option.getD_some, Option.getD_some]

/-- The three numbers of a date. -/
def parts (date : Date) : ℤ × ℕ × ℕ := (date.year, date.month, date.day)

theorem year_dateAfter (days : ℕ) : 1970 ≤ (dateAfter days).year :=
  Date.year_mono (Gregorian.dateAfter_strictMono.monotone (Nat.zero_le days))

/-- As long as the year is an `i32`, the date is that of the calendar. -/
theorem civilFromDays_dateAfter {days : ℕ} (h : (dateAfter days).year ≤ i32Max) :
    civilFromDays days = parts (dateAfter days) := by
  obtain ⟨date, hnumber, hcivil⟩ := civilFromDays_eq (Int.natCast_nonneg days)
  have hyear := year_dateAfter days
  rw [Gregorian.dateAfter_eq hnumber] at h hyear ⊢
  have hfits : i32TryFrom date.year = some date.year := if_pos ⟨by omega, h⟩
  rw [hcivil, hfits]
  rfl

/-- The day after has the date after. -/
theorem civilFromDays_next {days : ℕ} (h : (dateAfter (days + 1)).year ≤ i32Max) :
    ∃ date : Date, civilFromDays days = parts date ∧
      civilFromDays (days + 1 : ℕ) = parts date.next := by
  have hbefore : (dateAfter days).year ≤ i32Max :=
    (Date.year_mono (Gregorian.dateAfter_strictMono.monotone (Nat.le_succ days))).trans h
  refine ⟨dateAfter days, civilFromDays_dateAfter hbefore, ?_⟩
  rw [civilFromDays_dateAfter h, Gregorian.dateAfter_succ]

/-! ## Strings -/

/-- The widths of the fields, and what stands behind them. -/
def layout : List (ℕ × Char) :=
  [(4, '-'), (2, '-'), (2, 'T'), (2, ':'), (2, ':'), (2, '.'), (3, 'Z')]

/-- The fields of a time. -/
def fields (seconds millis : ℕ) : List ℕ :=
  [(dateAfter (seconds / 86400)).year.toNat, (dateAfter (seconds / 86400)).month,
    (dateAfter (seconds / 86400)).day, seconds % 86400 / 3600, seconds % 86400 % 3600 / 60,
    seconds % 86400 % 60, millis]

/-- The year of a time. -/
def yearOf (seconds : UInt64) : ℤ := (dateAfter (seconds.toNat / 86400)).year

variable {seconds seconds' : UInt64} {millis millis' : UInt32}

/-- In the range of years the text is the record of the fields. -/
theorem formatUnixMillis_eq (h : yearOf seconds ≤ i32Max) (millis : UInt32) :
    (formatUnixMillis seconds millis).toList =
      Digits.record layout (fields seconds.toNat millis.toNat) := by
  have hdays : ((seconds.toNat / 86400 : ℕ) : ℤ) ≤ i64Max := by
    have hseconds := seconds.toNat_lt
    unfold i64Max
    omega
  have hyear := year_dateAfter (seconds.toNat / 86400)
  have hpadded : paddedYear (dateAfter (seconds.toNat / 86400)).year =
      padded 4 (dateAfter (seconds.toNat / 86400)).year.toNat := if_neg (by omega)
  unfold formatUnixMillis
  simp only [i64TryFrom, if_pos hdays, Option.getD_some, civilFromDays_dateAfter h, parts, hpadded]
  simp [fields, layout, Digits.record]

example : formatUnixMillis 1735689600 123 = "2025-01-01T00:00:00.123Z" := by decide +kernel

section Fields

variable {seconds seconds' millis millis' : ℕ}

/-- A later time has fields further on. -/
theorem fields_lt (h : seconds < seconds' ∨ seconds = seconds' ∧ millis < millis') :
    fields seconds millis < fields seconds' millis' := by
  have hyear := year_dateAfter (seconds / 86400)
  have hyear' := year_dateAfter (seconds' / 86400)
  have hle : seconds / 86400 ≤ seconds' / 86400 := Nat.div_le_div_right (by omega)
  simp only [fields, List.cons_lt_cons_iff]
  rcases hle.lt_or_eq with hdays | hdays
  · rcases Date.lt_iff.mp (Gregorian.dateAfter_strictMono hdays) with
      hlt | ⟨heq, hlt | ⟨hsame, hlt⟩⟩
    · exact Or.inl (by omega)
    · exact Or.inr ⟨congrArg Int.toNat heq, Or.inl hlt⟩
    · exact Or.inr ⟨congrArg Int.toNat heq, Or.inr ⟨hsame, Or.inl hlt⟩⟩
  · -- on one day the hours, minutes and seconds decide
    rw [hdays]
    refine Or.inr ⟨rfl, Or.inr ⟨rfl, Or.inr ⟨rfl, ?_⟩⟩⟩
    rcases h with hlt | ⟨rfl, hmillis⟩
    · have hday : seconds % 86400 < seconds' % 86400 := by omega
      omega
    · exact Or.inr ⟨rfl, Or.inr ⟨rfl, Or.inr ⟨rfl, Or.inl hmillis⟩⟩⟩

/-- The fields are known from the time and know it. -/
theorem fields_inj : fields seconds millis = fields seconds' millis' ↔
    seconds = seconds' ∧ millis = millis' := by
  constructor
  · intro h
    by_contra hne
    have hapart : (seconds < seconds' ∨ seconds = seconds' ∧ millis < millis') ∨
        (seconds' < seconds ∨ seconds' = seconds ∧ millis' < millis) := by
      omega
    rcases hapart with hlt | hlt
    all_goals
      have hless := fields_lt hlt
      rw [h] at hless
      exact List.lt_irrefl _ hless
  · rintro ⟨rfl, rfl⟩
    rfl

/-- They are ordered as the times are. -/
theorem fields_lt_iff : fields seconds millis < fields seconds' millis' ↔
    seconds < seconds' ∨ seconds = seconds' ∧ millis < millis' := by
  constructor
  · intro h
    by_contra hnot
    by_cases heq : seconds = seconds' ∧ millis = millis'
    · rw [fields_inj.mpr heq] at h
      exact List.lt_irrefl _ h
    · have hless : fields seconds' millis' < fields seconds millis := fields_lt (by omega)
      exact List.lt_asymm h hless
  · exact fields_lt

/-- Until the year 9999 the fields have their widths. -/
theorem fits_fields (h : (dateAfter (seconds / 86400)).year ≤ 9999) (hmillis : millis < 1000) :
    Digits.Fits layout (fields seconds millis) := by
  have hmonth := (dateAfter (seconds / 86400)).month_le
  have hday := (dateAfter (seconds / 86400)).day_le
  have hlength := Gregorian.daysInMonth_le (dateAfter (seconds / 86400)).year
    (dateAfter (seconds / 86400)).month
  simp only [Digits.Fits, layout, fields, List.forall₂_cons, List.Forall₂.nil, and_true]
  omega

end Fields

/-- Of times whose year is an `i32`, no two have the same string. -/
theorem formatUnixMillis_inj (h : yearOf seconds ≤ i32Max) (h' : yearOf seconds' ≤ i32Max) :
    formatUnixMillis seconds millis = formatUnixMillis seconds' millis' ↔
      seconds = seconds' ∧ millis = millis' := by
  have hsep : ∀ field ∈ layout, field.2.isDigit = false := by decide
  rw [← String.toList_inj, formatUnixMillis_eq h, formatUnixMillis_eq h',
    Digits.record_inj hsep rfl rfl, fields_inj, UInt64.toNat_inj, UInt32.toNat_inj]

/-- Until then strings are in the order of their times. -/
theorem formatUnixMillis_lt_iff (h : yearOf seconds ≤ 9999) (h' : yearOf seconds' ≤ 9999)
    (hmillis : millis < 1000) (hmillis' : millis' < 1000) :
    formatUnixMillis seconds millis < formatUnixMillis seconds' millis' ↔
      seconds < seconds' ∨ seconds = seconds' ∧ millis < millis' := by
  have hle : (9999 : ℤ) ≤ i32Max := by decide
  rw [String.lt_iff, formatUnixMillis_eq (h.trans hle), formatUnixMillis_eq (h'.trans hle),
    Digits.record_lt_iff (fits_fields h (UInt32.lt_iff_toNat_lt.mp hmillis))
      (fits_fields h' (UInt32.lt_iff_toNat_lt.mp hmillis')), fields_lt_iff,
    UInt64.lt_iff_toNat_lt, UInt32.lt_iff_toNat_lt, UInt64.toNat_inj]

/-- As long as their years are `i32`s, days have the dates of the calendar and the next day the
next date, and no two times have the same string; until the year 9999 strings are in the order of
the times. -/
theorem timestamps_gregorian :
    (∀ days : ℕ, (dateAfter days).year ≤ i32Max →
      civilFromDays days = parts (dateAfter days)) ∧
    (∀ days : ℕ, (dateAfter (days + 1)).year ≤ i32Max → ∃ date : Date,
      civilFromDays days = parts date ∧ civilFromDays (days + 1 : ℕ) = parts date.next) ∧
    (∀ (seconds seconds' : UInt64) (millis millis' : UInt32),
      yearOf seconds ≤ i32Max → yearOf seconds' ≤ i32Max →
      formatUnixMillis seconds millis = formatUnixMillis seconds' millis' →
      seconds = seconds' ∧ millis = millis') ∧
    ∀ (seconds seconds' : UInt64) (millis millis' : UInt32),
      yearOf seconds ≤ 9999 → yearOf seconds' ≤ 9999 → millis < 1000 → millis' < 1000 →
      (formatUnixMillis seconds millis < formatUnixMillis seconds' millis' ↔
        seconds < seconds' ∨ seconds = seconds' ∧ millis < millis') := by
  refine ⟨?_, ?_, ?_, ?_⟩
  · intro days h
    exact civilFromDays_dateAfter h
  · intro days h
    exact civilFromDays_next h
  · intro seconds seconds' millis millis' h h' heq
    exact (formatUnixMillis_inj h h').mp heq
  · intro seconds seconds' millis millis' h h' hmillis hmillis'
    exact formatUnixMillis_lt_iff h h' hmillis hmillis'

/-- After the last day whose year is an `i32` comes the first of January of the same year, and the
strings of later years come again. -/
theorem year_stays :
    ((dateAfter 784351576776).year ≤ i32Max ∧
      civilFromDays (784351576776 + 1 : ℕ) ≠ parts (dateAfter 784351576776).next) ∧
    (67767976233532800 : UInt64) ≠ 67767976265155200 ∧
      formatUnixMillis 67767976233532800 0 = formatUnixMillis 67767976265155200 0 := by
  have hlast : dateAfter 784351576776 =
      ⟨2147483647, 12, 31, by decide, by decide, by decide, by decide⟩ :=
    Gregorian.dateAfter_eq (by decide +kernel)
  refine ⟨⟨?_, ?_⟩, by decide, by decide +kernel⟩
  · rw [hlast]
    decide
  · rw [hlast]
    decide +kernel

end CryptoCex.Server.Time
