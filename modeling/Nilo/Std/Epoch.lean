import Nilo.Lib.Calendar

/-!
# Dates (`std.time.epoch`)

How the day count of an instant is turned into a year, a month and a day of it: whole years are taken
off from 1970 on, then whole months. What is left is the date of the day (`isDate_calculate`).
-/

namespace Nilo.Epoch

open Lib.Calendar

def epochYear : Nat := 1970

def secsPerDay : Nat := 86400

def isLeapYear (year : Nat) : Bool :=
  if year % 4 ≠ 0 then false else if year % 100 ≠ 0 then true else 0 == year % 400

def getDaysInYear (year : Nat) : Nat := if isLeapYear year then 366 else 365

/-- January is 1. -/
def getDaysInMonth (year month : Nat) : Nat :=
  match month with
  | 2 => if isLeapYear year then 29 else 28
  | 4 | 6 | 9 | 11 => 30
  | _ => 31

/-- How far into a year a day is. -/
structure YearAndDay where
  year : Nat
  day : Nat
deriving DecidableEq, Repr

/-- How far into a month a day is. -/
structure MonthAndDay where
  month : Nat
  dayIndex : Nat
deriving DecidableEq, Repr

/-- The loop of `calculateYearDay`, at most as many turns as there are days. -/
def yearDayFrom : Nat → Nat → Nat → YearAndDay
  | 0, year, day => ⟨year, day⟩
  | n + 1, year, day =>
    if day < getDaysInYear year then ⟨year, day⟩
    else yearDayFrom n (year + 1) (day - getDaysInYear year)

def calculateYearDay (day : Nat) : YearAndDay := yearDayFrom day epochYear day

/-- The loop of `calculateMonthDay`, over the twelve months. -/
def monthDayFrom (year : Nat) : Nat → Nat → Nat → MonthAndDay
  | 0, month, left => ⟨month, left⟩
  | n + 1, month, left =>
    if left < getDaysInMonth year month then ⟨month, left⟩
    else monthDayFrom year n (month + 1) (left - getDaysInMonth year month)

def YearAndDay.calculateMonthDay (self : YearAndDay) : MonthAndDay :=
  monthDayFrom self.year 11 1 self.day

/-! ## The calendar the loops walk -/

theorem isLeapYear_eq (year : Nat) : isLeapYear year = isLeap year := by
  rw [Bool.eq_iff_iff, isLeap_iff, isLeapYear]
  split_ifs with h4 h100
  · refine ⟨(fun hno => nomatch hno), fun hleap => absurd hleap.1 ?_⟩
    omega
  · simp only [true_iff]
    omega
  · simp only [beq_iff_eq]
    omega

theorem getDaysInYear_eq (year : Nat) : (getDaysInYear year : Int) = yearLength year := by
  rw [getDaysInYear, yearLength, isLeapYear_eq]
  split_ifs <;> rfl

theorem getDaysInMonth_eq (year month : Nat) :
    (getDaysInMonth year month : Int) = monthLength (isLeap year) month := by
  rw [monthLength, ← isLeapYear_eq]
  fun_cases getDaysInMonth year month with
  | case1 hleap => simp [hleap]
  | case2 hleap => simp [hleap]
  | case3 => rfl
  | case4 => rfl
  | case5 => rfl
  | case6 => rfl
  | case7 _ h2 h4 h6 h9 h11 =>
    have hnot : month ≠ 2 ∧ month ≠ 4 ∧ month ≠ 6 ∧ month ≠ 9 ∧ month ≠ 11 :=
      ⟨h2, h4, h6, h9, h11⟩
    rw [if_neg (by omega), if_neg (by omega)]
    rfl

/-- What is left of a day count is within the year it is left in. -/
theorem yearDayFrom_spec (n year day : Nat) (hfuel : day ≤ n) :
    (yearDayFrom n year day).day < getDaysInYear (yearDayFrom n year day).year ∧
      yearStart (yearDayFrom n year day).year + (yearDayFrom n year day).day =
        yearStart year + day := by
  induction n generalizing year day with
  | zero =>
    obtain rfl : day = 0 := Nat.le_zero.mp hfuel
    refine ⟨?_, rfl⟩
    have hpos := yearLength_pos year
    rw [← getDaysInYear_eq] at hpos
    simp only [yearDayFrom]
    omega
  | succ n ih =>
    rw [yearDayFrom]
    by_cases hin : day < getDaysInYear year
    · rw [if_pos hin]
      exact ⟨hin, rfl⟩
    · rw [if_neg hin]
      have hlen := getDaysInYear_eq year
      have hpos := yearLength_pos year
      obtain ⟨hday, hstart⟩ := ih (year + 1) (day - getDaysInYear year) (by omega)
      refine ⟨hday, hstart.trans ?_⟩
      rw [Int.natCast_succ, yearStart_succ]
      omega

theorem calculateYearDay_spec (day : Nat) :
    (calculateYearDay day).day < getDaysInYear (calculateYearDay day).year ∧
      yearStart (calculateYearDay day).year + (calculateYearDay day).day = day := by
  obtain ⟨hday, hstart⟩ := yearDayFrom_spec day epochYear day (Nat.le_refl day)
  refine ⟨hday, hstart.trans ?_⟩
  have hepoch : yearStart epochYear = 0 := yearStart_epoch
  rw [hepoch, Int.zero_add]

/-- What is left of the days of a year is within the month it is left in. -/
theorem monthDayFrom_spec (year n month left : Nat) (hmonth : 1 ≤ month) (hfuel : month + n = 12)
    (hleft : monthStart (isLeap year) month + left < yearLength year) :
    1 ≤ (monthDayFrom year n month left).month ∧ (monthDayFrom year n month left).month ≤ 12 ∧
      (monthDayFrom year n month left).dayIndex <
        getDaysInMonth year (monthDayFrom year n month left).month ∧
      monthStart (isLeap year) (monthDayFrom year n month left).month +
        (monthDayFrom year n month left).dayIndex = monthStart (isLeap year) month + left := by
  induction n generalizing month left with
  | zero =>
    obtain rfl : month = 12 := hfuel
    have htwelve : monthStart (isLeap year) (12 : Nat) + getDaysInMonth year 12 = yearLength year := by
      rw [getDaysInMonth_eq]
      exact monthStart_twelve year
    rw [monthDayFrom]
    refine ⟨hmonth, Nat.le_refl 12, ?_, rfl⟩
    show left < getDaysInMonth year 12
    omega
  | succ n ih =>
    rw [monthDayFrom]
    by_cases hin : left < getDaysInMonth year month
    · rw [if_pos hin]
      exact ⟨hmonth, show month ≤ 12 by omega, hin, rfl⟩
    · rw [if_neg hin]
      have hlen := getDaysInMonth_eq year month
      have hnext : monthStart (isLeap year) (month + 1 : Nat) =
          monthStart (isLeap year) month + getDaysInMonth year month := by
        rw [hlen, Int.natCast_succ]
        exact monthStart_succ (isLeap year) (by omega) (by omega)
      obtain ⟨hone, hle, hindex, hstart⟩ := ih (month + 1) (left - getDaysInMonth year month)
        (by omega) (by omega) (by omega)
      exact ⟨hone, hle, hindex, by omega⟩

/-- The two loops give a day its date. -/
theorem isDate_calculate (day : Nat) :
    IsDate day (calculateYearDay day).year (calculateYearDay day).calculateMonthDay.month
      ((calculateYearDay day).calculateMonthDay.dayIndex + 1) := by
  obtain ⟨hday, hyear⟩ := calculateYearDay_spec day
  generalize calculateYearDay day = yd at *
  have hleft : monthStart (isLeap yd.year) (1 : Nat) + yd.day < yearLength yd.year := by
    have hone : monthStart (isLeap yd.year) (1 : Nat) = 0 := monthStart_one _
    rw [hone, ← getDaysInYear_eq]
    omega
  obtain ⟨hone, htwelve, hindex, hstart⟩ :=
    monthDayFrom_spec yd.year 11 1 yd.day (Nat.le_refl 1) rfl hleft
  rw [YearAndDay.calculateMonthDay]
  generalize monthDayFrom yd.year 11 1 yd.day = md at *
  have hlen := getDaysInMonth_eq yd.year md.month
  have hfirst : monthStart (isLeap yd.year) (1 : Nat) = 0 := monthStart_one _
  exact ⟨by omega, by omega, by omega, by omega, by omega⟩

end Nilo.Epoch
