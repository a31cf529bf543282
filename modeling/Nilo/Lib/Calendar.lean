import Mathlib.Tactic.SplitIfs
import Mathlib.Data.Int.Basic

/-!
# The Gregorian calendar

Days are counted from 1970-01-01 in both directions. A day has one date at most
(`IsDate.unique`), and dates come round every 400 years, weekdays and all (`IsDate.add_cycle`,
`weekday_add_cycle`).
-/

namespace Nilo.Lib.Calendar

/-- A leap year: every fourth, but of the centuries only every fourth. -/
def isLeap (y : Int) : Bool := y % 4 = 0 && (y % 100 ≠ 0 || y % 400 = 0)

def yearLength (y : Int) : Int := if isLeap y then 366 else 365

/-- The first day of a year. -/
def yearStart (y : Int) : Int :=
  365 * (y - 1970) + (y - 1) / 4 - (y - 1) / 100 + (y - 1) / 400 - 477

def monthLength (leap : Bool) (m : Int) : Int :=
  if m = 2 then (if leap then 29 else 28)
  else if m = 4 ∨ m = 6 ∨ m = 9 ∨ m = 11 then 30 else 31

/-- The days of a year in front of its `m`th month. -/
def monthStart (leap : Bool) (m : Int) : Int :=
  if m ≤ 1 then 0
  else if m = 2 then 31
  else 59 + (153 * (m - 3) + 2) / 5 + (if leap then 1 else 0)

/-- The days of a calendar that comes round. -/
def cycle : Int := 146097

/-- The day is the `d`th of month `m` of year `y`. -/
structure IsDate (day y m d : Int) : Prop where
  one_le_month : 1 ≤ m
  month_le : m ≤ 12
  one_le : 1 ≤ d
  le : d ≤ monthLength (isLeap y) m
  day_eq : day = yearStart y + monthStart (isLeap y) m + (d - 1)

/-- 1970-01-01 was a Thursday, and Sunday is 0. -/
def weekday (day : Int) : Int := (day + 4) % 7

/-! ## Years -/

theorem isLeap_iff (y : Int) :
    isLeap y = true ↔ y % 4 = 0 ∧ (y % 100 ≠ 0 ∨ y % 400 = 0) := by
  simp [isLeap]

theorem yearLength_cases (y : Int) :
    (isLeap y = true ∧ yearLength y = 366) ∨ (isLeap y = false ∧ yearLength y = 365) := by
  rw [yearLength]
  cases isLeap y
  · exact .inr ⟨rfl, rfl⟩
  · exact .inl ⟨rfl, rfl⟩

theorem yearStart_succ (y : Int) : yearStart (y + 1) = yearStart y + yearLength y := by
  have hleap := isLeap_iff y
  -- A multiple more is behind the year where it is one itself.
  have h4 : y / 4 = (y - 1) / 4 + if y % 4 = 0 then 1 else 0 := by split_ifs <;> omega
  have h100 : y / 100 = (y - 1) / 100 + if y % 100 = 0 then 1 else 0 := by split_ifs <;> omega
  have h400 : y / 400 = (y - 1) / 400 + if y % 400 = 0 then 1 else 0 := by split_ifs <;> omega
  simp only [yearStart, Int.add_sub_cancel]
  rcases yearLength_cases y with ⟨h, hlen⟩ | ⟨h, hlen⟩
  · have hrule := hleap.mp h
    split_ifs at h4 h100 h400 <;> omega
  · have hrule : ¬ (y % 4 = 0 ∧ (y % 100 ≠ 0 ∨ y % 400 = 0)) := by
      rw [← hleap, h]
      decide
    split_ifs at h4 h100 h400 <;> omega

theorem yearStart_epoch : yearStart 1970 = 0 := by decide

theorem yearLength_pos (y : Int) : 365 ≤ yearLength y := by
  rcases yearLength_cases y with ⟨-, hlen⟩ | ⟨-, hlen⟩ <;> omega

theorem yearStart_add_nat (y : Int) (n : Nat) : yearStart y + 365 * n ≤ yearStart (y + n) := by
  induction n with
  | zero => simp
  | succ n ih =>
    have hstep := yearStart_succ (y + n)
    have hpos := yearLength_pos (y + n)
    rw [Int.natCast_succ, ← Int.add_assoc]
    omega

theorem yearStart_lt {y z : Int} (h : y < z) : yearStart y + yearLength y ≤ yearStart z := by
  obtain ⟨n, rfl⟩ : ∃ n : Nat, z = y + 1 + n := ⟨(z - (y + 1)).toNat, by omega⟩
  have hle := yearStart_add_nat (y + 1) n
  rw [yearStart_succ] at hle
  omega

/-- No day is in two years. -/
theorem year_unique {y z day : Int} (hy : yearStart y ≤ day) (hy' : day < yearStart y + yearLength y)
    (hz : yearStart z ≤ day) (hz' : day < yearStart z + yearLength z) : y = z := by
  rcases Int.lt_trichotomy y z with hlt | heq | hgt
  · have := yearStart_lt hlt
    omega
  · exact heq
  · have := yearStart_lt hgt
    omega

theorem isLeap_add_400 (y : Int) : isLeap (y + 400) = isLeap y := by
  rw [Bool.eq_iff_iff, isLeap_iff, isLeap_iff]
  omega

theorem yearStart_add_400 (y : Int) : yearStart (y + 400) = yearStart y + cycle := by
  simp only [yearStart, cycle]
  omega

/-! ## Months -/

theorem monthStart_one (leap : Bool) : monthStart leap 1 = 0 := by
  revert leap
  decide

theorem monthStart_mono (leap : Bool) {m n : Int} (h : m ≤ n) :
    monthStart leap m ≤ monthStart leap n := by
  rw [monthStart, monthStart]
  split_ifs <;> omega

theorem monthStart_nonneg (leap : Bool) (m : Int) : 0 ≤ monthStart leap m := by
  rw [monthStart]
  split_ifs <;> omega

theorem monthStart_succ (leap : Bool) {m : Int} (h1 : 1 ≤ m) (h12 : m < 12) :
    monthStart leap (m + 1) = monthStart leap m + monthLength leap m := by
  obtain rfl | rfl | rfl | rfl | rfl | rfl | rfl | rfl | rfl | rfl | rfl :
      m = 1 ∨ m = 2 ∨ m = 3 ∨ m = 4 ∨ m = 5 ∨ m = 6 ∨ m = 7 ∨ m = 8 ∨ m = 9 ∨ m = 10 ∨ m = 11 := by
    omega
  all_goals
    revert leap
    decide

/-- A month is over before a later one begins. -/
theorem monthStart_lt (leap : Bool) {m n : Int} (h1 : 1 ≤ m) (hlt : m < n) (h12 : n ≤ 12) :
    monthStart leap m + monthLength leap m ≤ monthStart leap n := by
  rw [← monthStart_succ leap h1 (by omega)]
  exact monthStart_mono leap hlt

theorem monthStart_twelve (y : Int) :
    monthStart (isLeap y) 12 + monthLength (isLeap y) 12 = yearLength y := by
  rw [yearLength]
  generalize isLeap y = leap
  revert leap
  decide

/-- Every month is over when the year is. -/
theorem monthStart_le_yearLength (y : Int) {m : Int} (h1 : 1 ≤ m) (h12 : m ≤ 12) :
    monthStart (isLeap y) m + monthLength (isLeap y) m ≤ yearLength y := by
  rw [← monthStart_twelve]
  rcases Int.lt_or_eq_of_le h12 with hlt | rfl
  · have hbefore := monthStart_lt (isLeap y) h1 hlt (Int.le_refl 12)
    have hlen : 0 ≤ monthLength (isLeap y) 12 := by
      rw [monthLength]
      split_ifs <;> decide
    omega
  · exact Int.le_refl _

/-! ## Dates -/

variable {day y m d y' m' d' : Int}

theorem IsDate.in_year (h : IsDate day y m d) :
    yearStart y ≤ day ∧ day < yearStart y + yearLength y := by
  have hstart := monthStart_nonneg (isLeap y) m
  have hover := monthStart_le_yearLength y h.one_le_month h.month_le
  obtain ⟨-, -, hone, hle, hday⟩ := h
  omega

/-- A day has one date. -/
theorem IsDate.unique (h : IsDate day y m d) (h' : IsDate day y' m' d') :
    y = y' ∧ m = m' ∧ d = d' := by
  obtain rfl : y = y' :=
    year_unique h.in_year.1 h.in_year.2 h'.in_year.1 h'.in_year.2
  have hday := h.day_eq
  rw [h'.day_eq] at hday
  have hm : m = m' := by
    rcases Int.lt_trichotomy m m' with hlt | heq | hgt
    · have := monthStart_lt (isLeap y) h.one_le_month hlt h'.month_le
      have := h.le
      have := h'.one_le
      omega
    · exact heq
    · have := monthStart_lt (isLeap y) h'.one_le_month hgt h.month_le
      have := h'.le
      have := h.one_le
      omega
  subst hm
  exact ⟨rfl, rfl, by omega⟩

/-- The days of a month follow one another. -/
theorem IsDate.later (h : IsDate day y m d) {k : Int} (hk : 0 ≤ k)
    (hle : d + k ≤ monthLength (isLeap y) m) : IsDate (day + k) y m (d + k) := by
  have hone := h.one_le
  have hday := h.day_eq
  exact ⟨h.one_le_month, h.month_le, by omega, hle, by omega⟩

/-- Dates come round. -/
theorem IsDate.add_cycle (h : IsDate day y m d) : IsDate (day + cycle) (y + 400) m d := by
  refine ⟨h.one_le_month, h.month_le, h.one_le, ?_, ?_⟩
  · rw [isLeap_add_400]
    exact h.le
  · rw [isLeap_add_400, yearStart_add_400, h.day_eq]
    omega

/-- And so do weekdays. -/
theorem weekday_add_cycle (day : Int) : weekday (day + cycle) = weekday day := by
  rw [weekday, weekday, cycle]
  omega

end Nilo.Lib.Calendar
