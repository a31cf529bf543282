import Nilo.Job.Tz
import Nilo.Lib.Civil

/-!
# The switches of a rule (`job/tz.zig`)

A rule switches twice in every year, for ever in both directions. A switch falls within some weeks of
the year it is dated in (`instant_near`), and the dates come round every 400 years
(`instant_add_cycle`).
-/

namespace Nilo.Tz

open Lib.Calendar (yearStart yearLength monthStart monthLength yearStart_succ yearStart_lt
  yearLength_pos yearLength_cases year_unique isLeap_iff isLeap_add_400 yearStart_add_400 cycle
  monthStart_nonneg monthStart_le_yearLength marchYear marchDay march_spec isDate_of_march firstOf_eq
  IsDate weekday monthStart_succ)

/-! ## The calendar -/

theorem isLeap_eq (y : Int) : isLeap y = Lib.Calendar.isLeap y := by
  rw [Bool.eq_iff_iff, isLeap_iff, isLeap]
  simp

theorem daysInMonth_eq (y m : Int) :
    daysInMonth y m = monthLength (Lib.Calendar.isLeap y) m := by
  rw [daysInMonth, monthLength, isLeap_eq]

/-- The first of a month, by the count of the days in front of it. -/
theorem daysFromCivil_first (y : Int) {m : Int} (h1 : 1 ≤ m) (h12 : m ≤ 12) :
    daysFromCivil y m 1 = yearStart y + monthStart (Lib.Calendar.isLeap y) m := by
  have hmp : (m + 9) % 12 = if m ≤ 2 then m + 9 else m - 3 := by
    split_ifs <;> omega
  rw [← firstOf_eq y h1 h12 rfl hmp, daysFromCivil]
  omega

/-- A day's date. -/
theorem isDate_civilFromDays (days : Int) :
    IsDate days (civilFromDays days).year (civilFromDays days).month (civilFromDays days).day := by
  obtain ⟨hk, hdays, hleap⟩ := march_spec days
  exact isDate_of_march hk hdays hleap rfl rfl

/-- The year of a date is the one its day is in. -/
theorem civilFromDays_year (days : Int) :
    yearStart (civilFromDays days).year ≤ days ∧
      days < yearStart (civilFromDays days).year + yearLength (civilFromDays days).year :=
  (isDate_civilFromDays days).in_year

/-! ## The day a date names -/

/-- The dates a footer may hold. -/
def Date.InRange : Date → Prop
  | .julian1 n => 1 ≤ n ∧ n ≤ 365
  | .julian0 n => n ≤ 365
  | .month m w d => (1 ≤ m ∧ m ≤ 12) ∧ (1 ≤ w ∧ w ≤ 5) ∧ d ≤ 6

instance : DecidablePred Date.InRange
  | .julian1 n => inferInstanceAs (Decidable (1 ≤ n ∧ n ≤ 365))
  | .julian0 n => inferInstanceAs (Decidable (n ≤ 365))
  | .month m w d => inferInstanceAs (Decidable ((1 ≤ m ∧ m ≤ 12) ∧ (1 ≤ w ∧ w ≤ 5) ∧ d ≤ 6))

/-- Going back by weeks ends in the last week before the bound, or where it began. -/
theorem backBelow_spec {bound low day : Int} {n : Nat} (hlow : low ≤ day) (hweek : low + 7 ≤ bound)
    (hfuel : day < bound + 7 * n) :
    low ≤ backBelow bound n day ∧ backBelow bound n day < bound := by
  induction n generalizing day with
  | zero =>
    rw [backBelow]
    omega
  | succ n ih =>
    rw [backBelow]
    split_ifs with hover
    · exact ih (by omega) (by omega)
    · omega

theorem backBelow_add (bound day k : Int) (n : Nat) :
    backBelow (bound + k) n (day + k) = backBelow bound n day + k := by
  induction n generalizing day with
  | zero => rfl
  | succ n ih =>
    rw [backBelow, backBelow]
    split_ifs with hover hover' hover'
    · rw [← ih]
      congr 1
      omega
    · omega
    · omega
    · rfl

/-- A weekday of a month is in the month. -/
theorem epochDay_month {m w d : Nat} (h : (Date.month m w d).InRange) (y : Int) :
    yearStart y + monthStart (Lib.Calendar.isLeap y) m ≤ (Date.month m w d).epochDay y ∧
      (Date.month m w d).epochDay y <
        yearStart y + monthStart (Lib.Calendar.isLeap y) m +
          monthLength (Lib.Calendar.isLeap y) m := by
  rw [Date.InRange] at h
  have hlength : 28 ≤ daysInMonth y m := by
    rw [daysInMonth]
    split_ifs <;> decide
  rw [← daysFromCivil_first y (m := m) (by omega) (by omega), ← daysInMonth_eq]
  simp only [Date.epochDay]
  generalize daysFromCivil y m 1 = first at *
  exact backBelow_spec (by omega) (by omega) (by omega)

/-- A date names a day of its year, or the one right behind it. -/
theorem Date.epochDay_year {date : Date} (h : date.InRange) (y : Int) :
    yearStart y ≤ date.epochDay y ∧ date.epochDay y ≤ yearStart y + 365 := by
  have hlen := yearLength_cases y
  cases date with
  | julian1 n =>
    rw [Date.InRange] at h
    simp only [Date.epochDay, daysFromCivil_first y (m := 1) (by decide) (by decide),
      Lib.Calendar.monthStart_one]
    split_ifs <;> omega
  | julian0 n =>
    rw [Date.InRange] at h
    simp only [Date.epochDay, daysFromCivil_first y (m := 1) (by decide) (by decide),
      Lib.Calendar.monthStart_one]
    omega
  | month m w d =>
    have hin := epochDay_month h y
    rw [Date.InRange] at h
    have hstart := monthStart_nonneg (Lib.Calendar.isLeap y) m
    have hover := monthStart_le_yearLength y (m := m) (by omega) (by omega)
    omega

theorem daysFromCivil_add_400 (y : Int) {m : Int} (h1 : 1 ≤ m) (h12 : m ≤ 12) :
    daysFromCivil (y + 400) m 1 = daysFromCivil y m 1 + cycle := by
  rw [daysFromCivil_first _ h1 h12, daysFromCivil_first _ h1 h12, yearStart_add_400, isLeap_add_400]
  omega

/-- The dates of 400 years later are the same, weekdays and all. -/
theorem Date.epochDay_add_400 {date : Date} (h : date.InRange) (y : Int) :
    date.epochDay (y + 400) = date.epochDay y + cycle := by
  have hleap : isLeap (y + 400) = isLeap y := by rw [isLeap_eq, isLeap_eq, isLeap_add_400]
  cases date with
  | julian1 n =>
    simp only [Date.epochDay, daysFromCivil_add_400 y (m := 1) (by decide) (by decide), hleap]
    omega
  | julian0 n =>
    simp only [Date.epochDay, daysFromCivil_add_400 y (m := 1) (by decide) (by decide)]
    omega
  | month m w d =>
    rw [Date.InRange] at h
    have hmonth : daysInMonth (y + 400) m = daysInMonth y m := by
      rw [daysInMonth, daysInMonth, hleap]
    simp only [Date.epochDay, daysFromCivil_add_400 y (m := m) (by omega) (by omega), hmonth]
    rw [← backBelow_add]
    have hweekday : (daysFromCivil y m 1 + cycle + 4) % 7 = (daysFromCivil y m 1 + 4) % 7 := by
      rw [cycle]
      omega
    rw [hweekday]
    congr 1
    · omega
    · omega

/-! ## Days and dates -/

theorem daysInMonth_bounds (y m : Int) : 28 ≤ daysInMonth y m ∧ daysInMonth y m ≤ 31 := by
  rw [daysInMonth]
  split_ifs <;> decide

/-- A date that there is. -/
def Civil.Valid (c : Civil) : Prop :=
  (1 ≤ c.month ∧ c.month ≤ 12) ∧ 1 ≤ c.day ∧ c.day ≤ daysInMonth c.year c.month

/-- The date of the day after. -/
def Civil.next (c : Civil) : Civil :=
  if c.day < daysInMonth c.year c.month then { c with day := c.day + 1 }
  else if c.month < 12 then { c with month := c.month + 1, day := 1 }
  else { year := c.year + 1, month := 1, day := 1 }

theorem daysFromCivil_eq {c : Civil} (h : c.Valid) :
    IsDate (daysFromCivil c.year c.month c.day) c.year c.month c.day := by
  obtain ⟨⟨h1, h12⟩, hone, hle⟩ := h
  rw [daysInMonth_eq] at hle
  refine ⟨h1, h12, hone, hle, ?_⟩
  rw [← daysFromCivil_first c.year h1 h12, daysFromCivil, daysFromCivil]
  omega

theorem valid_of_isDate {day : Int} {c : Civil} (h : IsDate day c.year c.month c.day) : c.Valid := by
  refine ⟨⟨h.one_le_month, h.month_le⟩, h.one_le, ?_⟩
  rw [daysInMonth_eq]
  exact h.le

theorem valid_civilFromDays (days : Int) : (civilFromDays days).Valid :=
  valid_of_isDate (isDate_civilFromDays days)

/-- A day has no other date than the one it is given. -/
theorem civilFromDays_of_isDate {day : Int} {c : Civil} (h : IsDate day c.year c.month c.day) :
    civilFromDays day = c := by
  obtain ⟨hyear, hmonth, hday⟩ := (isDate_civilFromDays day).unique h
  obtain ⟨year, month, day⟩ := c
  rw [Civil.mk.injEq]
  exact ⟨hyear, hmonth, hday⟩

theorem daysFromCivil_civilFromDays (days : Int) :
    daysFromCivil (civilFromDays days).year (civilFromDays days).month (civilFromDays days).day = days := by
  rw [(daysFromCivil_eq (valid_civilFromDays days)).day_eq, ← (isDate_civilFromDays days).day_eq]

theorem civilFromDays_daysFromCivil {c : Civil} (h : c.Valid) :
    civilFromDays (daysFromCivil c.year c.month c.day) = c :=
  civilFromDays_of_isDate (daysFromCivil_eq h)

theorem isDate_next {day : Int} {c : Civil} (h : IsDate day c.year c.month c.day) :
    IsDate (day + 1) c.next.year c.next.month c.next.day := by
  have hone := h.one_le
  have hle := h.le
  have hday := h.day_eq
  have h1 := h.one_le_month
  rw [Civil.next, daysInMonth_eq]
  split_ifs with hmore hmonth
  · exact h.later (by decide) hmore
  · -- the month is over, and the next one begins
    have hstart := monthStart_succ (Lib.Calendar.isLeap c.year) h1 hmonth
    have hlen := daysInMonth_bounds c.year (c.month + 1)
    rw [daysInMonth_eq] at hlen
    refine ⟨?_, ?_, Int.le_refl 1, ?_, ?_⟩ <;> dsimp only <;> omega
  · -- and so is the year
    have hdecember : c.month = 12 := by
      have := h.month_le
      omega
    have hover := Lib.Calendar.monthStart_twelve c.year
    rw [← hdecember] at hover
    have hlen := daysInMonth_bounds (c.year + 1) 1
    rw [daysInMonth_eq] at hlen
    refine ⟨Int.le_refl 1, show (1 : Int) ≤ 12 by decide, Int.le_refl 1, ?_, ?_⟩
    · dsimp only
      omega
    · dsimp only
      rw [yearStart_succ, Lib.Calendar.monthStart_one]
      omega

/-- Going back by weeks keeps the weekday. -/
theorem weekday_backBelow (bound day : Int) (n : Nat) :
    weekday (backBelow bound n day) = weekday day := by
  induction n generalizing day with
  | zero => rfl
  | succ n ih =>
    rw [backBelow]
    split_ifs
    · rw [ih, weekday, weekday]
      omega
    · rfl

/-- How many of the first `n` days from `first` on fall on a weekday. -/
def countOn (weekdayOf first : Int) (n : Nat) : Nat :=
  (List.range n).countP fun k : Nat => weekday (first + k) == weekdayOf

theorem countOn_eq {d first : Int} (hd : 0 ≤ d ∧ d ≤ 6) (n : Nat) :
    (countOn d first n : Int) = (n + 6 - (d - (first + 4) % 7) % 7) / 7 := by
  induction n with
  | zero =>
    rw [countOn, List.range_zero, List.countP_nil]
    omega
  | succ n ih =>
    rw [countOn] at ih ⊢
    rw [List.range_succ, List.countP_append, List.countP_singleton, Int.natCast_add, ih]
    by_cases hon : weekday (first + n) = d
    · rw [if_pos (beq_iff_eq.mpr hon)]
      rw [weekday] at hon
      omega
    · rw [if_neg (fun h => hon (beq_iff_eq.mp h))]
      rw [weekday] at hon
      omega

/-- The day that `Mm.w.d` names, when it is the `w`th such weekday of its month and not the last. -/
theorem epochDay_nth {m w d : Nat} (h : (Date.month m w d).InRange) (hw : w ≤ 4) (y : Int) :
    (Date.month m w d).epochDay y = daysFromCivil y m 1 +
      (d - (daysFromCivil y m 1 + 4) % 7) % 7 + 7 * (w - 1) := by
  rw [Date.InRange] at h
  have hlength := (daysInMonth_bounds y m).1
  simp only [Date.epochDay]
  generalize daysFromCivil y m 1 = first at *
  obtain ⟨n, rfl⟩ : ∃ n, w = n + 1 := ⟨w - 1, by omega⟩
  rw [backBelow, if_neg]
  omega

/-- And when it is the last. -/
theorem epochDay_last (m d : Nat) (y : Int) :
    daysFromCivil y m 1 + daysInMonth y m ≤ (Date.month m 5 d).epochDay y + 7 := by
  obtain ⟨hpos, hlength⟩ := daysInMonth_bounds y m
  simp only [Date.epochDay]
  generalize daysFromCivil y m 1 = first at *
  have hback := @backBelow_spec (first + daysInMonth y m) (first + daysInMonth y m - 7)
    (first + (d - (first + 4) % 7) % 7 + 7 * ((5 : Nat) - 1)) 5 (by omega) (by omega) (by omega)
  omega

theorem epochDay_weekday {m w d : Nat} (h : (Date.month m w d).InRange) (y : Int) :
    weekday ((Date.month m w d).epochDay y) = d := by
  rw [Date.InRange] at h
  simp only [Date.epochDay]
  rw [weekday_backBelow, weekday]
  omega

/-- The day that `Mm.w.d` names is in its month. -/
theorem isDate_epochDay {m w d : Nat} (h : (Date.month m w d).InRange) (y : Int) :
    IsDate ((Date.month m w d).epochDay y) y m
      ((Date.month m w d).epochDay y - daysFromCivil y m 1 + 1) := by
  have hin := epochDay_month h y
  rw [Date.InRange] at h
  have hfirst := daysFromCivil_first y (m := m) (by omega) (by omega)
  refine ⟨by omega, by omega, ?_, ?_, ?_⟩ <;> rw [hfirst] <;> omega

/-- Days and dates are one and the same in both directions, one after the other, and a day that is named
by its weekday is the one that the name says. -/
theorem civil_calendar :
    (∀ days : Int, daysFromCivil (civilFromDays days).year (civilFromDays days).month
        (civilFromDays days).day = days ∧
      (civilFromDays days).Valid ∧ civilFromDays (days + 1) = (civilFromDays days).next) ∧
    (∀ c : Civil, c.Valid → civilFromDays (daysFromCivil c.year c.month c.day) = c) ∧
    civilFromDays 0 = ⟨1970, 1, 1⟩ ∧
    ∀ (m w d : Nat) (year : Int), (Date.month m w d).InRange →
      let day := (Date.month m w d).epochDay year
      let date := civilFromDays day
      (date.year = year ∧ date.month = m) ∧ weekday day = d ∧
      (w ≤ 4 → countOn d (daysFromCivil year m 1) date.day.toNat = w) ∧
      (w = 5 → ∀ later, day < later → weekday later = d →
        ¬ ((civilFromDays later).year = year ∧ (civilFromDays later).month = m)) := by
  refine ⟨fun days => ⟨daysFromCivil_civilFromDays days, valid_civilFromDays days,
    civilFromDays_of_isDate (isDate_next (isDate_civilFromDays days))⟩,
    fun c => civilFromDays_daysFromCivil, by decide, ?_⟩
  intro m w d year h day date
  have hdate : date = ⟨year, m, day - daysFromCivil year m 1 + 1⟩ :=
    civilFromDays_of_isDate (isDate_epochDay h year)
  have hweekday := epochDay_weekday h year
  rw [hdate]
  refine ⟨⟨rfl, rfl⟩, hweekday, fun hw => ?_, ?_⟩
  · have hnth := epochDay_nth h hw year
    rw [Date.InRange] at h
    have hcount : (countOn d (daysFromCivil year m 1) (day - daysFromCivil year m 1 + 1).toNat : Int) = _ :=
      countOn_eq (by omega) _
    dsimp only
    omega
  · rintro rfl later hlater hon ⟨hyear, hmonth⟩
    have hlast := epochDay_last m d year
    have hin := isDate_civilFromDays later
    rw [hyear, hmonth] at hin
    rw [Date.InRange] at h
    rw [daysFromCivil_first year (by omega) (by omega), daysInMonth_eq] at hlast
    rw [weekday] at hon hweekday
    have hle := hin.le
    have hday := hin.day_eq
    omega

/-! ## Switches -/

/-- A switch of a rule, by the year it is dated in and the side it goes to. -/
structure Switch where
  year : Int
  toDst : Bool
deriving DecidableEq

/-- In front of another by its date. -/
def Switch.Earlier (a b : Switch) : Prop :=
  a.year < b.year ∨ a.year = b.year ∧ a.toDst = true ∧ b.toDst = false

theorem Switch.Earlier.asymm {a b : Switch} (h : a.Earlier b) : ¬ b.Earlier a := by
  rintro (hlt | ⟨heq, hdst, -⟩)
  · rcases h with hlt' | ⟨heq, -, -⟩ <;> omega
  · rcases h with hlt' | ⟨-, -, hstd⟩
    · omega
    · rw [hstd] at hdst
      cases hdst

/-- The switches dated next to a year. -/
def near (y : Int) : List Switch :=
  [⟨y - 1, true⟩, ⟨y - 1, false⟩, ⟨y, true⟩, ⟨y, false⟩, ⟨y + 1, true⟩, ⟨y + 1, false⟩]

theorem mem_near {y : Int} {s : Switch} : s ∈ near y ↔ y - 1 ≤ s.year ∧ s.year ≤ y + 1 := by
  obtain ⟨year, toDst⟩ := s
  have hyears : y - 1 ≤ year ∧ year ≤ y + 1 ↔ year = y - 1 ∨ year = y ∨ year = y + 1 := by omega
  rw [hyears]
  cases toDst <;> simp [near]

theorem pairwise_near (y : Int) : (near y).Pairwise Switch.Earlier := by
  simp [near, Switch.Earlier] <;> omega

/-- The first second of a year. -/
def startOf (y : Int) : Int := yearStart y * 86400

theorem startOf_lt {y z : Int} (h : y < z) : startOf y + 365 * 86400 ≤ startOf z := by
  have hyear := yearStart_lt h
  have hlen := yearLength_pos y
  rw [startOf, startOf]
  omega

/-- The most that three fields of three digits say, in seconds. -/
def maxTime : Int := 999 * 3600 + 999 * 60 + 999

namespace Rule

variable {rule : Rule} {d : Dst} {s s' n n' : Switch} {t u y : Int}

/-- When a switch takes place. -/
def instant (rule : Rule) (d : Dst) (s : Switch) : Int :=
  if s.toDst then d.start.date.epochDay s.year * 86400 + d.start.time - rule.stdOff
  else d.finish.date.epochDay s.year * 86400 + d.finish.time - d.off

/-- The offset from a switch to one side on. -/
def offOf (rule : Rule) (d : Dst) (toDst : Bool) : Int := if toDst then d.off else rule.stdOff

def event (rule : Rule) (d : Dst) (s : Switch) : Event := ⟨rule.instant d s, s.toDst⟩

/-- What a footer may say: `parseChange` and `parseTime` let no more through. -/
structure InRange (rule : Rule) (d : Dst) : Prop where
  start : d.start.date.InRange
  finish : d.finish.date.InRange
  startTime : -maxTime ≤ d.start.time ∧ d.start.time ≤ maxTime
  finishTime : -maxTime ≤ d.finish.time ∧ d.finish.time ≤ maxTime
  stdOff : -maxTime ≤ rule.stdOff ∧ rule.stdOff ≤ maxTime
  off : -maxTime ≤ d.off ∧ d.off ≤ maxTime + 3600

/-- A switch is within a hundred days of its year. -/
theorem instant_near (h : rule.InRange d) (s : Switch) :
    startOf s.year - 100 * 86400 ≤ rule.instant d s ∧
      rule.instant d s ≤ startOf s.year + 465 * 86400 := by
  obtain ⟨hstart, hfinish, hstime, hftime, hstd, hoff⟩ := h
  have hday := Date.epochDay_year hstart s.year
  have hday' := Date.epochDay_year hfinish s.year
  rw [maxTime] at *
  rw [instant, startOf]
  split_ifs <;> omega

/-- A switch of a later year is no earlier. -/
theorem instant_mono (h : rule.InRange d) (toDst : Bool) {y z : Int} (hle : y ≤ z) :
    rule.instant d ⟨y, toDst⟩ ≤ rule.instant d ⟨z, toDst⟩ := by
  rcases Int.lt_or_eq_of_le hle with hlt | rfl
  · have hyear := yearStart_lt hlt
    have hlen := yearLength_pos y
    have hday := Date.epochDay_year h.start y
    have hday' := Date.epochDay_year h.start z
    have hend := Date.epochDay_year h.finish y
    have hend' := Date.epochDay_year h.finish z
    rw [instant, instant]
    dsimp only
    split_ifs <;> omega
  · exact Int.le_refl _

theorem instant_add_cycle (h : rule.InRange d) (y : Int) (toDst : Bool) :
    rule.instant d ⟨y + 400, toDst⟩ = rule.instant d ⟨y, toDst⟩ + cycle * 86400 := by
  have hday := Date.epochDay_add_400 h.start y
  have hend := Date.epochDay_add_400 h.finish y
  rw [instant, instant]
  dsimp only
  split_ifs <;> omega

/-- The switches of two years before are over, and those of two years after are to come. -/
theorem instant_past (h : rule.InRange d) (hyear : s.year + 2 ≤ y) :
    rule.instant d s < startOf y := by
  have hnear := instant_near h s
  have hnext := startOf_lt (y := s.year) (z := s.year + 1) (by omega)
  have hlater : startOf (s.year + 1) + 365 * 86400 ≤ startOf y := startOf_lt (by omega)
  omega

theorem lt_instant (h : rule.InRange d) (hyear : y + 1 ≤ s.year) :
    startOf y < rule.instant d s := by
  have hnear := instant_near h s
  have hlater := startOf_lt (y := y) (z := s.year) (by omega)
  omega

end Rule

end Nilo.Tz
