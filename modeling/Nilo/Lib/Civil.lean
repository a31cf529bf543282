import Nilo.Lib.Calendar

/-!
# Days to dates and back, by division

The years of a cycle of 400 counted from March, so that the leap day is the last of its year: a day of
the cycle is cut into its year and the day of it by four divisions (`march_spec`), and the months from
March on are 153 days for every five (`isDate_of_march`). `firstOf_eq` is the other direction.
-/

namespace Nilo.Lib.Calendar

/-- The first of March is the 307th day before the next year begins. -/
theorem march_eq (y : Int) :
    y / 400 * 146097 + ((y - y / 400 * 400) * 365 + (y - y / 400 * 400) / 4 -
      (y - y / 400 * 400) / 100) - 719468 = yearStart (y + 1) - 306 := by
  rw [yearStart, Int.add_sub_cancel]
  omega

/-- Where a day is in the 400 years: centuries, leap years, years and days, counted from March on. -/
structure InCycle (doe c a y k : Int) : Prop where
  century : 0 ≤ c ∧ c ≤ 3
  leaps : 0 ≤ a ∧ a ≤ 24
  year : 0 ≤ y ∧ y ≤ 3
  day_nonneg : 0 ≤ k
  /-- Only a year that ends in a leap day has one day more. -/
  day_le : k ≤ 364 ∨ y = 3 ∧ k = 365 ∧ (a < 24 ∨ c = 3)
  doe_eq : doe = 36524 * c + 1461 * a + 365 * y + k

theorem exists_inCycle {doe : Int} (hnonneg : 0 ≤ doe) (hlt : doe < 146097) :
    ∃ c a y k, InCycle doe c a y k := by
  obtain ⟨c, r, hc, hr, hdoe⟩ : ∃ c r : Int, (0 ≤ c ∧ c ≤ 3) ∧
      (0 ≤ r ∧ r ≤ 36524 ∧ (r = 36524 → c = 3)) ∧ doe = 36524 * c + r := by
    by_cases hlast : doe = 146096
    · exact ⟨3, 36524, by omega, by omega, by omega⟩
    · exact ⟨doe / 36524, doe % 36524, by omega, by omega, by omega⟩
  obtain ⟨a, s, ha, hs, hr'⟩ : ∃ a s : Int, (0 ≤ a ∧ a ≤ 24) ∧
      (0 ≤ s ∧ s ≤ 1460 ∧ (s = 1460 → a < 24 ∨ c = 3)) ∧ r = 1461 * a + s :=
    ⟨r / 1461, r % 1461, by omega, by omega, by omega⟩
  obtain ⟨y, k, hy, hk, hs'⟩ : ∃ y k : Int, (0 ≤ y ∧ y ≤ 3) ∧
      (0 ≤ k ∧ (k ≤ 364 ∨ y = 3 ∧ k = 365 ∧ s = 1460)) ∧ s = 365 * y + k := by
    by_cases hlast : s = 1460
    · exact ⟨3, 365, by omega, by omega, by omega⟩
    · exact ⟨s / 365, s % 365, by omega, by omega, by omega⟩
  exact ⟨c, a, y, k, hc, ha, hy, hk.1, by omega, by omega⟩

/-- The divisions of `civilFromDays` take out the leap days, and leave the year. -/
theorem InCycle.yoe_eq {doe c a y k : Int} (h : InCycle doe c a y k) :
    (doe - doe / 1460 + doe / 36524 - doe / 146096) / 365 = 100 * c + 4 * a + y := by
  obtain ⟨hc, ha, hy, hk, hk', hdoe⟩ := h
  have hcycle : doe / 146096 = if doe = 146096 then 1 else 0 := by
    split_ifs <;> omega
  have hcentury : doe / 36524 = if doe = 146096 then 4 else c := by
    split_ifs <;> omega
  have hleaps : doe / 1460 =
      25 * c + a + if 1460 ≤ 24 * c + a + 365 * y + k then 1 else 0 := by
    split_ifs <;> omega
  rw [hcycle, hcentury, hleaps]
  split_ifs <;> omega

/-- The first of March of a year of the cycle. -/
theorem InCycle.march {doe c a y k : Int} (h : InCycle doe c a y k) (era : Int) :
    yearStart (100 * c + 4 * a + y + era * 400 + 1) - 306 = era * 146097 + (doe - k) - 719468 := by
  obtain ⟨hc, ha, hy, -, -, hdoe⟩ := h
  rw [← march_eq, show (100 * c + 4 * a + y + era * 400) / 400 = era by omega, Int.add_sub_cancel,
    show (100 * c + 4 * a + y) / 4 = 25 * c + a by omega,
    show (100 * c + 4 * a + y) / 100 = c by omega]
  omega

/-- The year of a day, counted from March. -/
def marchYear (days : Int) : Int :=
  let era := (days + 719468) / 146097
  let doe := days + 719468 - era * 146097
  (doe - doe / 1460 + doe / 36524 - doe / 146096) / 365 + era * 400

/-- The days of that year in front of it. -/
def marchDay (days : Int) : Int :=
  let era := (days + 719468) / 146097
  let doe := days + 719468 - era * 146097
  let yoe := (doe - doe / 1460 + doe / 36524 - doe / 146096) / 365
  doe - (365 * yoe + yoe / 4 - yoe / 100)

/-- The year that follows ends the leap day of this one. -/
theorem march_spec (days : Int) :
    (0 ≤ marchDay days ∧ marchDay days ≤ 365) ∧
      yearStart (marchYear days + 1) - 306 + marchDay days = days ∧
        (marchDay days = 365 → isLeap (marchYear days + 1) = true) := by
  have hrange : 0 ≤ days + 719468 - (days + 719468) / 146097 * 146097 ∧
      days + 719468 - (days + 719468) / 146097 * 146097 < 146097 := by omega
  simp only [marchDay, marchYear]
  generalize (days + 719468) / 146097 = era at *
  obtain ⟨c, a, y, k, hin⟩ := exists_inCycle hrange.1 hrange.2
  have hmarch := hin.march era
  have hdoy : days + 719468 - era * 146097 - (365 * (100 * c + 4 * a + y) +
      (100 * c + 4 * a + y) / 4 - (100 * c + 4 * a + y) / 100) = k := by
    obtain ⟨hc, ha, hy, -, -, hdoe⟩ := hin
    rw [show (100 * c + 4 * a + y) / 4 = 25 * c + a by omega,
      show (100 * c + 4 * a + y) / 100 = c by omega]
    omega
  rw [hin.yoe_eq, hdoy]
  obtain ⟨hc, ha, hy, hk, hk', -⟩ := hin
  refine ⟨⟨hk, by omega⟩, by omega, fun hlast => ?_⟩
  rw [isLeap_iff]
  omega

/-- The month of a day counted from March, and the day of the month. -/
theorem isDate_of_march {days y k mp m : Int} (hk : 0 ≤ k ∧ k ≤ 365)
    (hdays : yearStart (y + 1) - 306 + k = days) (hleap : k = 365 → isLeap (y + 1) = true)
    (hmp : mp = (5 * k + 2) / 153) (hm : m = if mp < 10 then mp + 3 else mp - 9) :
    IsDate days (y + if m ≤ 2 then 1 else 0) m (k - (153 * mp + 2) / 5 + 1) := by
  have hmp' : 0 ≤ mp ∧ mp ≤ 11 := by omega
  have hsucc := yearStart_succ y
  by_cases hearly : mp < 10
  · rw [if_pos hearly] at hm
    rw [if_neg (by omega), Int.add_zero]
    refine ⟨by omega, by omega, by omega, ?_, ?_⟩
    · rw [monthLength]
      split_ifs <;> omega
    · rw [monthStart, if_neg (by omega), if_neg (by omega)]
      rcases yearLength_cases y with ⟨hl, hlen⟩ | ⟨hl, hlen⟩
      · rw [hl, if_pos rfl]
        omega
      · rw [hl, if_neg (by decide)]
        omega
  · rw [if_neg hearly] at hm
    rw [if_pos (by omega)]
    refine ⟨by omega, by omega, by omega, ?_, ?_⟩
    · rw [monthLength]
      by_cases hlast : k = 365
      · simp only [hleap hlast, if_true]
        split_ifs <;> omega
      · split_ifs <;> omega
    · rw [monthStart]
      split_ifs <;> omega

/-- The first of a month, by the years from March on in front of it. -/
theorem firstOf_eq (y : Int) {m : Int} (h1 : 1 ≤ m) (h12 : m ≤ 12) {yy mp : Int}
    (hyy : yy = if m ≤ 2 then y - 1 else y) (hmp : mp = if m ≤ 2 then m + 9 else m - 3) :
    yy / 400 * 146097 + ((yy - yy / 400 * 400) * 365 + (yy - yy / 400 * 400) / 4 -
      (yy - yy / 400 * 400) / 100) - 719468 + (153 * mp + 2) / 5 =
        yearStart y + monthStart (isLeap y) m := by
  rw [march_eq]
  by_cases hm : m ≤ 2
  · rw [if_pos hm] at hyy hmp
    rw [hyy, Int.sub_add_cancel, monthStart]
    obtain rfl | rfl : m = 1 ∨ m = 2 := by omega
    · rw [if_pos (by decide)]
      omega
    · rw [if_neg (by decide), if_pos rfl]
      omega
  · have hsucc := yearStart_succ y
    rw [if_neg hm] at hyy hmp
    rw [hyy, monthStart, if_neg (by omega), if_neg (by omega)]
    rcases yearLength_cases y with ⟨hleap, hlen⟩ | ⟨hleap, hlen⟩
    · rw [hleap, if_pos rfl]
      omega
    · rw [hleap, if_neg (by decide)]
      omega

/-- The days of a valid date, and the date of them. -/
theorem IsDate.of_valid {y m d : Int} (h1 : 1 ≤ m) (h12 : m ≤ 12) (hd : 1 ≤ d)
    (hd' : d ≤ monthLength (isLeap y) m) :
    IsDate (yearStart y + monthStart (isLeap y) m + (d - 1)) y m d := ⟨h1, h12, hd, hd', rfl⟩

/-- Later days have later dates. -/
theorem IsDate.lt {day day' y m d y' m' d' : Int} (h : IsDate day y m d) (h' : IsDate day' y' m' d')
    (hlt : day < day') : y < y' ∨ y = y' ∧ (m < m' ∨ m = m' ∧ d < d') := by
  have hin := h.in_year
  have hin' := h'.in_year
  rcases Int.lt_trichotomy y y' with hy | rfl | hy
  · exact .inl hy
  · refine .inr ⟨rfl, ?_⟩
    have hday := h.day_eq
    have hday' := h'.day_eq
    rcases Int.lt_trichotomy m m' with hm | rfl | hm
    · exact .inl hm
    · exact .inr ⟨rfl, by omega⟩
    · have := monthStart_lt (isLeap y) h'.one_le_month hm h.month_le
      have := h'.le
      have := h.one_le
      omega
  · have := yearStart_lt hy
    omega

end Nilo.Lib.Calendar
