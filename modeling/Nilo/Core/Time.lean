import Nilo.Lib.Civil
import Nilo.Std.Decimal
import Nilo.Std.Mem
import Mathlib.Tactic.IntervalCases

/-!
# Moments and days as text (`core/time.zig`)

`writeRfc3339` and `writeIso` print, `niloParse` and `Date.niloParse` read back, in integers of 64 bits
whose overflow stops the program (`i64`). What a text says is `Stated`: its fields and its zone, apart
from how they are read.
-/

namespace Nilo.Time

open Text (Bytes isDigit between padded)
open Mem (Run Fault)

/-- A result of `i64` arithmetic. -/
def i64 (n : Int) : Run Int := if -2 ^ 63 ≤ n ∧ n < 2 ^ 63 then .ok n else .error .overflow

/-- `@intCast` to an unsigned integer below `limit`. -/
def intCast (limit : Nat) (n : Int) : Run Nat :=
  if 0 ≤ n ∧ n < limit then .ok n.toNat else .error .range

/-- 0001-01-01T00:00:00Z and 9999-12-31T23:59:59.999999Z as microseconds. -/
def firstMicros : Int := -62135596800000000

def lastMicros : Int := 253402300799999999

def secsPerDay : Int := 86400

def microsPerSec : Int := 1000000

/-! ## The calendar -/

def isLeap (year : Int) : Bool := year.tmod 4 == 0 && (year.tmod 100 != 0 || year.tmod 400 == 0)

def daysInMonth (year : Int) (month : Nat) : Nat :=
  match month with
  | 1 | 3 | 5 | 7 | 8 | 10 | 12 => 31
  | 4 | 6 | 9 | 11 => 30
  | 2 => if isLeap year then 29 else 28
  | _ => 0

/-- Days from 1970-01-01 to a civil date. -/
def daysFromCivil (year : Int) (month day : Nat) : Run Int := do
  let shifted ← i64 (year - if month ≤ 2 then 1 else 0)
  let era := shifted / 400
  let yearOfEra ← i64 (shifted - (← i64 (era * 400)))
  let monthTerm ← i64 (month + if month > 2 then -3 else 9)
  let scaled ← i64 ((← i64 (153 * monthTerm)) + 2)
  let dayOfYear ← i64 ((← i64 (scaled.tdiv 5 + day)) - 1)
  let leaps ← i64 ((← i64 (yearOfEra * 365)) + yearOfEra.tdiv 4)
  let dayOfEra ← i64 ((← i64 (leaps - yearOfEra.tdiv 100)) + dayOfYear)
  i64 ((← i64 ((← i64 (era * 146097)) + dayOfEra)) - 719468)

structure Civil where
  year : Int
  month : Nat
  day : Nat

/-- The second half of `civilFromDays`: the months of a year that is counted from March. -/
def civilOfMarch (year dayOfYear : Int) : Run Civil := do
  let monthTerm := (← i64 ((← i64 (5 * dayOfYear)) + 2)).tdiv 153
  let month ← i64 (monthTerm + if monthTerm < 10 then 3 else -9)
  let passed ← i64 ((← i64 (153 * monthTerm)) + 2)
  let year ← i64 (year + if month ≤ 2 then 1 else 0)
  let day ← i64 ((← i64 (dayOfYear - passed.tdiv 5)) + 1)
  pure { year, month := ← intCast 256 month, day := ← intCast 256 day }

/-- The civil date of a day count. -/
def civilFromDays (days : Int) : Run Civil := do
  let shifted ← i64 (days + 719468)
  let era := shifted / 146097
  let dayOfEra ← i64 (shifted - (← i64 (era * 146097)))
  let plain ← i64 ((← i64 ((← i64 (dayOfEra - dayOfEra.tdiv 1460)) + dayOfEra.tdiv 36524)) -
    dayOfEra.tdiv 146096)
  let yearOfEra := plain.tdiv 365
  let passed ← i64 ((← i64 ((← i64 (365 * yearOfEra)) + yearOfEra.tdiv 4)) - yearOfEra.tdiv 100)
  let dayOfYear ← i64 (dayOfEra - passed)
  let year ← i64 (yearOfEra + (← i64 (era * 400)))
  civilOfMarch year dayOfYear

/-! ## Writing -/

/-- RFC 3339 in UTC with six fractional digits; none is `error.OutOfRange`. -/
def writeRfc3339 (micros : Int) : Run (Option Bytes) :=
  if micros < firstMicros ∨ micros > lastMicros then .ok none
  else do
    let secs := micros / microsPerSec
    let days := secs / secsPerDay
    let intoDay ← intCast (2 ^ 32) (secs - days * secsPerDay)
    let civil ← civilFromDays days
    let year ← intCast (2 ^ 16) civil.year
    let fraction ← intCast (2 ^ 32) (micros % microsPerSec)
    pure (some (padded 4 year ++ [45] ++ padded 2 civil.month ++ [45] ++ padded 2 civil.day ++ [84] ++
      padded 2 (intoDay / 3600) ++ [58] ++ padded 2 (intoDay / 60 % 60) ++ [58] ++
      padded 2 (intoDay % 60) ++ [46] ++ padded 6 fraction ++ [90]))

/-- `2026-09-17`; none is `error.OutOfRange`. -/
def Date.writeIso (days : Int) : Run (Option Bytes) := do
  let civil ← civilFromDays days
  if civil.year < 1 ∨ civil.year > 9999 then pure none
  else do
    let year ← intCast (2 ^ 16) civil.year
    pure (some (padded 4 year ++ [45] ++ padded 2 civil.month ++ [45] ++ padded 2 civil.day))

/-! ## Reading -/

/-- `orelse return null`. -/
def orNull {α β : Type} (r : Run (Option α)) (f : α → Run (Option β)) : Run (Option β) :=
  match r with
  | .error e => .error e
  | .ok none => .ok none
  | .ok (some x) => f x

/-- The loop of `fixed`, in an integer below `limit`. -/
def fixedFrom (limit : Nat) (out : Nat) : Bytes → Run (Option Nat)
  | [] => .ok (some out)
  | ch :: rest =>
    if !isDigit ch then .ok none
    else if out * 10 ≥ limit ∨ out * 10 + (ch.toNat - 48) ≥ limit then .error .overflow
    else fixedFrom limit (out * 10 + (ch.toNat - 48)) rest

/-- A fixed-width run of digits. -/
def fixed (limit : Nat) (digits : Bytes) : Run (Option Nat) := fixedFrom limit 0 digits

/-- The loop over the digits of a fraction, with what is left behind them. -/
def fractionFrom (fraction scale : Int) : Bytes → Run (Int × Bytes)
  | [] => .ok (fraction, [])
  | ch :: rest =>
    if isDigit ch then
      if scale > 0 then do
        let fraction ← i64 (fraction + (← i64 ((ch.toNat - 48 : Nat) * scale)))
        fractionFrom fraction (scale.tdiv 10) rest
      else fractionFrom fraction scale rest
    else .ok (fraction, ch :: rest)

/-- Fractional seconds, truncated at microseconds. -/
def readFraction (rest : Bytes) : Run (Option (Int × Bytes)) :=
  match rest with
  | 46 :: behind => do
    let (fraction, after) ← fractionFrom 0 100000 behind
    -- A dot with no digits after it.
    if after.length = behind.length then pure none else pure (some (fraction, after))
  | _ => .ok (some (0, rest))

def readOffset (rest : Bytes) : Run (Option Int) :=
  if rest.length = 1 ∧ (rest.getD 0 0 = 90 ∨ rest.getD 0 0 = 122) then .ok (some 0)
  else if rest.length = 6 ∧ (rest.getD 0 0 = 43 ∨ rest.getD 0 0 = 45) ∧ rest.getD 3 0 = 58 then
    orNull (fixed 256 (between rest 1 3)) fun hours =>
    orNull (fixed 256 (between rest 4 6)) fun minutes =>
    if hours > 23 ∨ minutes > 59 then .ok none
    else do
      let total ← i64 ((← i64 (hours * 3600)) + (← i64 (minutes * 60)))
      if rest.getD 0 0 = 45 then do return some (← i64 (-total)) else pure (some total)
  else .ok none

/-- The moment of a civil time and an offset. -/
def momentOf (year : Int) (month day hour minute second : Nat) (fraction offset : Int) :
    Run (Option Int) := do
  let days ← i64 ((← daysFromCivil year month day) * secsPerDay)
  let hours ← i64 (days + (← i64 (hour * 3600)))
  let minutes ← i64 (hours + (← i64 (minute * 60)))
  let secs ← i64 ((← i64 (minutes + second)) - offset)
  let micros ← i64 ((← i64 (secs * microsPerSec)) + fraction)
  -- An offset can carry the first or last day past the ends.
  if micros < firstMicros ∨ micros > lastMicros then pure none else pure (some micros)

/-- The second half of `niloParse`: the ranges of the fields, and what is behind the seconds. -/
def readBehind (year month day hour minute second : Nat) (rest : Bytes) : Run (Option Int) :=
  if year < 1 then .ok none
  else if month < 1 ∨ month > 12 then .ok none
  else if day < 1 ∨ day > daysInMonth year month then .ok none
  else if hour > 23 ∨ minute > 59 ∨ second > 59 then .ok none
  else
    orNull (readFraction rest) fun (fraction, rest) =>
    orNull (readOffset rest) fun offset =>
    momentOf year month day hour minute second fraction offset

def niloParse (text : Bytes) : Run (Option Int) :=
  if text.length < 20 then .ok none
  else if text.getD 4 0 ≠ 45 ∨ text.getD 7 0 ≠ 45 then .ok none
  else if text.getD 10 0 ≠ 84 ∧ text.getD 10 0 ≠ 116 then .ok none
  else if text.getD 13 0 ≠ 58 ∨ text.getD 16 0 ≠ 58 then .ok none
  else
    orNull (fixed (2 ^ 63) (between text 0 4)) fun year =>
    orNull (fixed 256 (between text 5 7)) fun month =>
    orNull (fixed 256 (between text 8 10)) fun day =>
    orNull (fixed 256 (between text 11 13)) fun hour =>
    orNull (fixed 256 (between text 14 16)) fun minute =>
    orNull (fixed 256 (between text 17 19)) fun second =>
    readBehind year month day hour minute second (text.drop 19)

def Date.niloParse (text : Bytes) : Run (Option Int) :=
  if text.length ≠ 10 then .ok none
  else if text.getD 4 0 ≠ 45 ∨ text.getD 7 0 ≠ 45 then .ok none
  else
    orNull (fixed (2 ^ 63) (between text 0 4)) fun year =>
    orNull (fixed 256 (between text 5 7)) fun month =>
    orNull (fixed 256 (between text 8 10)) fun day =>
    if year < 1 then .ok none
    else if month < 1 ∨ month > 12 then .ok none
    else if day < 1 ∨ day > daysInMonth year month then .ok none
    else do
      let days ← daysFromCivil year month day
      if -2 ^ 31 ≤ days ∧ days < 2 ^ 31 then pure (some days) else .error .range

/-! ## The calendar of the source -/

open Lib.Calendar (yearStart monthStart monthLength yearLength IsDate)

theorem i64_ok {n : Int} (h : -2 ^ 63 ≤ n) (h' : n < 2 ^ 63) : i64 n = .ok n := if_pos ⟨h, h'⟩

theorem intCast_ok {limit : Nat} {n : Int} (h : 0 ≤ n) (h' : n < limit) :
    intCast limit n = .ok n.toNat := if_pos ⟨h, h'⟩

theorem isLeap_eq {year : Int} (h : 0 ≤ year) : isLeap year = Lib.Calendar.isLeap year := by
  rw [Bool.eq_iff_iff, Lib.Calendar.isLeap_iff, isLeap, Int.tmod_eq_emod_of_nonneg h,
    Int.tmod_eq_emod_of_nonneg h, Int.tmod_eq_emod_of_nonneg h]
  simp

theorem daysInMonth_eq {year : Int} {month : Nat} (hyear : 0 ≤ year)
    (hmonth : 1 ≤ month ∧ month ≤ 12) :
    (daysInMonth year month : Int) = monthLength (Lib.Calendar.isLeap year) month := by
  rw [daysInMonth.eq_def, isLeap_eq hyear, monthLength]
  obtain ⟨h1, h12⟩ := hmonth
  interval_cases month <;> first | rfl | (split_ifs <;> simp_all)

/-- The day count of a date of the calendar. -/
def dayOf (year : Int) (month day : Nat) : Int :=
  yearStart year + monthStart (Lib.Calendar.isLeap year) month + (day - 1)

theorem dayOf_bounds {year : Int} {month day : Nat} (hyear : 1 ≤ year ∧ year ≤ 9999)
    (hmonth : 1 ≤ month ∧ month ≤ 12) (hday : 1 ≤ day)
    (hday' : (day : Int) ≤ monthLength (Lib.Calendar.isLeap year) month) :
    -719162 ≤ dayOf year month day ∧ dayOf year month day ≤ 2932896 := by
  have hdate := IsDate.of_valid (y := year) (m := month) (d := day) (by omega) (by omega) (by omega)
    hday'
  obtain ⟨hlow, hhigh⟩ := hdate.in_year
  rw [← dayOf] at hlow hhigh
  rw [← Lib.Calendar.yearStart_succ] at hhigh
  rw [yearStart] at hlow hhigh
  omega

theorem daysFromCivil_eq {year : Int} {month day : Nat} (hyear : 1 ≤ year ∧ year ≤ 9999)
    (hmonth : 1 ≤ month ∧ month ≤ 12) (hday : 1 ≤ day ∧ day ≤ 31) :
    daysFromCivil year month day = .ok (dayOf year month day) := by
  have hmp : ((month : Int) + if month > 2 then -3 else 9) =
      if (month : Int) ≤ 2 then (month : Int) + 9 else month - 3 := by
    split_ifs <;> omega
  have hyy : (year - if month ≤ 2 then 1 else 0) = if (month : Int) ≤ 2 then year - 1 else year := by
    split_ifs <;> omega
  have hfirst := Lib.Calendar.firstOf_eq year (m := month) (by omega) (by omega) rfl rfl
  rw [daysFromCivil, hmp, hyy, dayOf, ← hfirst]
  have hyy' : 0 ≤ (if (month : Int) ≤ 2 then year - 1 else year) ∧
      (if (month : Int) ≤ 2 then year - 1 else year) ≤ 9999 := by
    split_ifs <;> omega
  have hmp' : 0 ≤ (if (month : Int) ≤ 2 then (month : Int) + 9 else month - 3) ∧
      (if (month : Int) ≤ 2 then (month : Int) + 9 else month - 3) ≤ 11 := by
    split_ifs <;> omega
  generalize (if (month : Int) ≤ 2 then year - 1 else year) = yy at *
  generalize (if (month : Int) ≤ 2 then (month : Int) + 9 else month - 3) = mp at *
  have hera : 0 ≤ yy / 400 ∧ yy / 400 ≤ 24 := by omega
  have hyoe : 0 ≤ yy - yy / 400 * 400 ∧ yy - yy / 400 * 400 ≤ 399 := by omega
  simp (disch := omega) only [i64_ok, Int.tdiv_eq_ediv_of_nonneg, bind, Except.bind]
  congr 1
  omega

theorem tdiv_eq {n : Int} (h : 0 ≤ n) (d : Int) : n.tdiv d = n / d :=
  Int.tdiv_eq_ediv_of_nonneg h

theorem monthLength_le (leap : Bool) (m : Int) : monthLength leap m ≤ 31 := by
  rw [monthLength]
  split_ifs <;> omega

theorem bind_of_ok {α β : Type} {r : Run α} {x : α} {f : α → Run β} (h : r = .ok x) :
    (r >>= f) = f x := by
  rw [h]
  rfl

theorem bind_i64 {α : Type} {n : Int} {f : Int → Run α} (h : -2 ^ 63 ≤ n) (h' : n < 2 ^ 63) :
    (i64 n >>= f) = f n := bind_of_ok (i64_ok h h')

theorem civilOfMarch_ok {days y k mp m d : Int} (hy : -2 ^ 62 ≤ y ∧ y < 2 ^ 62) (hk : 0 ≤ k ∧ k ≤ 365)
    (hmp : mp = (5 * k + 2) / 153) (hm : m = if mp < 10 then mp + 3 else mp - 9)
    (hd : d = k - (153 * mp + 2) / 5 + 1) (hdate : IsDate days (y + if m ≤ 2 then 1 else 0) m d) :
    ∃ civil, civilOfMarch y k = .ok civil ∧ IsDate days civil.year civil.month civil.day := by
  have hone := hdate.one_le_month
  have htwelve := hdate.month_le
  have hday := hdate.one_le
  have hday' := Int.le_trans hdate.le (monthLength_le _ m)
  have hmonth : (mp + if mp < 10 then 3 else -9) = m := by
    rw [hm]
    split_ifs <;> omega
  have hyear : -2 ^ 63 ≤ (y + if m ≤ 2 then 1 else 0) ∧ (y + if m ≤ 2 then 1 else 0) < 2 ^ 63 := by
    split_ifs <;> omega
  refine ⟨⟨y + if m ≤ 2 then 1 else 0, m.toNat, d.toNat⟩, ?_, ?_⟩
  · rw [civilOfMarch, bind_i64 (by omega) (by omega), bind_i64 (by omega) (by omega), tdiv_eq (by omega),
      ← hmp]
    dsimp only
    rw [hmonth, bind_i64 (by omega) (by omega), bind_i64 (by omega) (by omega), bind_i64 (by omega) (by omega),
      bind_i64 hyear.1 hyear.2, tdiv_eq (by omega), bind_i64 (by omega) (by omega),
      bind_i64 (by omega) (by omega), ← hd]
    exact (bind_of_ok (intCast_ok (by omega) (by omega))).trans
      (bind_of_ok (intCast_ok (by omega) (by omega)))
  · dsimp only
    rw [Int.toNat_of_nonneg (by omega), Int.toNat_of_nonneg (by omega)]
    exact hdate

theorem civilFromDays_ok (days : Int) (h : -2 ^ 40 ≤ days) (h' : days < 2 ^ 40) :
    ∃ civil, civilFromDays days = .ok civil ∧ IsDate days civil.year civil.month civil.day := by
  obtain ⟨hk, hdays, hleap⟩ := Lib.Calendar.march_spec days
  have hdate := Lib.Calendar.isDate_of_march hk hdays hleap rfl rfl
  have hera : -2 ^ 40 ≤ (days + 719468) / 146097 ∧ (days + 719468) / 146097 ≤ 2 ^ 40 := by omega
  have hrange : 0 ≤ days + 719468 - (days + 719468) / 146097 * 146097 ∧
      days + 719468 - (days + 719468) / 146097 * 146097 < 146097 := by omega
  have hmarch : civilFromDays days =
      civilOfMarch (Lib.Calendar.marchYear days) (Lib.Calendar.marchDay days) := by
    rw [civilFromDays, bind_i64 (by omega) (by omega)]
    simp only [Lib.Calendar.marchYear, Lib.Calendar.marchDay]
    generalize (days + 719468) / 146097 = era at *
    rw [bind_i64 (by omega) (by omega), bind_i64 (by omega) (by omega)]
    generalize days + 719468 - era * 146097 = doe at *
    rw [tdiv_eq hrange.1, tdiv_eq hrange.1, tdiv_eq hrange.1, bind_i64 (by omega) (by omega),
      bind_i64 (by omega) (by omega), bind_i64 (by omega) (by omega), tdiv_eq (by omega)]
    have hyoe : 0 ≤ (doe - doe / 1460 + doe / 36524 - doe / 146096) / 365 ∧
        (doe - doe / 1460 + doe / 36524 - doe / 146096) / 365 ≤ 399 := by omega
    generalize (doe - doe / 1460 + doe / 36524 - doe / 146096) / 365 = yoe at *
    rw [tdiv_eq hyoe.1, tdiv_eq hyoe.1, bind_i64 (by omega) (by omega), bind_i64 (by omega) (by omega),
      bind_i64 (by omega) (by omega), bind_i64 (by omega) (by omega), bind_i64 (by omega) (by omega),
      bind_i64 (by omega) (by omega)]
  have hyear : -2 ^ 62 ≤ Lib.Calendar.marchYear days ∧ Lib.Calendar.marchYear days < 2 ^ 62 := by
    simp only [Lib.Calendar.marchYear]
    omega
  rw [hmarch]
  exact civilOfMarch_ok hyear hk rfl rfl rfl hdate

/-! ## What a text says -/

/-- `Z`, or an offset, west of UTC with a minus. -/
inductive Zone where
  | utc (lower : Bool)
  | offset (west : Bool) (hours minutes : Nat)

def Zone.seconds : Zone → Int
  | .utc _ => 0
  | .offset west hours minutes => (if west then -1 else 1) * (hours * 3600 + minutes * 60)

def Zone.text : Zone → Bytes
  | .utc lower => [if lower then 122 else 90]
  | .offset west hours minutes =>
    (if west then 45 else 43) :: (Text.digits 2 hours ++ [58] ++ Text.digits 2 minutes)

def Zone.Valid : Zone → Prop
  | .utc _ => True
  | .offset _ hours minutes => hours ≤ 23 ∧ minutes ≤ 59

structure Day where
  year : Nat
  month : Nat
  day : Nat

def Day.text (self : Day) : Bytes :=
  Text.digits 4 self.year ++ [45] ++ Text.digits 2 self.month ++ [45] ++ Text.digits 2 self.day

/-- A date of the calendar in the years of four digits. -/
structure Day.Valid (d : Day) : Prop where
  year : 1 ≤ d.year ∧ d.year ≤ 9999
  month : 1 ≤ d.month ∧ d.month ≤ 12
  day : 1 ≤ d.day
  within : (d.day : Int) ≤ monthLength (Lib.Calendar.isLeap d.year) d.month

def Day.days (self : Day) : Int := dayOf self.year self.month self.day

/-- A civil time with the digits of its fraction, if it has one, and its zone. -/
structure Stated where
  day : Day
  lower : Bool
  hour : Nat
  minute : Nat
  second : Nat
  fraction : Bytes
  zone : Zone

def Stated.clock (self : Stated) : Bytes :=
  Text.digits 2 self.hour ++ [58] ++ Text.digits 2 self.minute ++ [58] ++ Text.digits 2 self.second

/-- A fraction as it stands in a text. -/
def fractionText (fraction : Bytes) : Bytes := if fraction = [] then [] else 46 :: fraction

def Stated.text (self : Stated) : Bytes :=
  self.day.text ++ ((if self.lower then 116 else 84) :: self.clock ++
    (fractionText self.fraction ++ self.zone.text))

structure Stated.Valid (s : Stated) : Prop where
  day : s.day.Valid
  hour : s.hour ≤ 23
  minute : s.minute ≤ 59
  second : s.second ≤ 59
  fraction : s.fraction.all isDigit = true
  zone : s.zone.Valid

/-- A fraction in microseconds, what is behind them cut off. -/
def microsOf (fraction : Bytes) : Nat := Text.decimal fraction * 10 ^ 6 / 10 ^ fraction.length

/-- The civil time less the offset. -/
def Stated.micros (self : Stated) : Int :=
  (self.day.days * secsPerDay + self.hour * 3600 + self.minute * 60 + self.second -
    self.zone.seconds) * microsPerSec + microsOf self.fraction

end Nilo.Time
