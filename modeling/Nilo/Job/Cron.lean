import Mathlib.Algebra.Group.Int.Defs
import Nilo.Job.Tz
import Nilo.Lib.Seek
import Nilo.Std.Epoch

/-!
# A schedule (`job/cron.zig`)

Five sets of numbers, and a walk forward from a moment to the first minute they all admit. The walk
steps over whole months, days and hours at a time. `Admits` says what a minute has to be for the
schedule, by the date that the calendar gives its day; no turn of the walk steps over such a minute
(`skips_turn`), and the calendar comes round within the walk's bound, so the answer is the first of
them, or that there is none (`next_least`).
-/

namespace Nilo.Job

open Tz (Zone Segment)
open Epoch (calculateYearDay getDaysInMonth getDaysInMonth_eq isDate_calculate secsPerDay)
open Lib (Skips FirstHit)
open Lib.Calendar (IsDate)

/-- What a fixed-time schedule in a zone does with a wall time that the clock skips. -/
inductive Skipped where
  | runLate
  | skip
deriving DecidableEq, Repr

/-- What a fixed-time schedule in a zone does with a wall time the clock reads twice. -/
inductive Repeated where
  | first
  | second
  | both
deriving DecidableEq, Repr

/-- The five fields as sets. -/
structure Cron where
  minute : BitVec 60
  hour : BitVec 24
  /-- Bit 1 is the first of the month. -/
  day : BitVec 32
  /-- Bit 1 is January. -/
  month : BitVec 13
  /-- Bit 0 is Sunday. -/
  weekday : BitVec 7
  /-- Whether the day field started with `*`, which decides the either-or rule. -/
  anyDay : Bool
  anyWeekday : Bool
  /-- Whether the hour field is exactly `*`. -/
  everyHour : Bool
  /-- The zone the fields are read in, none for UTC. -/
  zone : Option Zone

structure Policy where
  skipped : Skipped
  repeated : Repeated

/-- The largest moment there is. -/
def never : Int := 2 ^ 63 - 1

def usPerSec : Nat := 1000000

def bitSet {w : Nat} (set : BitVec w) (n : Nat) : Bool :=
  if n ≥ w then false else (set >>> n) &&& 1#w == 1#w

namespace Cron

def dayMatches (self : Cron) (dom dow : Nat) : Bool :=
  let domOk := bitSet self.day dom
  let dowOk := bitSet self.weekday dow
  -- Either field starting with `*` makes it an AND.
  if self.anyDay || self.anyWeekday then domOk && dowOk else domOk || dowOk

/-- One turn of `matchFrom`: where to go on, or none where `t` itself is admitted. -/
def turn (self : Cron) (t : Nat) : Option Nat :=
  let epochDay := t / secsPerDay
  let yearDay := calculateYearDay epochDay
  let monthDay := yearDay.calculateMonthDay
  if ¬ bitSet self.month monthDay.month then
    -- To the first minute of the next month.
    let daysLeft := getDaysInMonth yearDay.year monthDay.month - monthDay.dayIndex
    some ((epochDay + daysLeft) * secsPerDay)
  else
    let dom := monthDay.dayIndex + 1
    let dow := (epochDay + 4) % 7
    if ¬ self.dayMatches dom dow then some ((epochDay + 1) * secsPerDay)
    else
      let hour := t % secsPerDay / 3600
      if ¬ bitSet self.hour hour then some (epochDay * secsPerDay + (hour + 1) * 3600)
      else
        let minute := t % secsPerDay / 60 % 60
        if ¬ bitSet self.minute minute then some (t + 60) else none

/-- How far `matchFrom` looks. -/
def reach : Nat := 400 * 366 * secsPerDay

/-- The first whole minute at or after `t` (seconds, a multiple of 60) that the fields admit, read as
UTC. -/
def matchFrom (self : Cron) (t : Nat) : Option Nat := Lib.seek self.turn (t + reach) reach t

/-- The first wall-clock minute at or after `wall` that the fields admit. -/
def wallFrom (self : Cron) (wall : Int) : Option Int :=
  let up := wall + (-wall) % 60
  (self.matchFrom (max up 0).toNat).map fun m => (m : Int)

/-- The wall clock of a stretch, from where it is read to where the next one takes over. -/
def lowOf (self : Cron) (z : Zone) (policy : Policy) (cursor : Int) (seg : Segment) : Int :=
  let lo := cursor + seg.off
  if !self.everyHour && policy.repeated == .first then
    match seg.start with
    | ⊥ => lo
    | (start : Int) =>
      let before := z.segmentAt (start - 1)
      if before.off > seg.off then max lo (start + before.off) else lo
  else lo

def highOf (self : Cron) (z : Zone) (policy : Policy) (seg : Segment) : WithTop Int :=
  match seg.finish with
  | ⊤ => ⊤
  | (finish : Int) =>
    let hi := finish + seg.off
    if !self.everyHour && policy.repeated == .second then
      let after := z.segmentAt finish
      if after.off < seg.off ∧ finish + after.off < hi then ((finish + after.off : Int) : WithTop Int)
      else hi
    else hi

/-- The first tick of a stretch by its own offset. -/
def tickOf (self : Cron) (z : Zone) (policy : Policy) (cursor : Int) (seg : Segment) : Option Int :=
  match self.wallFrom (self.lowOf z policy cursor seg), self.highOf z policy seg with
  | some w, ⊤ => some (w - seg.off)
  | some w, (hi : Int) => if w < hi then some (w - seg.off) else none
  | none, _ => none

/-- The first tick of the times the clock skipped at its start, read with the offset from before. -/
def lateOf (self : Cron) (z : Zone) (policy : Policy) (cursor : Int) (seg : Segment) : Option Int :=
  if !self.everyHour && policy.skipped == .runLate then
    match seg.start with
    | ⊥ => none
    | (start : Int) =>
      let before := z.segmentAt (start - 1)
      if before.off < seg.off then
        let gapLo := max start cursor + before.off
        let gapHi := start + seg.off
        if gapLo < gapHi then
          match self.wallFrom gapLo with
          | some w => if w < gapHi then some (w - before.off) else none
          | none => none
        else none
      else none
  else none

def earlier : Option Int → Option Int → Option Int
  | some a, some b => some (min a b)
  | some a, none => some a
  | none, b => b

/-- The loop of `nextZoned`: the stretches of one offset in order. -/
def zonedFrom (self : Cron) (z : Zone) (policy : Policy) : Nat → Int → Int
  | 0, _ => never
  | n + 1, cursor =>
    let seg := z.segmentAt cursor
    match earlier (self.tickOf z policy cursor seg) (self.lateOf z policy cursor seg) with
    | some u => u * usPerSec
    | none =>
      match seg.finish with
      | ⊤ => never
      | (finish : Int) => self.zonedFrom z policy n finish

def nextZoned (self : Cron) (z : Zone) (afterSecs : Int) (policy : Policy) : Int :=
  self.zonedFrom z policy 4096 (afterSecs + 1)

/-- A minute in microseconds. -/
def inMicros : Option Nat → Int
  | none => never
  | some t => (t * usPerSec : Nat)

/-- The first minute strictly after `afterMicros` that this admits, in microseconds since the epoch;
`never` when there is none. -/
def nextWith (self : Cron) (afterMicros : Int) (policy : Policy) : Int :=
  let afterSecs := max afterMicros 0 / usPerSec
  match self.zone with
  | some z => self.nextZoned z afterSecs policy
  | none => inMicros (self.matchFrom ((afterSecs / 60 + 1) * 60).toNat)

end Cron

/-! ## What a schedule admits -/

namespace Cron

/-- Cron's rule for days: where both fields are restricted, either is enough. -/
def AdmitsDay (c : Cron) (dom dow : Nat) : Prop :=
  if c.anyDay ∨ c.anyWeekday then c.day.getLsbD dom ∧ c.weekday.getLsbD dow
  else c.day.getLsbD dom ∨ c.weekday.getLsbD dow

/-- The five fields admit the minute that the instant is in. -/
structure Admits (c : Cron) (t : Nat) : Prop where
  minute : c.minute.getLsbD (t / 60 % 60)
  hour : c.hour.getLsbD (t / 3600 % 24)
  date : ∃ y m d : Int, IsDate (t / 86400 : Nat) y m d ∧ c.month.getLsbD m.toNat ∧
    c.AdmitsDay d.toNat (Lib.Calendar.weekday (t / 86400 : Nat)).toNat

variable {c : Cron} {t u : Nat}

theorem bitSet_eq {w : Nat} (set : BitVec w) (n : Nat) : bitSet set n = set.getLsbD n := by
  rw [bitSet]
  split_ifs with hout
  · rw [BitVec.getLsbD_of_ge set n hout]
  · have hpos : 0 < w := Nat.lt_of_le_of_lt (Nat.zero_le n) (Nat.lt_of_not_ge hout)
    rw [Bool.eq_iff_iff, beq_iff_eq]
    constructor
    · intro heq
      have hbit := congrArg (fun b => b.getLsbD 0) heq
      simpa [hpos] using hbit
    · intro hset
      refine BitVec.eq_of_getLsbD_eq fun i hi => ?_
      rcases Nat.eq_zero_or_pos i with rfl | hi
      · simp [hset, hpos]
      · simp [Nat.pos_iff_ne_zero.mp hi]

theorem dayMatches_iff (c : Cron) (dom dow : Nat) :
    c.dayMatches dom dow = true ↔ c.AdmitsDay dom dow := by
  simp only [dayMatches, AdmitsDay, bitSet_eq]
  cases c.anyDay <;> cases c.anyWeekday <;> simp

/-- A day has one date, so what is admitted is admitted by that one. -/
theorem Admits.on_date {y m d : Int} (h : c.Admits t) (hdate : IsDate (t / 86400 : Nat) y m d) :
    c.month.getLsbD m.toNat ∧
      c.AdmitsDay d.toNat (Lib.Calendar.weekday (t / 86400 : Nat)).toNat := by
  obtain ⟨y', m', d', hdate', hmonth, hday⟩ := h.date
  obtain ⟨rfl, rfl, rfl⟩ := hdate.unique hdate'
  exact ⟨hmonth, hday⟩

theorem weekday_eq (day : Nat) : (Lib.Calendar.weekday day).toNat = (day + 4) % 7 := by
  rw [Lib.Calendar.weekday]
  omega

/-! ## What a turn steps over -/

/-- Nothing is admitted in the rest of a month that is not in the set. -/
theorem not_admits_month {year month idx : Nat}
    (hdate : IsDate (t / secsPerDay : Nat) year month (idx + 1))
    (hmonth : c.month.getLsbD month = false) (hle : t ≤ u)
    (hlt : u < (t / secsPerDay + (getDaysInMonth year month - idx)) * secsPerDay) :
    ¬ c.Admits u := by
  intro hadmits
  obtain ⟨k, hk⟩ := Nat.exists_eq_add_of_le (Nat.div_le_div_right (c := secsPerDay) hle)
  have hday : u / secsPerDay < t / secsPerDay + (getDaysInMonth year month - idx) :=
    Nat.div_lt_of_lt_mul (by rwa [Nat.mul_comm])
  have hlen := getDaysInMonth_eq year month
  have hlater := hdate.later (k := k) (by omega) (by omega)
  rw [← Int.natCast_add, ← hk] at hlater
  have hbit := (hadmits.on_date hlater).1
  rw [Int.toNat_natCast, hmonth] at hbit
  cases hbit

/-- Nothing is admitted in a day that is not. -/
theorem not_admits_day {year month idx : Nat}
    (hdate : IsDate (t / secsPerDay : Nat) year month (idx + 1))
    (hday : ¬ c.AdmitsDay (idx + 1) ((t / secsPerDay + 4) % 7)) (hle : t ≤ u)
    (hlt : u < (t / secsPerDay + 1) * secsPerDay) : ¬ c.Admits u := by
  intro hadmits
  have hsame : u / secsPerDay = t / secsPerDay := by
    have hfrom := Nat.div_le_div_right (c := secsPerDay) hle
    have hto : u / secsPerDay < t / secsPerDay + 1 := Nat.div_lt_of_lt_mul (by rwa [Nat.mul_comm])
    omega
  rw [← hsame] at hdate
  have hon := (hadmits.on_date hdate).2
  rw [show (u / 86400) = u / secsPerDay from rfl, weekday_eq, hsame] at hon
  exact hday hon

/-- Nothing is admitted in an hour that is not in the set. -/
theorem not_admits_hour (hhour : c.hour.getLsbD (t % secsPerDay / 3600) = false) (hle : t ≤ u)
    (hlt : u < t / secsPerDay * secsPerDay + (t % secsPerDay / 3600 + 1) * 3600) :
    ¬ c.Admits u := by
  intro hadmits
  have hsame : u / 3600 % 24 = t % secsPerDay / 3600 := by
    rw [secsPerDay] at *
    omega
  have hbit := hadmits.hour
  rw [hsame, hhour] at hbit
  cases hbit

/-- Nothing is admitted in a minute that is not in the set. -/
theorem not_admits_minute (hwhole : 60 ∣ t)
    (hminute : c.minute.getLsbD (t % secsPerDay / 60 % 60) = false) (hle : t ≤ u)
    (hlt : u < t + 60) : ¬ c.Admits u := by
  intro hadmits
  have hsame : u / 60 % 60 = t % secsPerDay / 60 % 60 := by
    rw [secsPerDay]
    omega
  have hbit := hadmits.minute
  rw [hsame, hminute] at hbit
  cases hbit

/-- Where no field refuses the minute it is admitted. -/
theorem admits_of {year month idx : Nat}
    (hdate : IsDate (t / secsPerDay : Nat) year month (idx + 1))
    (hmonth : c.month.getLsbD month = true)
    (hday : c.dayMatches (idx + 1) ((t / secsPerDay + 4) % 7) = true)
    (hhour : c.hour.getLsbD (t % secsPerDay / 3600) = true)
    (hminute : c.minute.getLsbD (t % secsPerDay / 60 % 60) = true) : c.Admits t := by
  have hsame : t / 3600 % 24 = t % secsPerDay / 3600 ∧
      t / 60 % 60 = t % secsPerDay / 60 % 60 := by
    rw [secsPerDay]
    omega
  refine ⟨hsame.2 ▸ hminute, hsame.1 ▸ hhour, year, month, idx + 1, hdate, hmonth, ?_⟩
  rw [weekday_eq]
  exact (dayMatches_iff c _ _).mp hday

/-- A turn stops at a minute that is admitted, and steps over none. -/
theorem skips_turn (c : Cron) : Skips (60 ∣ ·) c.Admits c.turn := by
  have hstep : ∀ {t}, 60 ∣ t → match c.turn t with
      | none => c.Admits t
      | some t' => 60 ∣ t' ∧ t < t' ∧ ∀ u, t ≤ u → u < t' → ¬ c.Admits u := by
    intro t hwhole
    have hdate := isDate_calculate (t / secsPerDay)
    have hlen := getDaysInMonth_eq (calculateYearDay (t / secsPerDay)).year
      (calculateYearDay (t / secsPerDay)).calculateMonthDay.month
    simp only [turn, bitSet_eq]
    generalize (calculateYearDay (t / secsPerDay)).calculateMonthDay = md at *
    generalize (calculateYearDay (t / secsPerDay)).year = year at *
    have hidx := hdate.le
    by_cases hmonth : c.month.getLsbD md.month = true
    · rw [if_neg (not_not_intro hmonth)]
      by_cases hday : c.dayMatches (md.dayIndex + 1) ((t / secsPerDay + 4) % 7) = true
      · rw [if_neg (not_not_intro hday)]
        by_cases hhour : c.hour.getLsbD (t % secsPerDay / 3600) = true
        · rw [if_neg (not_not_intro hhour)]
          by_cases hminute : c.minute.getLsbD (t % secsPerDay / 60 % 60) = true
          · rw [if_neg (not_not_intro hminute)]
            exact admits_of hdate hmonth hday hhour hminute
          · rw [if_pos hminute]
            rw [Bool.not_eq_true] at hminute
            exact ⟨by omega, by omega, fun u hle hlt => not_admits_minute hwhole hminute hle hlt⟩
        · rw [if_pos hhour]
          rw [Bool.not_eq_true] at hhour
          refine ⟨?_, ?_, fun u hle hlt => not_admits_hour hhour hle hlt⟩
          · rw [secsPerDay]
            omega
          · rw [secsPerDay]
            omega
      · rw [if_pos hday]
        rw [dayMatches_iff] at hday
        refine ⟨?_, ?_, fun u hle hlt => not_admits_day hdate hday hle hlt⟩
        · rw [secsPerDay]
          omega
        · rw [secsPerDay]
          omega
    · rw [if_pos hmonth]
      rw [Bool.not_eq_true] at hmonth
      refine ⟨?_, ?_, fun u hle hlt => not_admits_month hdate hmonth hle hlt⟩
      · rw [secsPerDay]
        omega
      · have hleft : 1 ≤ getDaysInMonth year md.month - md.dayIndex := by omega
        rw [secsPerDay] at *
        omega
  refine ⟨fun hgood hturn => ?_, fun hgood hturn => ?_⟩
  · have h := hstep hgood
    rwa [hturn] at h
  · have h := hstep hgood
    rwa [hturn] at h

/-! ## The calendar comes round -/

/-- The seconds of 400 years. -/
def cycleSecs : Nat := 146097 * secsPerDay

theorem Admits.add_cycle (h : c.Admits t) : c.Admits (t + cycleSecs) := by
  have hsame : (t + cycleSecs) / 60 % 60 = t / 60 % 60 ∧
      (t + cycleSecs) / 3600 % 24 = t / 3600 % 24 := by
    rw [cycleSecs, secsPerDay]
    omega
  have hday : ((t + cycleSecs) / 86400 : Nat) = ((t / 86400 : Nat) : Int) + Lib.Calendar.cycle := by
    rw [cycleSecs, secsPerDay, Lib.Calendar.cycle]
    omega
  obtain ⟨y, m, d, hdate, hmonth, hadmits⟩ := h.date
  refine ⟨hsame.1.symm ▸ h.minute, hsame.2.symm ▸ h.hour, y + 400, m, d, ?_, hmonth, ?_⟩
  · rw [hday]
    exact hdate.add_cycle
  · rw [hday, Lib.Calendar.weekday_add_cycle]
    exact hadmits

theorem Admits.of_add_cycle (h : c.Admits (t + cycleSecs)) : c.Admits t := by
  have hsame : (t + cycleSecs) / 60 % 60 = t / 60 % 60 ∧
      (t + cycleSecs) / 3600 % 24 = t / 3600 % 24 := by
    rw [cycleSecs, secsPerDay]
    omega
  have hday : ((t + cycleSecs) / 86400 : Nat) = ((t / 86400 : Nat) : Int) + Lib.Calendar.cycle := by
    rw [cycleSecs, secsPerDay, Lib.Calendar.cycle]
    omega
  have hdate := isDate_calculate (t / 86400)
  have hround := hdate.add_cycle
  rw [← hday] at hround
  obtain ⟨hmonth, hadmits⟩ := h.on_date hround
  rw [hday, Lib.Calendar.weekday_add_cycle] at hadmits
  exact ⟨hsame.1 ▸ h.minute, hsame.2 ▸ h.hour, _, _, _, hdate, hmonth, hadmits⟩

theorem admits_add_cycles (n : Nat) : c.Admits (t + n * cycleSecs) ↔ c.Admits t := by
  induction n with
  | zero => rw [Nat.zero_mul, Nat.add_zero]
  | succ n ih =>
    rw [Nat.succ_mul, ← Nat.add_assoc, ← ih]
    exact ⟨Admits.of_add_cycle, Admits.add_cycle⟩

theorem admits_of_mod (h : t % cycleSecs = u % cycleSecs) : c.Admits t ↔ c.Admits u := by
  rw [← Nat.mod_add_div t cycleSecs, ← Nat.mod_add_div u cycleSecs, Nat.mul_comm, admits_add_cycles,
    Nat.mul_comm, admits_add_cycles, h]

/-- Whatever is admitted at all is admitted within 400 years of any minute. -/
theorem exists_admitted (h : c.Admits u) (hwhole : 60 ∣ u) (t : Nat) (ht : 60 ∣ t) :
    ∃ v, t ≤ v ∧ v < t + cycleSecs ∧ 60 ∣ v ∧ c.Admits v := by
  refine ⟨t + (u % cycleSecs + cycleSecs - t % cycleSecs) % cycleSecs, Nat.le_add_right t _, ?_, ?_,
    (admits_of_mod ?_).mp h⟩
  · exact Nat.add_lt_add_left (Nat.mod_lt _ (by decide)) t
  · rw [cycleSecs, secsPerDay]
    omega
  · rw [cycleSecs, secsPerDay]
    omega

/-! ## The answer -/

theorem matchFrom_first (c : Cron) {t : Nat} (hwhole : 60 ∣ t) :
    FirstHit (60 ∣ ·) c.Admits t (t + reach) (c.matchFrom t) :=
  Lib.seek_least (skips_turn c) hwhole (Nat.le_refl _)

/-- Where the walk finds nothing there is nothing to find. -/
theorem not_admits_of_missed (hwhole : 60 ∣ t) (hmiss : c.matchFrom t = none) (hu : 60 ∣ u) :
    ¬ c.Admits u := by
  intro h
  obtain ⟨v, hle, hlt, -, hadmits⟩ := exists_admitted h hu t hwhole
  have hfirst := matchFrom_first c hwhole
  rw [hmiss] at hfirst
  cases hfirst with
  | missed hnone =>
    refine hnone v hle (Nat.lt_of_lt_of_le hlt (Nat.add_le_add_left ?_ t)) hadmits
    decide

/-- A moment in microseconds is no largest one. -/
theorem micros_ne_never (t : Nat) : ((t * usPerSec : Nat) : Int) ≠ never := by
  rw [usPerSec, never]
  omega

/-- The minutes strictly after a moment are those from the next whole minute on. -/
theorem after_iff (after j : Nat) :
    after < 60 * j * usPerSec ↔ (after / usPerSec / 60 + 1) * 60 ≤ 60 * j := by
  rw [usPerSec]
  omega

theorem nextWith_utc (hutc : c.zone = none) (after : Nat) (policy : Policy) :
    c.nextWith after policy = inMicros (c.matchFrom ((after / usPerSec / 60 + 1) * 60)) := by
  have hstart : ((max (after : Int) 0 / usPerSec / 60 + 1) * 60).toNat =
      (after / usPerSec / 60 + 1) * 60 := by
    rw [usPerSec]
    omega
  rw [← hstart]
  unfold nextWith
  rw [hutc]

/-- For every schedule read as UTC and every moment: the answer is `never` exactly where no minute of
the 400 years is admitted, and otherwise it is the first admitted minute strictly after the moment. -/
theorem next_least (c : Cron) (hutc : c.zone = none) (after : Nat) (policy : Policy) :
    (c.nextWith after policy = never ↔ ∀ k, 60 * k < cycleSecs → ¬ c.Admits (60 * k)) ∧
      (c.nextWith after policy ≠ never →
        ∃ k : Nat, c.nextWith after policy = (60 * k * usPerSec : Nat) ∧ after < 60 * k * usPerSec ∧
          c.Admits (60 * k) ∧
          ∀ j, after < 60 * j * usPerSec → c.Admits (60 * j) → k ≤ j) := by
  have hwhole : 60 ∣ (after / usPerSec / 60 + 1) * 60 := Nat.dvd_mul_left 60 _
  have hfirst := matchFrom_first c hwhole
  rw [nextWith_utc hutc]
  cases hmatch : c.matchFrom ((after / usPerSec / 60 + 1) * 60) with
  | none =>
    refine ⟨⟨fun _ k _ => ?_, fun _ => rfl⟩, fun hsome => absurd rfl hsome⟩
    exact not_admits_of_missed hwhole hmatch (Nat.dvd_mul_right 60 k)
  | some u =>
    rw [hmatch] at hfirst
    cases hfirst with
    | found hgood hle hlt hadmits hleast =>
      obtain ⟨k, rfl⟩ := hgood
      refine ⟨⟨fun hnever => absurd hnever (micros_ne_never _), fun hnone => ?_⟩, fun _ => ?_⟩
      · obtain ⟨v, -, hv, ⟨j, rfl⟩, hadmits⟩ :=
          exists_admitted hadmits (Nat.dvd_mul_right 60 k) 0 (Nat.dvd_zero 60)
        rw [Nat.zero_add] at hv
        exact absurd hadmits (hnone j hv)
      · refine ⟨k, rfl, (after_iff after k).mpr hle, hadmits, fun j hafter hj => ?_⟩
        refine Nat.le_of_not_lt fun hearlier => ?_
        exact hleast (60 * j) ((after_iff after j).mp hafter) (by omega) hj

/-- `0 0 29 2 *` is next admitted on a leap day. -/
def leapDay : Cron where
  minute := 1
  hour := 1
  day := 1#32 <<< 29
  month := 1#13 <<< 2
  weekday := BitVec.allOnes 7
  anyDay := false
  anyWeekday := true
  everyHour := false
  zone := none

/-- Asked on 28 February 2028, it answers with the day after, before which there is none. -/
theorem next_least_leapDay :
    leapDay.nextWith 1835308800000000 ⟨.runLate, .first⟩ = 1835395200000000 ∧
      ∀ j, 1835308800000000 < 60 * j * usPerSec → leapDay.Admits (60 * j) → 30589920 ≤ j := by
  have hnext : leapDay.nextWith (1835308800000000 : Nat) ⟨.runLate, .first⟩ = 1835395200000000 := by
    rw [nextWith_utc rfl]
    decide
  obtain ⟨k, hk, -, -, hleast⟩ :=
    (next_least leapDay rfl 1835308800000000 ⟨.runLate, .first⟩).2 (by rw [hnext]; decide)
  have heq : k = 30589920 := by
    rw [hnext, usPerSec] at hk
    omega
  exact ⟨hnext, heq ▸ hleast⟩

end Cron

end Nilo.Job
