import Mathlib.Order.WithBot
import Nilo.Lib.Insertion

/-!
# A time zone (`job/tz.zig`)

A zone is a table of transitions and a footer, the rule that carries the clock forward after the last
of them. `Zone.segmentAt` answers with the stretch of real time around an instant over which one
offset holds.

An instant is a count of seconds since 1970-01-01. `beginning` and `forever` are the ends of time and
no instants, `⊥` and `⊤` here.
-/

namespace Nilo.Tz

/-- One stretch of real time over which a zone keeps one offset. `finish` is exclusive, and is where
the next segment starts. -/
structure Segment where
  start : WithBot Int
  finish : WithTop Int
  /-- Seconds east of UTC. -/
  off : Int
  dst : Bool
deriving DecidableEq

/-! ## The calendar -/

def isLeap (y : Int) : Bool := y % 4 == 0 && (y % 100 != 0 || y % 400 == 0)

def daysInMonth (y m : Int) : Int :=
  if m = 2 then (if isLeap y then 29 else 28)
  else if m = 4 ∨ m = 6 ∨ m = 9 ∨ m = 11 then 30
  else 31

/-- Days since 1970-01-01 of a civil date. -/
def daysFromCivil (y m d : Int) : Int :=
  let yy := if m ≤ 2 then y - 1 else y
  let era := yy / 400
  let yoe := yy - era * 400
  let mp := (m + 9) % 12
  let doy := (153 * mp + 2) / 5 + d - 1
  let doe := yoe * 365 + yoe / 4 - yoe / 100 + doy
  era * 146097 + doe - 719468

structure Civil where
  year : Int
  month : Int
  day : Int
deriving DecidableEq

/-- The civil date of a day count since 1970-01-01. -/
def civilFromDays (days : Int) : Civil :=
  let z := days + 719468
  let era := z / 146097
  let doe := z - era * 146097
  let yoe := (doe - doe / 1460 + doe / 36524 - doe / 146096) / 365
  let doy := doe - (365 * yoe + yoe / 4 - yoe / 100)
  let mp := (5 * doy + 2) / 153
  let m := if mp < 10 then mp + 3 else mp - 9
  { year := yoe + era * 400 + (if m ≤ 2 then 1 else 0)
    month := m
    day := doy - (153 * mp + 2) / 5 + 1 }

/-! ## The footer -/

/-- What a footer's `Jn`, `n` or `Mm.w.d` names, in any year. -/
inductive Date where
  /-- Day 1 to 365, February 29 never counted. -/
  | julian1 (n : Nat)
  /-- Day 0 to 365, February 29 counted. -/
  | julian0 (n : Nat)
  /-- Day `d` (0 is Sunday) of week `w` of month `m`, where week 5 is the last. -/
  | month (m w d : Nat)
deriving DecidableEq, Repr

/-- The loop of `epochDay`: back by weeks to a day in front of `bound`. No date is more than two weeks
past the end of its month. -/
def backBelow (bound : Int) : Nat → Int → Int
  | 0, day => day
  | n + 1, day => if bound ≤ day then backBelow bound n (day - 7) else day

def Date.epochDay (self : Date) (year : Int) : Int :=
  match self with
  | .julian1 n => daysFromCivil year 1 1 + (n - 1 + (if isLeap year && 60 ≤ n then 1 else 0))
  | .julian0 n => daysFromCivil year 1 1 + n
  | .month m w d =>
    let first := daysFromCivil year m 1
    -- 1970-01-01 was a Thursday, and Sunday is 0.
    let weekdayOfFirst := (first + 4) % 7
    let day := first + (d - weekdayOfFirst) % 7 + 7 * (w - 1)
    backBelow (first + daysInMonth year m) w day

/-- When a footer switches, as a day and a local time of day in seconds. -/
structure Change where
  date : Date
  time : Int
deriving DecidableEq

structure Dst where
  /-- Seconds east of UTC while it is in effect. -/
  off : Int
  start : Change
  finish : Change
deriving DecidableEq

/-- What holds after the last explicit transition, for ever. -/
structure Rule where
  /-- Seconds east of UTC outside daylight saving. -/
  stdOff : Int
  dst : Option Dst
deriving DecidableEq

structure Event where
  instant : Int
  toDst : Bool
deriving DecidableEq

/-- The two switches of one year, in UTC. -/
def Rule.year (self : Rule) (d : Dst) (y : Int) : List Event :=
  [{ instant := d.start.date.epochDay y * 86400 + d.start.time - self.stdOff, toDst := true },
   { instant := d.finish.date.epochDay y * 86400 + d.finish.time - d.off, toDst := false }]

/-- The insertion sort of `segmentAt`. -/
def sorted (events : List Event) : List Event := Lib.Insertion.sorted Event.instant events

/-- The first switch to come. -/
def finishOf : List Event → WithTop Int
  | [] => ⊤
  | next :: _ => (next.instant : Int)

/-- The stretch around `t`, out of sorted switches. -/
def Rule.stretchIn (self : Rule) (d : Dst) (events : List Event) (t : Int) : Segment :=
  let coming := events.dropWhile fun e => e.instant ≤ t
  match (events.takeWhile fun e => e.instant ≤ t).getLast? with
  | none =>
    let toDst := (events.headD ⟨0, true⟩).toDst
    { start := ⊥, finish := finishOf coming, off := if toDst then self.stdOff else d.off,
      dst := !toDst }
  | some e =>
    { start := (e.instant : Int), finish := finishOf coming,
      off := if e.toDst then d.off else self.stdOff, dst := e.toDst }

/-- The stretch around `t`, out of the switches of three years. -/
def Rule.segmentAt (self : Rule) (d : Dst) (t : Int) : Segment :=
  let y := (civilFromDays (t / 86400)).year
  self.stretchIn d (sorted (self.year d (y - 1) ++ self.year d y ++ self.year d (y + 1))) t

/-! ## The table -/

structure Kind where
  /-- Seconds east of UTC. -/
  utoff : Int
  dst : Bool
  /-- What the compiler of the data writes for a time before its cut-off. -/
  placeholder : Bool
deriving DecidableEq

structure Zone where
  /-- Transition instants, ascending. -/
  instants : List Int
  /-- For each transition, the index in `types` that holds from it on. -/
  kind : List Nat
  types : List Kind
  /-- The type in effect before the first transition. -/
  before : Nat
  /-- The footer, none when the file has none. -/
  rule : Option Rule
deriving DecidableEq

def Zone.typeOf (self : Zone) (i : Nat) : Kind := self.types.getD i ⟨0, false, false⟩

/-- What holds after the last explicit transition (at `floor`): the footer. -/
def Zone.tail (self : Zone) (t : Int) (floor : WithBot Int) : Segment :=
  match self.rule with
  | some rule =>
    match rule.dst with
    | some d =>
      let s := rule.segmentAt d t
      { s with start := max s.start floor }
    | none => { start := floor, finish := ⊤, off := rule.stdOff, dst := false }
  | none =>
    let ty := self.typeOf ((self.kind.getLast?).getD self.before)
    { start := floor, finish := ⊤, off := ty.utoff, dst := ty.dst }

/-- The type a moment before the first transition is read with. -/
def Zone.firstReal (self : Zone) : Nat :=
  if (self.typeOf self.before).placeholder && 0 < self.kind.length then self.kind.getD 0 0
  else self.before

/-- The halving of `segmentAt`: the last transition at or before `t`, from `lo` up to `hi`. -/
def Zone.lastFrom (self : Zone) (t : Int) (lo hi : Nat) : Nat :=
  if hi - lo > 1 then
    let mid := lo + (hi - lo) / 2
    if self.instants.getD mid 0 ≤ t then self.lastFrom t mid hi else self.lastFrom t lo mid
  else lo
termination_by hi - lo

/-- The stretch of real time around `t` over which one offset holds. -/
def Zone.segmentAt (self : Zone) (t : Int) : Segment :=
  let n := self.instants.length
  if n = 0 then self.tail t ⊥
  else if t < self.instants.getD 0 0 then
    let ty := self.typeOf self.firstReal
    { start := ⊥, finish := (self.instants.getD 0 0 : Int), off := ty.utoff, dst := ty.dst }
  else
    let lo := self.lastFrom t 0 n
    if lo + 1 < n then
      let ty := self.typeOf (self.kind.getD lo 0)
      { start := (self.instants.getD lo 0 : Int), finish := (self.instants.getD (lo + 1) 0 : Int),
        off := ty.utoff, dst := ty.dst }
    else self.tail t (self.instants.getD lo 0 : Int)

end Nilo.Tz
