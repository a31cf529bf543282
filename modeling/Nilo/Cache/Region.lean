import Nilo.Lib.Window
import Mathlib.Tactic.Ring
import Mathlib.Tactic.SplitIfs

/-!
# The cache's rings (`cache/store.zig`)

A region is a stretch of a shard's ring with one write cursor, and a slot says where an entry is
and on which pass of the cursor it was written. A pass is a number of sixteen bits that is never
zero (`genOf` of a count without a bound), so two passes less than a turn of it apart are told
apart (`lap_eq_of_genOf`, `genOf_succ_iff`), and `floor` is how old a slot the sweeps leave.
-/

namespace Nilo.Cache

open Lib (Cursor Piece)

/-- How warm an entry has to be before a read moves it out of the ring's way. -/
def warm : Nat := 3

/-- The part of a region, counted from its cursor on, that is about to be written over. -/
def rescueWindow : Nat := 8

/-- How much of a shard's ring is the doorkeeper. -/
def smallShare : Nat := 10

/-- Ways to a bucket. -/
abbrev ways : Nat := 8

structure Slot where
  off : Nat
  gen : Nat
  fp : Nat
  freq : Nat
deriving DecidableEq, Repr

namespace Slot

/-- A way that has never been written. -/
def never : Slot := ⟨0, 0, 0, 0⟩

/-- `clearIf`, with whether the weak exchange goes through where it may. -/
def clearIf (slot seen : Slot) (luck : Bool) : Slot :=
  if slot = seen ∧ luck then never else slot

/-- One warmer, and nothing at all once it is saturated. -/
def warmer (slot seen : Slot) (luck : Bool) : Slot :=
  if warm ≤ seen.freq then slot
  else if slot = seen ∧ luck then { seen with freq := seen.freq + 1 }
  else slot

end Slot

/-- Where a region's write cursor is, and its pass. -/
structure Mark where
  head : Nat
  gen : Nat
deriving DecidableEq, Repr

structure Region where
  start : Nat
  /-- Exclusive. -/
  stop : Nat
  cursor : Mark
  sweepDue : Bool
  /-- How often the cursor has begun again. Nothing reads it: `cursor.gen` is what the code keeps
  of it. -/
  lap : Nat
deriving DecidableEq, Repr

namespace Region

def init (start stop : Nat) : Region := ⟨start, stop, ⟨start, 1⟩, false, 0⟩

def len (r : Region) : Nat := r.stop - r.start

def holds (r : Region) (off : Nat) : Bool := r.start ≤ off ∧ off < r.stop

end Region

/-- The next pass: `+%= 1` on sixteen bits, and zero is left out. -/
def nextGen (gen : Nat) : Nat := if (gen + 1) % 2 ^ 16 = 0 then 1 else (gen + 1) % 2 ^ 16

namespace Region

/-- Begin again at the region's first byte. -/
def again (r : Region) : Region :=
  let gen := nextGen r.cursor.gen
  { r with
    cursor := ⟨r.start, gen⟩
    sweepDue := r.sweepDue || (gen &&& 0x7fff == 0 || gen == 1)
    lap := r.lap + 1 }

/-- Where `total` bytes go. An entry is never split across the seam. -/
def reserve (r : Region) (total : Nat) : Region × Nat :=
  let r := if r.stop < r.cursor.head + total then r.again else r
  ({ r with cursor := ⟨r.cursor.head + total, r.cursor.gen⟩ }, r.cursor.head)

/-- Whether what the slot points at is still what it pointed at: written on this pass and behind
the cursor, or on the pass before and still ahead of it. -/
def liveAt (m : Mark) (slot : Slot) : Bool :=
  if slot.gen = 0 then false
  else if slot.gen = m.gen then slot.off < m.head
  else if (slot.gen + 1) % 2 ^ 16 = m.gen then m.head ≤ slot.off
  else false

/-- Whether the cursor wrote over this entry inside the last lap. -/
def ghostAt (m : Mark) (slot : Slot) : Bool :=
  slot.gen ≠ 0 ∧ (slot.gen + 1) % 2 ^ 16 = m.gen ∧ slot.off < m.head

/-- How many bytes of writing the entry has left before the cursor reaches it. -/
def untilAt (r : Region) (m : Mark) (slot : Slot) : Nat :=
  if slot.gen = m.gen then (r.stop - m.head) + (slot.off - r.start) else slot.off - m.head

/-- Whether the next `total` bytes reserved here would land on top of the entry at `srcOff`. -/
def wouldClobber (r : Region) (total srcOff srcTotal : Nat) : Bool :=
  let place := if r.stop < r.cursor.head + total then r.start else r.cursor.head
  place < srcOff + srcTotal ∧ srcOff < place + total

end Region

/-! ## Passes -/

/-- How many passes the number tells apart. -/
def passes : Nat := 2 ^ 16 - 1

/-- The number of a pass. -/
def genOf (lap : Nat) : Nat := lap % passes + 1

theorem genOf_ne_zero (lap : Nat) : genOf lap ≠ 0 := Nat.succ_ne_zero _

theorem nextGen_genOf (lap : Nat) : nextGen (genOf lap) = genOf (lap + 1) := by
  have hlt : lap % passes < passes := Nat.mod_lt _ (by decide)
  by_cases hlast : (genOf lap + 1) % 2 ^ 16 = 0
  · rw [nextGen, if_pos hlast]
    simp only [genOf, passes] at hlt hlast ⊢
    omega
  · rw [nextGen, if_neg hlast]
    simp only [genOf, passes] at hlt hlast ⊢
    omega

theorem lap_eq_of_genOf {a b : Nat} (hle : a ≤ b) (hnear : b < a + passes)
    (h : genOf a = genOf b) : a = b := by
  simp only [genOf, passes] at h hnear
  omega

theorem genOf_succ_iff {a b : Nat} (hle : a ≤ b) (hnear : b < a + passes) :
    (genOf a + 1) % 2 ^ 16 = genOf b ↔ a + 1 = b ∧ genOf b ≠ 1 := by
  have hlt : a % passes < passes := Nat.mod_lt _ (by decide)
  simp only [genOf, passes] at hlt hnear ⊢
  omega

/-- The oldest pass that a slot may be left from: at the two points of a turn where a sweep runs,
the pass before, and the same until the next of them. -/
def floor (lap : Nat) : Nat :=
  let turn := lap / passes * passes
  if lap % passes < 2 ^ 15 - 1 then turn else turn + (2 ^ 15 - 2)

/-- The passes at whose start a sweep is due. -/
def Sweeps (lap : Nat) : Prop := lap % passes = 0 ∨ lap % passes = 2 ^ 15 - 1

theorem sweeps_iff (lap : Nat) :
    (genOf lap &&& 0x7fff == 0 || genOf lap == 1) = true ↔ Sweeps lap := by
  have hlt : lap % passes < passes := Nat.mod_lt _ (by decide)
  have hand : genOf lap &&& 0x7fff = genOf lap % 2 ^ 15 := Nat.and_two_pow_sub_one_eq_mod _ 15
  rw [hand, Bool.or_eq_true, beq_iff_eq, beq_iff_eq]
  simp only [genOf, Sweeps, passes] at hlt ⊢
  omega

theorem floor_cases (lap : Nat) :
    lap % passes < 2 ^ 15 - 1 ∧ floor lap = lap / passes * passes ∨
      2 ^ 15 - 1 ≤ lap % passes ∧ floor lap = lap / passes * passes + (2 ^ 15 - 2) := by
  by_cases hhalf : lap % passes < 2 ^ 15 - 1
  · exact .inl ⟨hhalf, if_pos hhalf⟩
  · exact .inr ⟨Nat.le_of_not_lt hhalf, if_neg hhalf⟩

theorem floor_le (lap : Nat) : floor lap ≤ lap := by
  have h := floor_cases lap
  simp only [passes] at h
  omega

/-- No slot left is so old that its pass could be taken for a later one. -/
theorem le_floor_add (lap : Nat) : lap ≤ floor lap + 2 ^ 15 := by
  have h := floor_cases lap
  simp only [passes] at h
  omega

theorem floor_mono {a b : Nat} (h : a ≤ b) : floor a ≤ floor b := by
  have ha := floor_cases a
  have hb := floor_cases b
  simp only [passes] at ha hb
  omega

theorem floor_succ {lap : Nat} (h : ¬ Sweeps (lap + 1)) : floor (lap + 1) = floor lap := by
  have hfloor := floor_cases lap
  have hfloor' := floor_cases (lap + 1)
  simp only [Sweeps, passes, not_or] at h hfloor hfloor'
  omega

theorem floor_of_sweeps {lap : Nat} (h : Sweeps (lap + 1)) :
    floor (lap + 1) ≤ lap + 1 ∧ (floor (lap + 1) ≤ lap ∨ genOf (lap + 1) = 1) := by
  have hfloor := floor_cases (lap + 1)
  simp only [Sweeps, genOf, passes] at h hfloor ⊢
  omega

end Nilo.Cache
