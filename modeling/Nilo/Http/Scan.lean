import Nilo.Lib.Bits
import Nilo.Std.Text

/-!
# Finding delimiters a block at a time (`http/scan.zig`)

A block of 32 bytes is compared with one byte, and where it is found is a bitmask.
`positions_positionsOf` says that the mask has the positions a byte at a time would find, whichever
of the three ways the block was loaded in.
-/

namespace Nilo.Scan

open Text (Bytes)
open Lib (Bits.marks Bits.positions)

def lanes : Nat := 32

/-- The positions in `buf[at..]` of the bytes that `p` holds for. The last block of a longer buffer is
loaded from `lanes` before its end, and what was looked at already is shifted off. -/
def classOf (p : UInt8 → Bool) (buf : Bytes) (start : Nat) : Nat :=
  if start + lanes ≤ buf.length then Bits.marks p ((buf.drop start).take lanes)
  else if lanes ≤ buf.length then
    let base := buf.length - lanes
    Bits.marks p ((buf.drop base).take lanes) >>> (start - base)
  else Bits.marks p (buf.drop start)

def positionsOf (buf : Bytes) (start : Nat) (byte : UInt8) : Nat := classOf (· == byte) buf start

theorem testBit_classOf (p : UInt8 → Bool) {buf : Bytes} {start : Nat} (h : start ≤ buf.length)
    (k : Nat) : (classOf p buf start).testBit k = (decide (k < lanes) && buf[start + k]?.any p) := by
  have hpast (i : Nat) (hi : buf.length ≤ i) : buf[i]?.any p = false := by
    rw [List.getElem?_eq_none hi]
    rfl
  rw [classOf]
  split_ifs with hwhole hlast
  · rw [Lib.Bits.testBit_marks]
    by_cases hk : k < lanes
    · rw [List.getElem?_take_of_lt hk, List.getElem?_drop, decide_eq_true hk, Bool.true_and]
    · rw [List.getElem?_take_eq_none (by omega), decide_eq_false hk, Bool.false_and]
      rfl
  · dsimp only
    rw [Nat.testBit_shiftRight, Lib.Bits.testBit_marks]
    by_cases hk : start - (buf.length - lanes) + k < lanes
    · have hsum : buf.length - lanes + (start - (buf.length - lanes) + k) = start + k := by omega
      rw [List.getElem?_take_of_lt hk, List.getElem?_drop, hsum, decide_eq_true (by omega),
        Bool.true_and]
    · rw [List.getElem?_take_eq_none (by omega), hpast (start + k) (by omega), Bool.and_false]
      rfl
  · rw [Lib.Bits.testBit_marks, List.getElem?_drop]
    by_cases hk : k < lanes
    · rw [decide_eq_true hk, Bool.true_and]
    · rw [hpast (start + k) (by omega), Bool.and_false]

theorem classOf_lt (p : UInt8 → Bool) (buf : Bytes) (start : Nat) :
    classOf p buf start < 2 ^ lanes := by
  have hmarks (l : Bytes) (hl : l.length ≤ lanes) : Bits.marks p l < 2 ^ lanes :=
    Nat.lt_of_lt_of_le (Lib.Bits.marks_lt p l) (Nat.pow_le_pow_right (by decide) hl)
  have htake (l : Bytes) : (l.take lanes).length ≤ lanes := by
    rw [List.length_take]
    omega
  rw [classOf]
  split_ifs with hwhole hlast
  · exact hmarks _ (htake _)
  · exact Nat.lt_of_le_of_lt (Nat.shiftRight_le _ _) (hmarks _ (htake _))
  · refine hmarks _ ?_
    rw [List.length_drop]
    omega

/-- The positions that the mask marks. -/
theorem positions_classOf (p : UInt8 → Bool) {buf : Bytes} {start : Nat} (h : start ≤ buf.length) :
    Bits.positions lanes (classOf p buf start) =
      (List.range lanes).filter fun k => buf[start + k]?.any p := by
  refine List.filter_congr fun k hk => ?_
  rw [testBit_classOf p h, decide_eq_true (List.mem_range.mp hk), Bool.true_and]

end Nilo.Scan
