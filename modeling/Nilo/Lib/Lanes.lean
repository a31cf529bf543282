import Mathlib.Data.List.Basic
import Mathlib.Data.Nat.Bitwise
import Mathlib.Tactic.Ring

/-!
# The bytes of a word

A word as the bytes it is made of, low byte first, and the test of all of them at once: take one from
every byte, and look at the high bits that were not set before. A borrow out of a byte goes into the
one above it, so a lane above a zero byte can be marked that is not zero; but the lowest marked lane
is zero, which is why the test is right as a whole (`exists_marked`).
-/

namespace Nilo.Lib.Lanes

/-- A word of bytes, low byte first. -/
def word : List UInt8 → Nat
  | [] => 0
  | b :: rest => b.toNat + 256 * word rest

/-- The byte one in each of `k` lanes. -/
def ones : Nat → Nat
  | 0 => 0
  | k + 1 => 1 + 256 * ones k

theorem word_lt (bytes : List UInt8) : word bytes < 256 ^ bytes.length := by
  induction bytes with
  | nil => exact Nat.one_pos
  | cons b rest ih =>
    have hb : b.toNat < 256 := b.toNat_lt
    rw [word, List.length_cons, pow_succ']
    omega

theorem ones_lt (k : Nat) : ones k < 256 ^ k := by
  induction k with
  | zero => exact Nat.one_pos
  | succ k ih =>
    rw [ones, pow_succ']
    omega

/-- A bit of the bottom lane, and of the lanes above it. -/
theorem testBit_lane {low : Nat} (hlow : low < 256) (high i : Nat) :
    (low + 256 * high).testBit i = if i < 8 then low.testBit i else high.testBit (i - 8) := by
  rw [Nat.add_comm]
  exact Nat.testBit_two_pow_mul_add (i := 8) high hlow i

/-- `b` in every lane, against the bytes. -/
theorem word_xor (bytes : List UInt8) (b : UInt8) :
    word bytes ^^^ (ones bytes.length * b.toNat) = word (bytes.map (· ^^^ b)) := by
  induction bytes with
  | nil => rw [List.length_nil, ones, Nat.zero_mul, Nat.xor_zero, List.map_nil]
  | cons c rest ih =>
    have hc : c.toNat < 256 := c.toNat_lt
    have hb : b.toNat < 256 := b.toNat_lt
    have hspread : (1 + 256 * ones rest.length) * b.toNat =
        b.toNat + 256 * (ones rest.length * b.toNat) := by ring
    rw [List.length_cons, ones, hspread, word, List.map_cons, word, ← ih, UInt8.toNat_xor]
    refine Nat.eq_of_testBit_eq fun i => ?_
    rw [Nat.testBit_xor, testBit_lane hc, testBit_lane hb,
      testBit_lane (Nat.xor_lt_two_pow (n := 8) hc hb)]
    split_ifs
    · rw [Nat.testBit_xor]
    · rw [Nat.testBit_xor]

/-- A lane is marked: its high bit is set once one has been taken from each, and was not before. -/
def Marked (n k i : Nat) : Prop :=
  (n + (256 ^ k - ones k)).testBit (8 * i + 7) = true ∧ n.testBit (8 * i + 7) = false

/-- A lane above one that is not zero is marked when it is marked without it. -/
theorem marked_cons {low : Nat} (hpos : 0 < low) (hlow : low < 256) (high k i : Nat) :
    Marked (low + 256 * high) (k + 1) (i + 1) ↔ Marked high k i := by
  have hones := ones_lt k
  have htaken : low + 256 * high + (256 ^ (k + 1) - ones (k + 1)) =
      (low - 1) + 256 * (high + (256 ^ k - ones k)) := by
    rw [ones, pow_succ']
    omega
  have hbit : ¬8 * (i + 1) + 7 < 8 := by omega
  have hback : 8 * (i + 1) + 7 - 8 = 8 * i + 7 := by omega
  rw [Marked, Marked, htaken, testBit_lane (by omega), testBit_lane hlow, if_neg hbit, if_neg hbit,
    hback]

/-- A byte that is not zero does not mark the bottom lane. -/
theorem not_marked_zero {low : Nat} (hpos : 0 < low) (hlow : low < 256) (high k : Nat) :
    ¬Marked (low + 256 * high) (k + 1) 0 := by
  have hones := ones_lt k
  have htaken : low + 256 * high + (256 ^ (k + 1) - ones (k + 1)) =
      (low - 1) + 256 * (high + (256 ^ k - ones k)) := by
    rw [ones, pow_succ']
    omega
  rw [Marked, htaken, testBit_lane (by omega), testBit_lane hlow, if_pos (by decide),
    if_pos (by decide)]
  rintro ⟨hafter, hbefore⟩
  rw [Nat.testBit_eq_decide_div_mod_eq, decide_eq_true_eq] at hafter
  rw [Nat.testBit_eq_decide_div_mod_eq, decide_eq_false_iff_not] at hbefore
  omega

/-- A zero byte marks the bottom lane. -/
theorem marked_zero (high k : Nat) : Marked (0 + 256 * high) (k + 1) 0 := by
  have hones := ones_lt k
  have htaken : 0 + 256 * high + (256 ^ (k + 1) - ones (k + 1)) =
      255 + 256 * (high + (256 ^ k - ones k) - 1) := by
    rw [ones, pow_succ']
    omega
  rw [Marked, htaken, testBit_lane (by decide), testBit_lane (by decide), if_pos (by decide),
    if_pos (by decide)]
  exact ⟨by decide, by decide⟩

/-- Some lane is marked exactly when some byte is zero. -/
theorem exists_marked (bytes : List UInt8) :
    (∃ i < bytes.length, Marked (word bytes) bytes.length i) ↔ 0 ∈ bytes := by
  induction bytes with
  | nil => exact ⟨fun ⟨_, h, _⟩ => absurd h (Nat.not_lt_zero _), fun h => absurd h List.not_mem_nil⟩
  | cons b rest ih =>
    rw [List.length_cons, word]
    by_cases hb : b = 0
    · rw [hb]
      exact iff_of_true ⟨0, Nat.succ_pos _, marked_zero _ _⟩ (List.mem_cons_self ..)
    · have hpos : 0 < b.toNat := by
        refine Nat.pos_of_ne_zero fun hzero => hb ?_
        exact UInt8.toNat_inj.mp hzero
      have hlow : b.toNat < 256 := b.toNat_lt
      rw [List.mem_cons, or_iff_right (Ne.symm hb), ← ih]
      constructor
      · rintro ⟨i, hi, hmarked⟩
        cases i with
        | zero => exact absurd hmarked (not_marked_zero hpos hlow _ _)
        | succ i => exact ⟨i, by omega, (marked_cons hpos hlow _ _ _).mp hmarked⟩
      · rintro ⟨i, hi, hmarked⟩
        exact ⟨i + 1, by omega, (marked_cons hpos hlow _ _ _).mpr hmarked⟩

end Nilo.Lib.Lanes
