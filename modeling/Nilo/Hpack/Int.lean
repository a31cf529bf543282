import Nilo.Lib.Front
import Nilo.Std.Mem

/-!
# Integers of a header block (`http/hpack.zig`)

A number begins in the low `n` bits of a byte that it shares with what the byte says else, and goes
on in bytes of seven bits, low ones first. `readInt_writeInt` is the round trip for every prefix, and
`readInt_no_fault` that no block, however long, makes the sums of the reader overflow.
-/

namespace Nilo.Hpack

open Text (Bytes)
open Mem (Fault)
open Lib (Front)

/-- How a read stops: with `error.Compression`, or at a check of the build. -/
inductive Stop where
  | compression
  | fault (f : Fault)
deriving DecidableEq, Repr

abbrev Read (β : Type) : Type := Front UInt8 Stop β

/-- What the low `n` bits of a byte can hold. -/
def prefixMask (n : Nat) : Nat := 2 ^ n - 1

/-- The loop behind the prefix. The value is a `u64` and the shift a `u6`. -/
def intMore (value shift : Nat) : Bytes → Except Stop (Nat × Bytes)
  | [] => .error .compression
  | b :: rest =>
    let value := value + ((b &&& 0x7f).toNat <<< shift) % 2 ^ 64
    if value ≥ 2 ^ 64 then .error (.fault .overflow)
    else if value > 2 ^ 32 - 1 then .error .compression
    else if b &&& 0x80 = 0 then .ok (value, rest)
    else if shift + 7 ≥ 2 ^ 6 then .error (.fault .overflow)
    else if shift + 7 > 28 then .error .compression
    else intMore value (shift + 7) rest

/-- An integer with an `n`-bit prefix. -/
def readInt (n : Nat) : Read Nat := fun block =>
  match block with
  | [] => .error .compression
  | b :: rest =>
    let value := b.toNat &&& prefixMask n
    if value < prefixMask n then .ok (value, rest) else intMore value 0 rest

/-- The bytes behind the prefix: a `u32` has four with a continuation bit at the most. -/
def intDigits : Nat → Nat → Bytes
  | 0, rest => [UInt8.ofNat rest]
  | k + 1, rest =>
    if rest ≥ 0x80 then (UInt8.ofNat (rest &&& 0x7f) ||| 0x80) :: intDigits k (rest >>> 7)
    else [UInt8.ofNat rest]

/-- `value` with an `n`-bit prefix, the prefix's upper bits being `high`. -/
def writeInt (high : UInt8) (n value : Nat) : Bytes :=
  if value < prefixMask n then [high ||| UInt8.ofNat value]
  else (high ||| UInt8.ofNat (prefixMask n)) :: intDigits 4 (value - prefixMask n)

/-! ## Locality -/

open Lib.Front (Takes)

theorem intMore_local {value shift v : Nat} {b rest : Bytes} (h : intMore value shift b = .ok (v, rest)) :
    ∃ used, used ≠ [] ∧ b = used ++ rest ∧
      ∀ more, intMore value shift (used ++ more) = .ok (v, more) := by
  induction b generalizing value shift with
  | nil => cases h
  | cons b tail ih =>
    rw [intMore] at h
    split_ifs at h with hover hbig hend hshift hlong
    · cases h
      refine ⟨[b], List.cons_ne_nil _ _, rfl, fun more => ?_⟩
      rw [List.singleton_append, intMore]
      rw [if_neg hover, if_neg hbig, if_pos hend]
    · obtain ⟨used, -, rfl, hused⟩ := ih h
      refine ⟨b :: used, List.cons_ne_nil _ _, rfl, fun more => ?_⟩
      rw [List.cons_append, intMore]
      rw [if_neg hover, if_neg hbig, if_neg hend, if_neg hshift, if_neg hlong, hused]

theorem takes_readInt (n : Nat) : Takes (readInt n) := by
  intro block v rest h
  cases block with
  | nil => cases h
  | cons b tail =>
    rw [readInt] at h
    split_ifs at h with hsmall
    · cases h
      exact Nat.lt_succ_self _
    · obtain ⟨used, -, rfl, -⟩ := intMore_local h
      rw [List.length_cons, List.length_append]
      omega

/-! ## No overflow -/

theorem and_low_lt (b : UInt8) : (b &&& 0x7f).toNat < 128 := by
  rw [UInt8.toNat_and]
  exact Nat.lt_of_le_of_lt Nat.and_le_right (by decide)

/-- The value is below `2 ^ 32` before each turn, and the shift at most 28. -/
theorem intMore_no_fault {value shift : Nat} (hvalue : value < 2 ^ 32) (hshift : shift ≤ 28)
    (b : Bytes) (f : Fault) : intMore value shift b ≠ .error (.fault f) := by
  induction b generalizing value shift with
  | nil => exact fun h => (by cases h)
  | cons b rest ih =>
    rw [intMore]
    have hpart : (b &&& 0x7f).toNat <<< shift < 2 ^ 35 := by
      rw [Nat.shiftLeft_eq]
      calc (b &&& 0x7f).toNat * 2 ^ shift
          < 128 * 2 ^ shift := Nat.mul_lt_mul_of_pos_right (and_low_lt b) (Nat.two_pow_pos _)
        _ ≤ 128 * 2 ^ 28 := Nat.mul_le_mul_left _ (Nat.pow_le_pow_right (by decide) hshift)
        _ = 2 ^ 35 := by decide
    rw [Nat.mod_eq_of_lt (Nat.lt_trans hpart (by decide))]
    split_ifs with hover hbig hend hlarge hlong
    · omega
    · exact fun h => (by cases h)
    · exact fun h => (by cases h)
    · omega
    · exact fun h => (by cases h)
    · exact ih (by omega) (by omega)

/-- No encoded integer, however long, makes the sums of the reader overflow, and none is read as
more than a `u32`. -/
theorem readInt_no_fault {n : Nat} (hn : n ≤ 8) (block : Bytes) (f : Fault) :
    readInt n block ≠ .error (.fault f) := by
  cases block with
  | nil => exact fun h => (by cases h)
  | cons b rest =>
    rw [readInt]
    split_ifs with hsmall
    · exact fun h => (by cases h)
    · have hle : b.toNat &&& prefixMask n ≤ b.toNat := Nat.and_le_left
      have hlt := b.toNat_lt
      exact intMore_no_fault (by omega) (by decide) rest f

/-! ## The round trip -/

theorem low_high {r : Nat} (hr : r < 128) :
    ((UInt8.ofNat r ||| 0x80) &&& 0x7f).toNat = r ∧ (UInt8.ofNat r ||| 0x80) &&& 0x80 ≠ 0 := by
  have hall : ∀ r < 128, ((UInt8.ofNat r ||| 0x80) &&& 0x7f).toNat = r ∧
      (UInt8.ofNat r ||| 0x80) &&& 0x80 ≠ 0 := by decide
  exact hall r hr

theorem low_last {r : Nat} (hr : r < 128) :
    (UInt8.ofNat r &&& 0x7f).toNat = r ∧ UInt8.ofNat r &&& 0x80 = 0 := by
  have hall : ∀ r < 128, (UInt8.ofNat r &&& 0x7f).toNat = r ∧ UInt8.ofNat r &&& 0x80 = 0 := by
    decide
  exact hall r hr

/-- What a byte adds, where `r` are its seven bits. -/
theorem part_eq {j r rest : Nat} (hr : r ≤ rest) (h : rest * 2 ^ (7 * j) < 2 ^ 32) :
    r <<< (7 * j) % 2 ^ 64 = r * 2 ^ (7 * j) := by
  have hle := Nat.mul_le_mul_right (2 ^ (7 * j)) hr
  rw [Nat.shiftLeft_eq]
  exact Nat.mod_eq_of_lt (by omega)

theorem intMore_last {j value rest : Nat} (hsum : value + rest * 2 ^ (7 * j) < 2 ^ 32)
    (hrest : rest < 128) (more : Bytes) :
    intMore value (7 * j) (UInt8.ofNat rest :: more) = .ok (value + rest * 2 ^ (7 * j), more) := by
  obtain ⟨hlow, hend⟩ := low_last hrest
  rw [intMore, hlow, part_eq (Nat.le_refl _) (by omega), if_neg (by omega), if_neg (by omega),
    if_pos hend]

/-- The loop after `j` bytes, on the digits of what is left. -/
theorem intMore_intDigits {k j value rest : Nat} (hj : j + k = 4)
    (hsum : value + rest * 2 ^ (7 * j) < 2 ^ 32) (more : Bytes) :
    intMore value (7 * j) (intDigits k rest ++ more) = .ok (value + rest * 2 ^ (7 * j), more) := by
  induction k generalizing j value rest with
  | zero =>
    have hrest : rest < 128 := by
      by_contra hge
      have hj' : j = 4 := by omega
      subst hj'
      have := Nat.mul_le_mul_right (2 ^ (7 * 4)) (Nat.le_of_not_lt hge)
      omega
    exact intMore_last hsum hrest more
  | succ k ih =>
    rw [intDigits]
    split_ifs with hbig
    · have hdigit : rest &&& 0x7f = rest % 128 := Nat.and_two_pow_sub_one_eq_mod rest 7
      have hshift : rest >>> 7 = rest / 128 := Nat.shiftRight_eq_div_pow rest 7
      obtain ⟨hlow, hgo⟩ := low_high (Nat.mod_lt rest (show 0 < 128 by decide))
      have hpow : 2 ^ (7 * (j + 1)) = 128 * 2 ^ (7 * j) := by
        rw [Nat.mul_succ, Nat.add_comm, Nat.pow_add]
      have hwhole : value + rest % 128 * 2 ^ (7 * j) + rest / 128 * 2 ^ (7 * (j + 1)) =
          value + rest * 2 ^ (7 * j) := by
        have hrest : rest % 128 + rest / 128 * 128 = rest := by omega
        rw [hpow, ← Nat.mul_assoc, Nat.add_assoc, ← Nat.add_mul, hrest]
      have hle : rest % 128 * 2 ^ (7 * j) ≤ rest * 2 ^ (7 * j) :=
        Nat.mul_le_mul_right _ (Nat.mod_le rest 128)
      have hmore := @ih (j + 1) (value + rest % 128 * 2 ^ (7 * j)) (rest / 128) (by omega)
        (by rw [hwhole]; exact hsum)
      rw [hwhole] at hmore
      rw [hdigit, hshift, List.cons_append, intMore, hlow, part_eq (Nat.mod_le rest 128) (by omega),
        if_neg (by omega), if_neg (by omega), if_neg hgo, if_neg (by omega), if_neg (by omega),
        show 7 * j + 7 = 7 * (j + 1) by omega]
      exact hmore
    · exact intMore_last hsum (by omega) more

theorem prefixMask_lt {n : Nat} (hn : n ≤ 8) : prefixMask n < 256 := by
  have := Nat.pow_le_pow_right (show 0 < 2 by decide) hn
  rw [prefixMask]
  omega

/-- The prefix of a byte is read apart from the bits above it. -/
theorem or_prefix {n : Nat} (hn : n ≤ 8) {high : UInt8} (hhigh : high.toNat &&& prefixMask n = 0)
    {v : Nat} (hv : v ≤ prefixMask n) : (high ||| UInt8.ofNat v).toNat &&& prefixMask n = v := by
  have hmask := prefixMask_lt hn
  have hbyte : (UInt8.ofNat v).toNat = v := by
    rw [UInt8.toNat_ofNat']
    exact Nat.mod_eq_of_lt (by omega)
  have hown : v &&& prefixMask n = v := by
    rw [prefixMask, Nat.and_two_pow_sub_one_eq_mod]
    refine Nat.mod_eq_of_lt ?_
    have := Nat.two_pow_pos n
    rw [prefixMask] at hv
    omega
  rw [UInt8.toNat_or, hbyte, Nat.and_or_distrib_right, hhigh, hown, Nat.zero_or]

/-- What is written is read back, and no more than that. -/
theorem readInt_writeInt {n : Nat} (hn : n ≤ 8) {high : UInt8}
    (hhigh : high.toNat &&& prefixMask n = 0) {value : Nat} (hvalue : value < 2 ^ 32)
    (more : Bytes) : readInt n (writeInt high n value ++ more) = .ok (value, more) := by
  rw [writeInt]
  split_ifs with hsmall
  · rw [List.singleton_append, readInt, or_prefix hn hhigh (Nat.le_of_lt hsmall), if_pos hsmall]
  · rw [List.cons_append, readInt, or_prefix hn hhigh (Nat.le_refl _), if_neg (Nat.lt_irrefl _)]
    have hback : prefixMask n + (value - prefixMask n) * 2 ^ (7 * 0) = value := by omega
    have hread := @intMore_intDigits 4 0 (prefixMask n) (value - prefixMask n) (Nat.zero_add 4)
      (by rw [hback]; exact hvalue) more
    rw [hback] at hread
    exact hread

end Nilo.Hpack
