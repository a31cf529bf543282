import Nilo.Std.Text
import Mathlib.Tactic.Ring

/-!
# Integers and slices as bytes (`std.mem`)

An integer as its bytes, low byte first, and the two faults a checked build stops at: a sum past
its type, and a slice past its end.
-/

namespace Nilo.Mem

open Text (Bytes)

/-- What a checked build panics with. -/
inductive Fault where
  | overflow
  | range
deriving DecidableEq, Repr

abbrev Run := Except Fault

/-- `std.mem.writeInt` of `k` bytes, `.little`. -/
def writeLe : Nat → Nat → Bytes
  | 0, _ => []
  | k + 1, n => UInt8.ofNat n :: writeLe k (n / 256)

/-- `std.mem.readInt`, `.little`. -/
def readLe : Bytes → Nat
  | [] => 0
  | b :: rest => b.toNat + 256 * readLe rest

/-- `std.mem.writeInt` of `k` bytes, `.big`. -/
def writeBe : Nat → Nat → Bytes
  | 0, _ => []
  | k + 1, n => UInt8.ofNat (n / 256 ^ k) :: writeBe k n

/-- `std.mem.readInt`, `.big`. -/
def readBe : Bytes → Nat
  | [] => 0
  | b :: rest => b.toNat * 256 ^ rest.length + readBe rest

/-- The sum of two `u16`s. -/
def add16 (a b : Nat) : Run Nat := if a + b < 2 ^ 16 then .ok (a + b) else .error .overflow

/-- `bytes[start..][0..len]`. -/
def slice (bytes : Bytes) (start len : Nat) : Run Bytes :=
  if start + len ≤ bytes.length then .ok ((bytes.drop start).take len) else .error .range

/-- `bytes[start..]`. -/
def sliceFrom (bytes : Bytes) (start : Nat) : Run Bytes :=
  if start ≤ bytes.length then .ok (bytes.drop start) else .error .range

@[simp] theorem length_writeLe (k n : Nat) : (writeLe k n).length = k := by
  induction k generalizing n with
  | zero => rfl
  | succ k ih => simp [writeLe, ih]

theorem readLe_writeLe (k n : Nat) : readLe (writeLe k n) = n % 256 ^ k := by
  induction k generalizing n with
  | zero => simp [writeLe, readLe, Nat.mod_one]
  | succ k ih =>
    have hbyte : (UInt8.ofNat n).toNat = n % 256 := by simp
    rw [writeLe, readLe, ih, hbyte, pow_succ', Nat.mod_mul]

theorem readLe_lt (b : Bytes) : readLe b < 256 ^ b.length := by
  induction b with
  | nil => simp [readLe]
  | cons x rest ih =>
    have hx : x.toNat < 256 := x.toNat_lt
    rw [readLe, List.length_cons, pow_succ']
    omega

theorem writeLe_readLe (b : Bytes) : writeLe b.length (readLe b) = b := by
  induction b with
  | nil => rfl
  | cons x rest ih =>
    have hx : x.toNat < 256 := x.toNat_lt
    have hhigh : (x.toNat + 256 * readLe rest) / 256 = readLe rest := by omega
    have hlow : UInt8.ofNat (x.toNat + 256 * readLe rest) = x := by
      refine UInt8.toNat_inj.mp ?_
      rw [UInt8.toNat_ofNat']
      omega
    rw [readLe, List.length_cons, writeLe, hhigh, hlow, ih]

@[simp] theorem length_writeBe (k n : Nat) : (writeBe k n).length = k := by
  induction k with
  | zero => rfl
  | succ k ih => simp [writeBe, ih]

theorem readBe_writeBe (k n : Nat) : readBe (writeBe k n) = n % 256 ^ k := by
  induction k with
  | zero => simp [writeBe, readBe, Nat.mod_one]
  | succ k ih =>
    have hbyte : (UInt8.ofNat (n / 256 ^ k)).toNat = n / 256 ^ k % 256 := by simp
    rw [writeBe, readBe, length_writeBe, ih, hbyte, Nat.mod_pow_succ, Nat.add_comm, Nat.mul_comm]

theorem readBe_lt (b : Bytes) : readBe b < 256 ^ b.length := by
  induction b with
  | nil => exact Nat.one_pos
  | cons x rest ih =>
    have hx : x.toNat < 256 := x.toNat_lt
    calc x.toNat * 256 ^ rest.length + readBe rest
        < x.toNat * 256 ^ rest.length + 256 ^ rest.length := Nat.add_lt_add_left ih _
      _ = (x.toNat + 1) * 256 ^ rest.length := by ring
      _ ≤ 256 * 256 ^ rest.length := Nat.mul_le_mul_right _ hx
      _ = 256 ^ (rest.length + 1) := (pow_succ' 256 rest.length).symm

/-- The bytes above the lowest `k` do not show in them. -/
theorem writeBe_add_mul (k n m : Nat) : writeBe k (m * 256 ^ k + n) = writeBe k n := by
  induction k generalizing m with
  | zero => rfl
  | succ k ih =>
    have hpos : 0 < 256 ^ k := Nat.pow_pos (by decide)
    have hsplit : m * 256 ^ (k + 1) + n = m * 256 * 256 ^ k + n := by rw [pow_succ', Nat.mul_assoc]
    have hbyte : UInt8.ofNat (m * 256 + n / 256 ^ k) = UInt8.ofNat (n / 256 ^ k) := by
      refine UInt8.toNat_inj.mp ?_
      rw [UInt8.toNat_ofNat', UInt8.toNat_ofNat']
      omega
    rw [hsplit, writeBe, writeBe, ih, Nat.mul_comm, Nat.mul_add_div hpos, hbyte]

theorem writeBe_readBe (b : Bytes) : writeBe b.length (readBe b) = b := by
  induction b with
  | nil => rfl
  | cons x rest ih =>
    have hpos : 0 < 256 ^ rest.length := Nat.pow_pos (by decide)
    have hlow : readBe rest / 256 ^ rest.length = 0 := Nat.div_eq_of_lt (readBe_lt rest)
    have hhigh : (x.toNat * 256 ^ rest.length + readBe rest) / 256 ^ rest.length = x.toNat := by
      rw [Nat.mul_comm, Nat.mul_add_div hpos, hlow, Nat.add_zero]
    rw [readBe, List.length_cons, writeBe, writeBe_add_mul, ih, hhigh, UInt8.ofNat_toNat]

theorem add16_ok {a b : Nat} (h : a + b < 2 ^ 16) : add16 a b = .ok (a + b) := if_pos h

theorem slice_ok {bytes : Bytes} {start len : Nat} (h : start + len ≤ bytes.length) :
    slice bytes start len = .ok ((bytes.drop start).take len) :=
  if_pos h

theorem sliceFrom_ok {bytes : Bytes} {start : Nat} (h : start ≤ bytes.length) :
    sliceFrom bytes start = .ok (bytes.drop start) :=
  if_pos h

end Nilo.Mem
