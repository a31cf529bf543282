import Nilo.Std.Mem
import Nilo.Std.Utf8

/-!
# The check of a string (`validUtf8` of `proto/wire.zig`)

Looks for a byte of 0x80 or more a block at a time, and asks std's validator of the rest of the
string from the first block that has one. `validUtf8_eq` says that this is std's answer for the
whole string.
-/

namespace Nilo.Proto

open Text (Bytes)
open Mem (readLe)
open Utf8 (isAscii utf8ValidateSlice utf8ValidateSlice_append utf8ValidateSlice_of_isAscii)

/-- `@reduce(.Or, block) >= 0x80`. -/
def high (block : Bytes) : Bool := block.foldl (· ||| ·) 0 ≥ 0x80

/-- A chunk of 16 a turn, and one overlapping load at the end. -/
def sixteens (b : Bytes) : Nat → Bytes → Bool
  | n + 1, rest =>
    if 16 ≤ rest.length then
      if high (rest.take 16) then utf8ValidateSlice rest else sixteens b n (rest.drop 16)
    else if rest ≠ [] ∧ high (b.drop (b.length - 16)) then utf8ValidateSlice rest
    else true
  | 0, _ => true

/-- Four chunks a turn. -/
def sixtyFours (b : Bytes) : Nat → Bytes → Bool
  | n + 1, rest =>
    if 64 ≤ rest.length then
      if high (rest.take 64) then utf8ValidateSlice rest else sixtyFours b n (rest.drop 64)
    else sixteens b (rest.length + 1) rest
  | 0, _ => true

def validUtf8 (b : Bytes) : Bool :=
  if b.length ≤ 16 then
    if 8 ≤ b.length then
      let lo := readLe (b.take 8)
      let hi := readLe (b.drop (b.length - 8))
      if (lo ||| hi) &&& 0x8080808080808080 = 0 then true else utf8ValidateSlice b
    else if 4 ≤ b.length then
      let lo := readLe (b.take 4)
      let hi := readLe (b.drop (b.length - 4))
      if (lo ||| hi) &&& 0x80808080 = 0 then true else utf8ValidateSlice b
    else if high b then utf8ValidateSlice b
    else true
  else sixtyFours b (b.length + 1) b

/-! ## Blocks of ASCII -/

theorem or_lt_high {a b : UInt8} : a ||| b < 0x80 ↔ a < 0x80 ∧ b < 0x80 := by
  simp only [UInt8.lt_iff_toNat_lt, UInt8.toNat_or]
  constructor
  · intro h
    exact ⟨Nat.lt_of_le_of_lt Nat.left_le_or h, Nat.lt_of_le_of_lt Nat.right_le_or h⟩
  · rintro ⟨ha, hb⟩
    exact Nat.or_lt_two_pow (n := 7) ha hb

theorem foldl_or_lt (block : Bytes) (acc : UInt8) :
    block.foldl (· ||| ·) acc < 0x80 ↔ acc < 0x80 ∧ isAscii block = true := by
  induction block generalizing acc with
  | nil => simp [isAscii]
  | cons x block ih =>
    rw [List.foldl_cons, ih, or_lt_high, isAscii, isAscii, List.all_cons, Bool.and_eq_true,
      decide_eq_true_iff, and_assoc]

theorem high_eq_false (block : Bytes) : high block = false ↔ isAscii block = true := by
  rw [high, decide_eq_false_iff_not, ge_iff_le, UInt8.not_le, foldl_or_lt]
  exact and_iff_right (by decide)

theorem isAscii_append {a b : Bytes} :
    isAscii (a ++ b) = true ↔ isAscii a = true ∧ isAscii b = true := by
  rw [isAscii, List.all_append, Bool.and_eq_true]
  rfl

theorem isAscii_drop {b : Bytes} (h : isAscii b = true) (n : Nat) : isAscii (b.drop n) = true := by
  rw [← List.take_append_drop n b] at h
  exact (isAscii_append.mp h).2

/-- Each byte of the mask stands over a byte of the block. -/
theorem readLe_and_mask (block : Bytes) :
    readLe block &&& readLe (List.replicate block.length 0x80) = 0 ↔ isAscii block = true := by
  induction block with
  | nil => exact ⟨fun _ => rfl, fun _ => rfl⟩
  | cons x block ih =>
    have hx : x.toNat < 2 ^ 8 := x.toNat_lt
    have hbit : x.toNat &&& 0x80 = 0 ↔ x < 0x80 := by
      have hbytes : ∀ n < 256, n &&& 0x80 = 0 ↔ n < 0x80 := by decide +kernel
      rw [UInt8.lt_iff_toNat_lt]
      exact hbytes _ hx
    have hsplit (p q a b : Nat) (ha : a < 2 ^ 8) (hb : b < 2 ^ 8) :
        (a + 256 * p) &&& (b + 256 * q) = 0 ↔ a &&& b = 0 ∧ p &&& q = 0 := by
      have hmod : ((a + 256 * p) &&& (b + 256 * q)) % 2 ^ 8 = a &&& b := by
        rw [Nat.and_mod_two_pow]
        congr 1 <;> omega
      have hdiv : ((a + 256 * p) &&& (b + 256 * q)) / 2 ^ 8 = p &&& q := by
        rw [Nat.and_div_two_pow]
        congr 1 <;> omega
      omega
    rw [readLe, List.length_cons, List.replicate_succ, readLe,
      hsplit _ _ _ _ hx (by decide), ih, isAscii, isAscii, List.all_cons, Bool.and_eq_true,
      decide_eq_true_iff]
    exact and_congr_left fun _ => hbit

/-- Two loads that overlap or meet see every byte of a string. -/
theorem isAscii_of_loads {b : Bytes} {k : Nat} (hk : k ≤ b.length) (hb : b.length ≤ 2 * k) :
    (readLe (b.take k) ||| readLe (b.drop (b.length - k))) &&&
      readLe (List.replicate k 0x80) = 0 ↔ isAscii b = true := by
  have hfirst := readLe_and_mask (b.take k)
  have hlast := readLe_and_mask (b.drop (b.length - k))
  rw [List.length_take, Nat.min_eq_left hk] at hfirst
  rw [List.length_drop, Nat.sub_sub_self hk] at hlast
  rw [Nat.and_or_distrib_right, Nat.or_eq_zero_iff, hfirst, hlast]
  constructor
  · rintro ⟨hlo, hhi⟩
    have hrest := isAscii_drop hhi (k - (b.length - k))
    rw [List.drop_drop, Nat.add_sub_cancel' (by omega)] at hrest
    rw [← List.take_append_drop k b]
    exact isAscii_append.mpr ⟨hlo, hrest⟩
  · intro h
    refine ⟨?_, isAscii_drop h _⟩
    rw [← List.take_append_drop k b] at h
    exact (isAscii_append.mp h).1

/-! ## The check is std's -/

theorem sixteens_eq {b front : Bytes} (hb : 16 ≤ b.length) {n : Nat} {rest : Bytes}
    (hfront : b = front ++ rest) (hn : rest.length < n) :
    sixteens b n rest = utf8ValidateSlice rest := by
  induction n generalizing front rest with
  | zero => exact absurd hn (Nat.not_lt_zero _)
  | succ n ih =>
    rw [sixteens]
    by_cases hlong : 16 ≤ rest.length
    · rw [if_pos hlong]
      by_cases hhigh : high (rest.take 16) = true
      · rw [if_pos hhigh]
      · have hascii := (high_eq_false _).mp (Bool.eq_false_iff.mpr hhigh)
        have hnext : b = (front ++ rest.take 16) ++ rest.drop 16 := by
          rw [List.append_assoc, List.take_append_drop, hfront]
        rw [if_neg hhigh, ih hnext (by rw [List.length_drop]; omega),
          ← utf8ValidateSlice_append hascii, List.take_append_drop]
    · rw [if_neg hlong]
      by_cases htail : rest ≠ [] ∧ high (b.drop (b.length - 16)) = true
      · rw [if_pos htail]
      · rw [if_neg htail]
        refine (utf8ValidateSlice_of_isAscii ?_).symm
        by_cases hnil : rest = []
        · rw [hnil]
          rfl
        · have hlow := (high_eq_false _).mp (Bool.eq_false_iff.mpr fun h => htail ⟨hnil, h⟩)
          have hdrop := isAscii_drop hlow (16 - rest.length)
          have hlength : b.length = front.length + rest.length := by
            rw [hfront, List.length_append]
          rw [List.drop_drop, show b.length - 16 + (16 - rest.length) = front.length by omega,
            hfront, List.drop_left] at hdrop
          exact hdrop

theorem sixtyFours_eq {b front : Bytes} (hb : 16 ≤ b.length) {n : Nat} {rest : Bytes}
    (hfront : b = front ++ rest) (hn : rest.length < n) :
    sixtyFours b n rest = utf8ValidateSlice rest := by
  induction n generalizing front rest with
  | zero => exact absurd hn (Nat.not_lt_zero _)
  | succ n ih =>
    rw [sixtyFours]
    by_cases hlong : 64 ≤ rest.length
    · rw [if_pos hlong]
      by_cases hhigh : high (rest.take 64) = true
      · rw [if_pos hhigh]
      · have hascii := (high_eq_false _).mp (Bool.eq_false_iff.mpr hhigh)
        have hnext : b = (front ++ rest.take 64) ++ rest.drop 64 := by
          rw [List.append_assoc, List.take_append_drop, hfront]
        rw [if_neg hhigh, ih hnext (by rw [List.length_drop]; omega),
          ← utf8ValidateSlice_append hascii, List.take_append_drop]
    · rw [if_neg hlong, sixteens_eq hb hfront (Nat.lt_succ_self _)]

/-- The check answers what std's validator answers. -/
theorem validUtf8_eq (b : Bytes) : validUtf8 b = utf8ValidateSlice b := by
  have hloads {k mask : Nat} (hmask : readLe (List.replicate k 0x80) = mask) (hk : k ≤ b.length)
      (hb : b.length ≤ 2 * k) :
      (if (readLe (b.take k) ||| readLe (b.drop (b.length - k))) &&& mask = 0 then true
        else utf8ValidateSlice b) = utf8ValidateSlice b := by
    subst hmask
    by_cases hascii : isAscii b = true
    · rw [if_pos ((isAscii_of_loads hk hb).mpr hascii), utf8ValidateSlice_of_isAscii hascii]
    · rw [if_neg (mt (isAscii_of_loads hk hb).mp hascii)]
  rw [validUtf8]
  by_cases hshort : b.length ≤ 16
  · rw [if_pos hshort]
    by_cases height : 8 ≤ b.length
    · rw [if_pos height]
      exact hloads rfl height hshort
    · rw [if_neg height]
      by_cases hfour : 4 ≤ b.length
      · rw [if_pos hfour]
        exact hloads rfl hfour (by omega)
      · rw [if_neg hfour]
        by_cases hhigh : high b = true
        · rw [if_pos hhigh]
        · rw [if_neg hhigh]
          exact (utf8ValidateSlice_of_isAscii
            ((high_eq_false b).mp (Bool.eq_false_iff.mpr hhigh))).symm
  · rw [if_neg hshort]
    exact sixtyFours_eq (by omega) (List.nil_append b).symm (Nat.lt_succ_self _)

end Nilo.Proto
