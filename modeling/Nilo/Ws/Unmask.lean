import Nilo.Ws.Frame
import Nilo.Lib.Window

/-!
# Masking in wide steps (`core/ws_frame.zig`)

`unmaskInto` as the code runs it: the key is turned by the offset, and what is to be unmasked is
taken in blocks of 128, 32, 8 and 4 bytes against the key laid out that wide, then byte by byte. It
may write over what it reads. Each step leaves a front that is unmasked and a rest that is as it was
(`Unmasked`), and every block starts at a multiple of four, which is why one layout of the key fits
them all; so the whole of it is the byte loop (`unmaskWide_eq`).
-/

namespace Nilo.Ws

open Text (Bytes)
open Lib (window patch)

/-- The widths the unmasking steps down through. -/
def unmaskTiers : List Nat := [128, 32, 8, 4]

/-- The key as the first byte meets it. -/
def rotate (key : Bytes) (offset : Nat) : Bytes :=
  (List.range 4).map fun k => key.getD (((k + offset) % 2 ^ 64) &&& 3) 0

/-- `std.simd.repeat` -/
def patternOf (lanes : Nat) (rotated : Bytes) : Bytes :=
  (List.range lanes).map fun j => rotated.getD (j % 4) 0

/-- What is read while `dst` is written: a source beside it, or `dst` itself. -/
def readOf (src : Option Bytes) (dst : Bytes) : Bytes := src.getD dst

/-- The blocks of one width, as long as there is one. -/
def unmaskBlocks (src : Option Bytes) (pattern : Bytes) (lanes : Nat) : Nat → Bytes → Nat → Bytes × Nat
  | 0, dst, i => (dst, i)
  | fuel + 1, dst, i =>
    if i + lanes ≤ dst.length then
      let block := window (readOf src dst) i lanes
      unmaskBlocks src pattern lanes fuel (patch dst i (List.zipWith (· ^^^ ·) block pattern)) (i + lanes)
    else (dst, i)

/-- Widest first, and each width only where there is work its size. -/
def unmaskSteps (src : Option Bytes) (rotated : Bytes) : List Nat → Bytes → Nat → Bytes × Nat
  | [], dst, i => (dst, i)
  | lanes :: rest, dst, i =>
    let (dst, i) :=
      if lanes ≤ dst.length - i then
        unmaskBlocks src (patternOf lanes rotated) lanes dst.length dst i
      else (dst, i)
    unmaskSteps src rotated rest dst i

/-- Three bytes at the most. -/
def unmaskTail (src : Option Bytes) (rotated : Bytes) : Nat → Bytes → Nat → Bytes
  | 0, dst, _ => dst
  | fuel + 1, dst, i =>
    if i < dst.length then
      unmaskTail src rotated fuel
        (dst.set i ((readOf src dst).getD i 0 ^^^ rotated.getD (i &&& 3) 0)) (i + 1)
    else dst

/-- `unmaskInto`, out of a source beside `dst` or, where there is none, in place. -/
def unmaskWide (src : Option Bytes) (dst key : Bytes) (offset : Nat) : Bytes :=
  let rotated := rotate key offset
  let (dst, i) := unmaskSteps src rotated unmaskTiers dst 0
  unmaskTail src rotated dst.length dst i

/-- A payload that arrived in pieces, each unmasked in place. -/
def unmaskPieces (key : Bytes) : Nat → List Bytes → Bytes
  | _, [] => []
  | offset, piece :: rest =>
    unmaskWide none piece key offset ++ unmaskPieces key (offset + piece.length) rest

/-! ## The key -/

theorem rotate_getD (key : Bytes) (offset i : Nat) :
    (rotate key offset).getD (i % 4) 0 = key.getD ((i + offset) % 4) 0 := by
  have hlt : i % 4 < 4 := Nat.mod_lt i (by decide)
  have hand : ((i % 4 + offset) % 2 ^ 64) &&& 3 = (i + offset) % 4 := by
    rw [show (3 : Nat) = 2 ^ 2 - 1 from rfl, Nat.and_two_pow_sub_one_eq_mod]
    omega
  rw [rotate, List.getD_eq_getElem?_getD, List.getElem?_map, List.getElem?_range hlt,
    Option.map_some, Option.getD_some, hand]

@[simp] theorem length_patternOf (lanes : Nat) (rotated : Bytes) :
    (patternOf lanes rotated).length = lanes := by
  rw [patternOf, List.length_map, List.length_range]

/-- A block that starts at a multiple of four meets the key where the bytes do. -/
theorem patternOf_getD {lanes i j : Nat} {key : Bytes} {offset : Nat} (hi : i % 4 = 0)
    (hj : j < lanes) :
    (patternOf lanes (rotate key offset))[j]? = some (key.getD ((i + j + offset) % 4) 0) := by
  rw [patternOf, List.getElem?_map, List.getElem?_range hj, Option.map_some, rotate_getD]
  congr 2
  omega

/-! ## A front that is unmasked -/

/-- The first `i` bytes are unmasked, and the rest is as it was. -/
structure Unmasked (source dst key : Bytes) (offset : Nat) (now : Bytes) (i : Nat) : Prop where
  length : now.length = dst.length
  le : i ≤ dst.length
  front : ∀ j < i, now[j]? = some (source.getD j 0 ^^^ key.getD ((j + offset) % 4) 0)
  rest : ∀ j, i ≤ j → now[j]? = dst[j]?

variable {src : Option Bytes} {dst key now : Bytes} {offset i : Nat}

theorem Unmasked.start : Unmasked (readOf src dst) dst key offset dst 0 :=
  ⟨rfl, Nat.zero_le _, fun _ hj => absurd hj (Nat.not_lt_zero _), fun _ _ => rfl⟩

/-- What is still to be read is what there was to read. -/
theorem Unmasked.read (h : Unmasked (readOf src dst) dst key offset now i) {j : Nat} (hj : i ≤ j) :
    (readOf src now)[j]? = (readOf src dst)[j]? := by
  cases src with
  | some s => rfl
  | none => exact h.rest j hj

theorem Unmasked.block (h : Unmasked (readOf src dst) dst key offset now i) (hi : i % 4 = 0)
    {lanes : Nat} (hsrc : (readOf src dst).length = dst.length) (hroom : i + lanes ≤ now.length) :
    Unmasked (readOf src dst) dst key offset
      (patch now i (List.zipWith (· ^^^ ·) (window (readOf src now) i lanes)
        (patternOf lanes (rotate key offset)))) (i + lanes) := by
  have hlength := h.length
  have hread : (readOf src now).length = now.length := by
    cases src with
    | some s => exact hsrc.trans h.length.symm
    | none => rfl
  have hblock : (List.zipWith (· ^^^ ·) (window (readOf src now) i lanes)
      (patternOf lanes (rotate key offset))).length = lanes := by
    rw [List.length_zipWith, length_patternOf, Lib.length_window (by omega), Nat.min_self]
  refine ⟨?_, by omega, fun j hj => ?_, fun j hj => ?_⟩
  · rw [Lib.length_patch (by omega), h.length]
  · rw [Lib.getElem?_patch (by omega), hblock]
    split_ifs with hin
    · obtain ⟨k, rfl⟩ := Nat.exists_eq_add_of_le hin.1
      have hk : k < lanes := by omega
      have hbyte : (readOf src dst)[i + k]? = some ((readOf src dst).getD (i + k) 0) := by
        rw [List.getD_eq_getElem?_getD, List.getElem?_eq_getElem (by omega), Option.getD_some]
      rw [Nat.add_sub_cancel_left, List.getElem?_zipWith, patternOf_getD hi hk,
        Lib.getElem?_window, if_pos hk, h.read (Nat.le_add_right i k), hbyte]
    · exact h.front j (by omega)
  · rw [Lib.getElem?_patch (by omega), hblock, if_neg (by omega)]
    exact h.rest j (by omega)

theorem unmaskBlocks_spec {lanes fuel : Nat} (hlanes : lanes % 4 = 0)
    (hsrc : (readOf src dst).length = dst.length)
    (h : Unmasked (readOf src dst) dst key offset now i) (hi : i % 4 = 0) :
    Unmasked (readOf src dst) dst key offset
        (unmaskBlocks src (patternOf lanes (rotate key offset)) lanes fuel now i).1
        (unmaskBlocks src (patternOf lanes (rotate key offset)) lanes fuel now i).2 ∧
      (unmaskBlocks src (patternOf lanes (rotate key offset)) lanes fuel now i).2 % 4 = 0 := by
  induction fuel generalizing now i with
  | zero => exact ⟨h, hi⟩
  | succ fuel ih =>
    rw [unmaskBlocks]
    split_ifs with hroom
    · exact ih (h.block hi hsrc hroom) (by omega)
    · exact ⟨h, hi⟩

theorem unmaskSteps_spec {tiers : List Nat} (htiers : ∀ lanes ∈ tiers, lanes % 4 = 0)
    (hsrc : (readOf src dst).length = dst.length)
    (h : Unmasked (readOf src dst) dst key offset now i) (hi : i % 4 = 0) :
    Unmasked (readOf src dst) dst key offset
      (unmaskSteps src (rotate key offset) tiers now i).1
      (unmaskSteps src (rotate key offset) tiers now i).2 := by
  induction tiers generalizing now i with
  | nil => exact h
  | cons lanes rest ih =>
    have hlanes := htiers lanes List.mem_cons_self
    have hrest : ∀ lanes ∈ rest, lanes % 4 = 0 := fun l hl => htiers l (List.mem_cons_of_mem _ hl)
    rw [unmaskSteps]
    split_ifs with hwork
    · obtain ⟨hdone, hmul⟩ := @unmaskBlocks_spec src dst key now offset i lanes now.length hlanes hsrc h hi
      exact ih hrest hdone hmul
    · exact ih hrest h hi

theorem Unmasked.byte (h : Unmasked (readOf src dst) dst key offset now i)
    (hsrc : (readOf src dst).length = dst.length) (hlt : i < now.length) :
    Unmasked (readOf src dst) dst key offset
      (now.set i ((readOf src now).getD i 0 ^^^ (rotate key offset).getD (i &&& 3) 0)) (i + 1) := by
  have hlength := h.length
  have hand : i &&& 3 = i % 4 := Nat.and_two_pow_sub_one_eq_mod i 2
  have hbyte : (readOf src now).getD i 0 = (readOf src dst).getD i 0 := by
    rw [List.getD_eq_getElem?_getD, List.getD_eq_getElem?_getD, h.read (Nat.le_refl i)]
  refine ⟨by rw [List.length_set, h.length], by omega, fun j hj => ?_, fun j hj => ?_⟩
  · rw [List.getElem?_set]
    split_ifs with hij
    · rw [hand, rotate_getD, hbyte, hij]
    · exact h.front j (by omega)
  · rw [List.getElem?_set, if_neg (by omega)]
    exact h.rest j (by omega)

theorem unmaskTail_spec {fuel : Nat} (hsrc : (readOf src dst).length = dst.length)
    (h : Unmasked (readOf src dst) dst key offset now i) (hfuel : dst.length ≤ i + fuel) :
    Unmasked (readOf src dst) dst key offset
      (unmaskTail src (rotate key offset) fuel now i) dst.length := by
  induction fuel generalizing now i with
  | zero =>
    have hend : i = dst.length := Nat.le_antisymm h.le hfuel
    rw [← hend]
    exact h
  | succ fuel ih =>
    rw [unmaskTail]
    split_ifs with hlt
    · exact ih (h.byte hsrc hlt) (by omega)
    · have hend : i = dst.length := by
        have hle := h.le
        have hlength := h.length
        omega
      rw [← hend]
      exact h

/-! ## The whole of it -/

/-- The wide steps come to the byte loop, beside the source or over it. -/
theorem unmaskWide_eq (hsrc : (readOf src dst).length = dst.length) :
    unmaskWide src dst key offset = unmaskInto (readOf src dst) key offset := by
  have hsteps := @unmaskSteps_spec src dst key dst offset 0 unmaskTiers (by decide) hsrc .start rfl
  have hall := @unmaskTail_spec src dst key _ offset _
    (unmaskSteps src (rotate key offset) unmaskTiers dst 0).1.length hsrc hsteps
    (by rw [hsteps.length]; omega)
  refine List.ext_getElem? fun j => ?_
  rw [unmaskInto_eq, List.getElem?_mapIdx]
  rcases Nat.lt_or_ge j dst.length with hj | hj
  · have hbyte : (readOf src dst)[j]? = some ((readOf src dst).getD j 0) := by
      rw [List.getD_eq_getElem?_getD, List.getElem?_eq_getElem (by omega), Option.getD_some]
    rw [hbyte]
    exact hall.front j hj
  · have hnone : (readOf src dst)[j]? = none := List.getElem?_eq_none_iff.2 (by omega)
    rw [hnone]
    exact (hall.rest j hj).trans (List.getElem?_eq_none_iff.2 hj)

theorem unmaskPieces_eq (pieces : List Bytes) (key : Bytes) (offset : Nat) :
    unmaskPieces key offset pieces = unmaskInto pieces.flatten key offset := by
  induction pieces generalizing offset with
  | nil => rfl
  | cons piece rest ih =>
    rw [unmaskPieces, ih, List.flatten_cons, unmaskInto_append, unmaskWide_eq rfl]
    rfl

theorem unmaskInto_twice (src key : Bytes) (offset : Nat) :
    unmaskInto (unmaskInto src key offset) key offset = src := by
  refine List.ext_getElem? fun j => ?_
  rw [unmaskInto_eq, unmaskInto_eq, List.getElem?_mapIdx, List.getElem?_mapIdx, Option.map_map]
  cases src[j]? with
  | none => rfl
  | some b =>
    rw [Option.map_some, Function.comp_apply, UInt8.xor_assoc, UInt8.xor_self, UInt8.xor_zero]

/-- **Unmasking in wide steps is the loop byte by byte**: beside the source or over it, in one piece
or in any pieces with the offset running on, and twice gives the payload back. -/
theorem unmaskWide_bytes (src dst key : Bytes) (offset : Nat) (hlen : src.length = dst.length) :
    let out := unmaskWide (some src) dst key offset
    out.length = src.length ∧
      (∀ i < src.length, out[i]? = some (src.getD i 0 ^^^ key.getD ((offset + i) % 4) 0)) ∧
      unmaskWide none src key offset = out ∧
      (∀ pieces : List Bytes, pieces.flatten = src → unmaskPieces key offset pieces = out) ∧
      unmaskWide none out key offset = src := by
  intro out
  have hout : out = unmaskInto src key offset := unmaskWide_eq hlen
  rw [hout]
  refine ⟨length_unmaskInto src key offset, fun i hi => ?_, unmaskWide_eq rfl, ?_, ?_⟩
  · have hbyte : src[i]? = some (src.getD i 0) := by
      rw [List.getD_eq_getElem?_getD, List.getElem?_eq_getElem hi, Option.getD_some]
    rw [unmaskInto_eq, List.getElem?_mapIdx, hbyte, Option.map_some, Nat.add_comm]
  · rintro pieces rfl
    exact unmaskPieces_eq pieces key offset
  · rw [unmaskWide_eq rfl]
    exact unmaskInto_twice src key offset

/-- Six bytes from the middle of a message, in one step of four and a tail of two. -/
theorem unmaskWide_bytes_six :
    unmaskWide none (unmaskWide (some [1, 2, 3, 4, 5, 6]) [0, 0, 0, 0, 0, 0] [7, 8, 9, 10] 3)
      [7, 8, 9, 10] 3 = [1, 2, 3, 4, 5, 6] :=
  (unmaskWide_bytes [1, 2, 3, 4, 5, 6] [0, 0, 0, 0, 0, 0] [7, 8, 9, 10] 3 rfl).2.2.2.2

end Nilo.Ws
