import Mathlib.Algebra.GroupWithZero.Nat
import Nilo.Lib.Window
import Nilo.Http2.Frame

/-!
# What a handler lends (`Lent` in `http/outbound.zig`)

A piece of a stream as a writer's drain is handed it: the bytes its buffer held, then slices, the
last of them repeated. The connection writes it in as many frames as the windows allow, each a range
of it, and whatever the ranges are they make the piece (`piece_of_writes`).
-/

namespace Nilo.Http2

open Lib (window)

structure Lent where
  buffered : Bytes
  data : List Bytes
  splat : Nat
  /-- The bytes of all of it. -/
  len : Nat
deriving DecidableEq, Repr

namespace Lent

/-- Nothing where the length overflows its integer. -/
def of (buffered : Bytes) (data : List Bytes) (splat : Nat) : Option Lent :=
  let total := match data.getLast? with
    | none => buffered.length
    | some last =>
      (data.dropLast.foldl (fun total slice => total + slice.length) buffered.length) +
        last.length * splat
  if total < 2 ^ 64 then some ⟨buffered, data, splat, total⟩ else none

/-- The slices but the last: what is written of them, and what is left to skip and to write. -/
def writeSlices : List Bytes → Nat → Nat → Bytes × Nat × Nat
  | [], skip, left => ([], skip, left)
  | slice :: rest, skip, left =>
    if left = 0 then ([], skip, left)
    else if slice.length ≤ skip then writeSlices rest (skip - slice.length) left
    else
      let m := min left (slice.length - skip)
      let r := writeSlices rest 0 (left - m)
      (window slice skip m ++ r.1, r.2)

/-- The last slice, over and over. -/
def writeSplat (pattern : Bytes) : (fuel : Nat) → (place left : Nat) → Bytes
  | 0, _, _ => []
  | fuel + 1, place, left =>
    if left = 0 then []
    else
      let i := place % pattern.length
      let m := min left (pattern.length - i)
      window pattern i m ++ writeSplat pattern fuel (place + m) (left - m)

/-- `n` bytes of it from `start`, or nothing when it has no such range. -/
def write (self : Lent) (start n : Nat) : Option Bytes :=
  if self.len < start + n then none
  else
    let m := min n (self.buffered.length - start)
    let (head, skip, left) :=
      if start < self.buffered.length then (window self.buffered start m, 0, n - m)
      else ([], start - self.buffered.length, n)
    match self.data.getLast? with
    | none => some head
    | some pattern =>
      if left = 0 then some head
      else
        let r := writeSlices self.data.dropLast skip left
        if r.2.2 = 0 ∨ pattern.length = 0 then some (head ++ r.1)
        else some (head ++ r.1 ++ writeSplat pattern r.2.2 r.2.1 r.2.2)

/-- What is lent, in one piece. -/
def bytes (self : Lent) : Bytes :=
  self.buffered ++ (self.data.dropLast.flatten ++
    (List.replicate self.splat (self.data.getLast?.getD [])).flatten)

/-- One range after the other, from `start` on. -/
def writes (self : Lent) : (start : Nat) → List Nat → Option Bytes
  | _, [] => some []
  | start, n :: rest => do
    let piece ← self.write start n
    let more ← self.writes (start + n) rest
    return piece ++ more

/-! ## One range -/

variable {buffered : Bytes} {data : List Bytes} {splat : Nat} {lent : Lent}

theorem foldl_length (slices : List Bytes) (n : Nat) :
    slices.foldl (fun total slice => total + slice.length) n = n + slices.flatten.length := by
  induction slices generalizing n with
  | nil => rfl
  | cons slice rest ih =>
    rw [List.foldl_cons, ih, List.flatten_cons, List.length_append, Nat.add_assoc]

theorem length_flatten_replicate (k : Nat) (p : Bytes) :
    (List.replicate k p).flatten.length = p.length * k := by
  induction k with
  | zero => rfl
  | succ k ih => rw [List.replicate_succ, List.flatten_cons, List.length_append, ih, Nat.mul_succ,
      Nat.add_comm]

theorem of_eq_some (h : of buffered data splat = some lent) :
    lent.buffered = buffered ∧ lent.data = data ∧ lent.splat = splat ∧
      lent.bytes.length = lent.len := by
  rw [of] at h
  split_ifs at h
  obtain rfl := Option.some.inj h
  refine ⟨rfl, rfl, rfl, ?_⟩
  cases hlast : data.getLast? with
  | none =>
    obtain rfl := List.getLast?_eq_none_iff.1 hlast
    simp [bytes]
  | some last =>
    simp only [bytes, hlast, Option.getD_some, List.length_append, foldl_length,
      length_flatten_replicate, Nat.add_assoc]

theorem writeSlices_spec (slices : List Bytes) (skip left : Nat) :
    (writeSlices slices skip left).1 = window slices.flatten skip left ∧
      (writeSlices slices skip left).2.2 = left - (slices.flatten.length - skip) ∧
      (0 < (writeSlices slices skip left).2.2 →
        (writeSlices slices skip left).2.1 = skip - slices.flatten.length) := by
  induction slices generalizing skip left with
  | nil => simp [writeSlices, window]
  | cons slice rest ih =>
    rw [writeSlices, List.flatten_cons, Lib.window_append, List.length_append]
    split_ifs with hdone hskip
    · subst hdone
      simp [window]
    · obtain ⟨hbytes, hleft, hskip'⟩ := ih (skip - slice.length) left
      have hnone : window slice skip left = [] := by
        rw [window, List.drop_eq_nil_of_le hskip, List.take_nil]
      refine ⟨?_, ?_, fun hpos => ?_⟩
      · rw [hbytes, hnone, Nat.sub_eq_zero_of_le hskip]
        rfl
      · rw [hleft]
        omega
      · rw [hskip' hpos]
        omega
    · obtain ⟨hbytes, hleft, hskip'⟩ := ih 0 (left - min left (slice.length - skip))
      have hmin : window slice skip (min left (slice.length - skip)) = window slice skip left := by
        rw [window, window, ← List.length_drop, List.take_eq_take_iff]
        omega
      refine ⟨?_, ?_, fun hpos => ?_⟩
      · show window slice skip _ ++ _ = _
        rw [hbytes, hmin, Nat.sub_eq_zero_of_le (by omega : skip ≤ slice.length)]
        congr 2
        omega
      · show (writeSlices rest 0 _).2.2 = _
        rw [hleft]
        omega
      · rw [hskip' hpos]
        omega

theorem writeSplat_eq {pattern : Bytes} (hpattern : 0 < pattern.length) {k fuel place left : Nat}
    (hfuel : left ≤ fuel) (hfits : place + left ≤ pattern.length * k) :
    writeSplat pattern fuel place left = window (List.replicate k pattern).flatten place left := by
  induction fuel generalizing place left with
  | zero =>
    obtain rfl : left = 0 := by omega
    rfl
  | succ fuel ih =>
    rw [writeSplat]
    split_ifs with hdone
    · subst hdone
      rfl
    · have hlt : place % pattern.length < pattern.length := Nat.mod_lt _ hpattern
      obtain ⟨m, hm⟩ : ∃ m, m = min left (pattern.length - place % pattern.length) := ⟨_, rfl⟩
      have hsplit : left = m + (left - m) := by omega
      simp only [← hm]
      have hcopy := @Lib.window_flatten_replicate _ pattern k place m (by omega) (by omega)
      rw [ih (by omega) (by omega), ← hcopy]
      conv_rhs => rw [hsplit, Lib.window_add]

/-- A range is written as it stands in the piece. -/
theorem write_eq (h : of buffered data splat = some lent) {start n : Nat}
    (hin : start + n ≤ lent.len) : lent.write start n = some (window lent.bytes start n) := by
  obtain ⟨-, -, -, hlen⟩ := of_eq_some h
  rw [write, if_neg (Nat.not_lt_of_le hin), bytes, Lib.window_append]
  obtain ⟨head, skip, left, hstart, hhead, hskip, hleft⟩ : ∃ head skip left,
      (if start < lent.buffered.length then
          (window lent.buffered start (min n (lent.buffered.length - start)), 0,
            n - min n (lent.buffered.length - start))
        else ([], start - lent.buffered.length, n)) = (head, skip, left) ∧
      head = window lent.buffered start n ∧ (0 < left → skip = start - lent.buffered.length) ∧
      left = n - (lent.buffered.length - start) := by
    split_ifs with hbuffered
    · refine ⟨_, _, _, rfl, ?_, fun hpos => ?_, by omega⟩
      · rw [window, window, ← List.length_drop, List.take_eq_take_iff]
        omega
      · omega
    · refine ⟨_, _, _, rfl, ?_, fun _ => rfl, by omega⟩
      rw [window, List.drop_eq_nil_of_le (Nat.le_of_not_lt hbuffered), List.take_nil]
  simp only [hstart]
  rw [hhead, ← hleft]
  cases hlast : lent.data.getLast? with
  | none =>
    obtain hnil := List.getLast?_eq_none_iff.1 hlast
    simp [hnil, window]
  | some pattern =>
    by_cases hdone : left = 0
    · simp [hdone, window]
    · have hskip := hskip (Nat.pos_of_ne_zero hdone)
      obtain ⟨hbytes, hleft', hskip'⟩ := writeSlices_spec lent.data.dropLast skip left
      have htotal : lent.buffered.length + (lent.data.dropLast.flatten.length +
          pattern.length * lent.splat) = lent.len := by
        rw [← hlen, bytes, hlast, List.length_append, List.length_append, length_flatten_replicate]
        rfl
      rw [Lib.window_append, ← hskip]
      simp only [if_neg hdone, Option.getD_some, hbytes]
      by_cases hover : (writeSlices lent.data.dropLast skip left).2.2 = 0
      · rw [if_pos (.inl hover), ← hleft', hover]
        simp [window]
      · have hskip' := hskip' (Nat.pos_of_ne_zero hover)
        have hpattern : 0 < pattern.length := by
          by_contra hempty
          have hzero : pattern.length = 0 := by omega
          rw [hzero] at htotal
          omega
        have hsplat := @writeSplat_eq pattern hpattern lent.splat
          (writeSlices lent.data.dropLast skip left).2.2 (skip - lent.data.dropLast.flatten.length)
          (writeSlices lent.data.dropLast skip left).2.2 (Nat.le_refl _) (by omega)
        rw [if_neg (not_or.2 ⟨hover, Nat.ne_of_gt hpattern⟩), hskip', hsplat, ← hleft',
          List.append_assoc]

/-- **Whatever consecutive ranges it is written in, they make the piece.** -/
theorem piece_of_writes (h : of buffered data splat = some lent) {ranges : List Nat}
    (hall : ranges.sum = lent.len) :
    lent.writes 0 ranges = some (buffered ++ (data.dropLast.flatten ++
      (List.replicate splat (data.getLast?.getD [])).flatten)) := by
  obtain ⟨hbuffered, hdata, hsplat, hlen⟩ := of_eq_some h
  have hfrom {start : Nat} (hsum : start + ranges.sum ≤ lent.len) :
      lent.writes start ranges = some (window lent.bytes start ranges.sum) := by
    clear hall
    induction ranges generalizing start with
    | nil =>
      rw [writes]
      simp [window]
    | cons n rest ih =>
      rw [List.sum_cons] at hsum ⊢
      rw [writes, write_eq h (by omega), ih (by omega), Lib.window_add]
      rfl
  rw [hfrom (by omega), hall, ← hlen, window, List.drop_zero, List.take_length, bytes, hbuffered,
    hdata, hsplat]

theorem piece_of_writes_example :
    (Lent.mk [1] [[2, 3], [4, 5]] 2 7).writes 0 [2, 0, 3, 2] = some [1, 2, 3, 4, 5, 4, 5] :=
  piece_of_writes (rfl : of [1] [[2, 3], [4, 5]] 2 = some ⟨[1], [[2, 3], [4, 5]], 2, 7⟩) rfl

end Lent

end Nilo.Http2
