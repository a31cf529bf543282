import Nilo.Http.Scan
import Nilo.Http1.Chunked

/-!
# Where a head ends (`readHead`, `findEndOfHead` in `http/http1.zig`)

A head comes in over as many reads as the connection cares to make. `readHead` looks for the blank
line after each of them, from a little before where it got to, and drops an empty line in front of
the request line. `plainHead` is the same over a stream that is there as a whole.

`readHead_plain_iff` says when the two agree: always, but where a read ends between the CR and the
LF of a second empty line, which is then dropped as well.
-/

namespace Nilo.Http1

open Text (Bytes)
open Scan (lanes positionsOf)
open Lib (Bits.walk Bits.positions)

def cr : UInt8 := 13
def lf : UInt8 := 10

/-! ## The blank line -/

/-- Whether the line behind a newline is empty, as a turn of the loop asks it. -/
def endAt (buf : Bytes) (nl : Nat) : Option Nat :=
  if buf[nl + 1]? = some lf then some (nl + 2)
  else if buf[nl + 1]? = some cr ∧ buf[nl + 2]? = some lf then some (nl + 3)
  else none

/-- The loop over the blocks; each turn but the last goes a block on. -/
def findEndFrom (buf : Bytes) : Nat → Nat → Option Nat
  | 0, _ => none
  | n + 1, i =>
    if i < buf.length then
      match Bits.walk lanes (fun k => endAt buf (i + k)) (positionsOf buf i lf) with
      | some stop => some stop
      | none => findEndFrom buf n (i + lanes)
    else none

/-- The index just past the blank line that ends the head. Starts at `start`, which the caller
advances as the head arrives in pieces. -/
def findEndOfHead (buf : Bytes) (start : Nat) : Option Nat := findEndFrom buf (buf.length + 1) start

/-- The blank line at the front, with the newline before it. -/
def blankLine (b : Bytes) : Option Nat :=
  if b[0]? ≠ some lf then none
  else if b[1]? = some lf then some 2
  else if b[1]? = some cr ∧ b[2]? = some lf then some 3
  else none

/-- The same question, asked one byte at a time (`http/fuzz.zig`). -/
def refEndOfHead : Bytes → Option Nat
  | [] => none
  | b :: rest =>
    match blankLine (b :: rest) with
    | some n => some n
    | none => (refEndOfHead rest).map (· + 1)

/-! ## The reader -/

inductive HeadError where
  | headTooLong
  | endOfStream
  | readFailed
deriving DecidableEq, Repr

def Ending.headError : Ending → HeadError
  | .endOfStream => .endOfStream
  | .readFailed => .readFailed

/-- What is in the buffer, and what each of the next reads would bring. -/
structure Reader where
  buffered : Bytes
  coming : List Bytes
deriving DecidableEq, Repr

/-- All the bytes there are still to come. -/
def Reader.stream (r : Reader) : Bytes := r.buffered ++ r.coming.flatten

def Reader.toss (r : Reader) (n : Nat) : Reader := { r with buffered := r.buffered.drop n }

/-- A read brings no more than there is room for. -/
def Reader.fillMore (src : Source) (r : Reader) : Except HeadError Reader :=
  match r.coming with
  | [] => .error src.ending.headError
  | chunk :: later =>
    let room := src.room - r.buffered.length
    .ok ⟨r.buffered ++ chunk.take room,
      if chunk.length ≤ room then later else chunk.drop room :: later⟩

/-- How many bytes an empty line in front of the request line is. -/
def emptyLine : Bytes → Nat
  | 10 :: _ => 1
  | 13 :: 10 :: _ => 2
  | _ => 0

/-- `leading_checked`: a CR alone is waited on. -/
def checkedAfter (buf : Bytes) : Bool :=
  buf.length = 0 || buf.head? != some cr || buf.length > 1

/-- The first part of a turn: look for an empty line, once. -/
def lookInFront (checked : Bool) (scanned : Nat) (r : Reader) : Bool × Nat × Reader :=
  if !checked && r.buffered.length > 0 then
    let r := r.toss (emptyLine r.buffered)
    (checkedAfter r.buffered, 0, r)
  else (checked, scanned, r)

/-- The loop of `readHead`. Each turn but the last makes a read, so a turn for each that is to come
is enough. -/
def readHeadWithin (src : Source) : Nat → Bool → Nat → Reader → Except HeadError Bytes × Reader
  | 0, _, _, r => (.error src.ending.headError, r)
  | n + 1, checked, scanned, r =>
    let (checked, scanned, r) := lookInFront checked scanned r
    match findEndOfHead r.buffered scanned with
    | some stop => (.ok (r.buffered.take stop), r)
    | none =>
      if r.buffered.length ≥ src.room then (.error .headTooLong, r)
      else
        match r.fillMore src with
        | .error e => (.error e, r)
        -- Back up by one less than the longest delimiter.
        | .ok more => readHeadWithin src n checked (r.buffered.length - 3) more

def Reader.turns (r : Reader) : Nat := (r.coming.map fun chunk => chunk.length + 1).sum

/-- The head, which is left in the buffer, and the reader that stands in front of it. -/
def readHead (src : Source) (r : Reader) : Except HeadError Bytes × Reader :=
  readHeadWithin src (r.turns + 1) false 0 r

/-- The head at the front of a stream, as far as a buffer holds it. -/
def headOf (src : Source) (body : Bytes) : Except HeadError Bytes :=
  match refEndOfHead (body.take src.room) with
  | some stop => .ok (body.take stop)
  | none => if body.length ≥ src.room then .error .headTooLong else .error src.ending.headError

/-- The head of a stream that is there as a whole, and what is left from it on: one empty line is
dropped, and the head ends at the first blank line. -/
def plainHead (src : Source) (stream : Bytes) : Except HeadError Bytes × Bytes :=
  let body := stream.drop (emptyLine (stream.take src.room))
  (headOf src body, body)

/-! ## A block at a time is a byte at a time -/

theorem endAt_eq {buf : Bytes} {i : Nat} (h : buf[i]? = some lf) :
    endAt buf i = (blankLine (buf.drop i)).map (· + i) := by
  have hfirst : (buf.drop i)[0]? = some lf := by rw [List.getElem?_drop, Nat.add_zero, h]
  rw [endAt, blankLine, if_neg (not_not.mpr hfirst), List.getElem?_drop, List.getElem?_drop]
  split_ifs
  · exact congrArg some (Nat.add_comm i 2)
  · exact congrArg some (Nat.add_comm i 3)
  · rfl

theorem blankLine_none {buf : Bytes} {i : Nat} (h : buf[i]? ≠ some lf) :
    blankLine (buf.drop i) = none := by
  rw [blankLine, List.getElem?_drop, Nat.add_zero, if_pos h]

/-- The first blank line among the newlines before `n`. -/
def firstBefore (b : Bytes) (n : Nat) : Option Nat :=
  (List.range n).findSome? fun k => (blankLine (b.drop k)).map (· + k)

theorem refEndOfHead_eq (b : Bytes) :
    refEndOfHead b = (blankLine b).or ((refEndOfHead (b.drop 1)).map (· + 1)) := by
  cases b with
  | nil => rfl
  | cons x rest =>
    rw [refEndOfHead, List.drop_succ_cons, List.drop_zero]
    cases blankLine (x :: rest) <;> rfl

theorem refEndOfHead_split (b : Bytes) (n : Nat) :
    refEndOfHead b = (firstBefore b n).or ((refEndOfHead (b.drop n)).map (· + n)) := by
  induction n with
  | zero =>
    rw [firstBefore, List.drop_zero]
    exact (Option.map_id' (x := refEndOfHead b)).symm
  | succ n ih =>
    have hnext : (refEndOfHead (b.drop n)).map (· + n) =
        ((blankLine (b.drop n)).map (· + n)).or ((refEndOfHead (b.drop (n + 1))).map (· + (n + 1))) := by
      rw [refEndOfHead_eq, List.drop_drop]
      cases blankLine (b.drop n) with
      | some e => rfl
      | none =>
        rw [Option.none_or, Option.map_map, Option.map_none, Option.none_or]
        refine congrArg (Option.map · _) (funext fun e => ?_)
        show e + 1 + n = e + (n + 1)
        omega
    have hfirst : firstBefore b (n + 1) =
        (firstBefore b n).or ((blankLine (b.drop n)).map (· + n)) := by
      rw [firstBefore, List.range_succ, List.findSome?_append, List.findSome?_singleton]
      rfl
    rw [ih, hnext, hfirst, Option.or_assoc]

theorem findSome?_filter {α β : Type} (p : α → Bool) (f g : α → Option β) (l : List α)
    (hpos : ∀ x ∈ l, p x = true → f x = g x) (hneg : ∀ x ∈ l, p x = false → g x = none) :
    (l.filter p).findSome? f = l.findSome? g := by
  induction l with
  | nil => rfl
  | cons x l ih =>
    have ih := ih (fun y hy => hpos y (List.mem_cons_of_mem x hy))
      (fun y hy => hneg y (List.mem_cons_of_mem x hy))
    rw [List.findSome?_cons]
    cases hp : p x with
    | true =>
      rw [List.filter_cons_of_pos hp, List.findSome?_cons, hpos x List.mem_cons_self hp, ih]
    | false =>
      rw [List.filter_cons_of_neg (Bool.eq_false_iff.mp hp), hneg x List.mem_cons_self hp, ih]

theorem findEndFrom_eq {buf : Bytes} {n i : Nat} (h : buf.length - i < n) :
    findEndFrom buf n i = (refEndOfHead (buf.drop i)).map (· + i) := by
  induction n generalizing i with
  | zero => cases h
  | succ n ih =>
    rw [findEndFrom]
    split_ifs with hi
    · have hblock : Bits.walk lanes (fun k => endAt buf (i + k)) (positionsOf buf i lf) =
          (firstBefore (buf.drop i) lanes).map (· + i) := by
        rw [positionsOf, Lib.Bits.walk_eq _ (Scan.classOf_lt ..),
          Scan.positions_classOf _ (Nat.le_of_lt hi), firstBefore, List.map_findSome?]
        refine findSome?_filter _ _ _ _ (fun k _ hk => ?_) (fun k _ hk => ?_)
        · have hlf : buf[i + k]? = some lf := by
            cases hget : buf[i + k]? with
            | none =>
              rw [hget] at hk
              cases hk
            | some b =>
              rw [hget, Option.any_some, beq_iff_eq] at hk
              rw [hk]
          rw [endAt_eq hlf, Function.comp, List.drop_drop, Option.map_map]
          refine congrArg (Option.map · _) (funext fun e => ?_)
          show e + (i + k) = e + k + i
          omega
        · have hlf : buf[i + k]? ≠ some lf := by
            intro hget
            rw [hget, Option.any_some, beq_self_eq_true] at hk
            cases hk
          rw [Function.comp, List.drop_drop, blankLine_none hlf]
          rfl
      rw [hblock, refEndOfHead_split (buf.drop i) lanes]
      cases firstBefore (buf.drop i) lanes with
      | some e => rfl
      | none =>
        show findEndFrom buf n (i + lanes) = _
        rw [ih (by rw [lanes]; omega), Option.none_or, List.drop_drop, Option.map_map]
        refine congrArg (Option.map · _) (funext fun e => ?_)
        show e + (i + lanes) = e + lanes + i
        omega
    · rw [List.drop_of_length_le (Nat.le_of_not_lt hi)]
      rfl

theorem findEndOfHead_eq (buf : Bytes) (start : Nat) :
    findEndOfHead buf start = (refEndOfHead (buf.drop start)).map (· + start) :=
  findEndFrom_eq (by omega)

/-! ## More bytes behind what was looked at -/

theorem blankLine_append {b : Bytes} (h : 3 ≤ b.length) (more : Bytes) :
    blankLine (b ++ more) = blankLine b := by
  rw [blankLine, blankLine, List.getElem?_append_left (by omega),
    List.getElem?_append_left (by omega), List.getElem?_append_left (by omega)]

theorem le_of_blankLine {b : Bytes} {e : Nat} (h : blankLine b = some e) :
    2 ≤ e ∧ e ≤ b.length := by
  have hlength {i : Nat} {x : UInt8} (hi : b[i]? = some x) : i < b.length :=
    (List.getElem?_eq_some_iff.mp hi).1
  rw [blankLine] at h
  split_ifs at h with hfirst hlf hcr
  · cases h
    exact ⟨Nat.le_refl 2, hlength hlf⟩
  · cases h
    exact ⟨by decide, hlength hcr.2⟩

theorem blankLine_append_some {b : Bytes} {e : Nat} (h : blankLine b = some e) (more : Bytes) :
    blankLine (b ++ more) = some e := by
  have hlength {i : Nat} {x : UInt8} (hi : b[i]? = some x) : (b ++ more)[i]? = some x := by
    rw [List.getElem?_append_left (List.getElem?_eq_some_iff.mp hi).1, hi]
  rw [blankLine] at h ⊢
  split_ifs at h with hfirst hlf hcr
  · rw [if_neg (not_not.mpr (hlength (not_not.mp hfirst))), if_pos (hlength hlf), h]
  · have hne : ¬ (b ++ more)[1]? = some lf := by
      rw [hlength hcr.1]
      decide
    rw [if_neg (not_not.mpr (hlength (not_not.mp hfirst))), if_neg hne,
      if_pos ⟨hlength hcr.1, hlength hcr.2⟩, h]

theorem le_of_refEndOfHead {b : Bytes} {e : Nat} (h : refEndOfHead b = some e) :
    2 ≤ e ∧ e ≤ b.length := by
  induction b generalizing e with
  | nil => cases h
  | cons x rest ih =>
    rw [refEndOfHead] at h
    cases hblank : blankLine (x :: rest) with
    | some n =>
      rw [hblank] at h
      cases h
      exact le_of_blankLine hblank
    | none =>
      rw [hblank] at h
      obtain ⟨e', he', rfl⟩ := Option.map_eq_some_iff.mp h
      obtain ⟨htwo, hle⟩ := ih he'
      exact ⟨by omega, Nat.succ_le_succ hle⟩

/-- A blank line that is found stays the first. -/
theorem refEndOfHead_append {b : Bytes} {e : Nat} (h : refEndOfHead b = some e) (more : Bytes) :
    refEndOfHead (b ++ more) = some e := by
  induction b generalizing e with
  | nil => cases h
  | cons x rest ih =>
    rw [refEndOfHead] at h
    rw [List.cons_append, refEndOfHead]
    cases hblank : blankLine (x :: rest) with
    | some n =>
      rw [hblank] at h
      rw [← List.cons_append, blankLine_append_some hblank]
      exact h
    | none =>
      rw [hblank] at h
      obtain ⟨e', he', rfl⟩ := Option.map_eq_some_iff.mp h
      have hlong : 3 ≤ (x :: rest).length := by
        have := le_of_refEndOfHead he'
        rw [List.length_cons]
        omega
      rw [← List.cons_append, blankLine_append hlong, hblank]
      simp only [ih he', Option.map_some]

/-- Three bytes back is far enough. -/
theorem refEndOfHead_resume {b : Bytes} (h : refEndOfHead b = none) (more : Bytes) :
    refEndOfHead (b ++ more) =
      (refEndOfHead ((b ++ more).drop (b.length - 3))).map (· + (b.length - 3)) := by
  have hnone : firstBefore (b ++ more) (b.length - 3) = none := by
    have hfirst : firstBefore b (b.length - 3) = none := by
      rw [refEndOfHead_split b (b.length - 3)] at h
      exact (Option.or_eq_none_iff.mp h).1
    rw [firstBefore, List.findSome?_eq_none_iff] at hfirst ⊢
    intro k hk
    have hlt := List.mem_range.mp hk
    have hlong : 3 ≤ (b.drop k).length := by
      rw [List.length_drop]
      omega
    rw [List.drop_append_of_le_length (by omega), blankLine_append hlong]
    exact hfirst k hk
  rw [refEndOfHead_split _ (b.length - 3), hnone, Option.none_or]

/-! ## The loop, once the front is looked at -/

variable {src : Source} {r more : Reader}

theorem Reader.fillMore_ok (hroom : r.buffered.length < src.room) (h : r.fillMore src = .ok more) :
    more.stream = r.stream ∧ more.turns < r.turns ∧ more.buffered.length ≤ src.room ∧
      ∃ part, more.buffered = r.buffered ++ part := by
  obtain ⟨buffered, coming⟩ := r
  rw [fillMore] at h
  cases coming with
  | nil => cases h
  | cons chunk later =>
    cases h
    dsimp only at hroom ⊢
    refine ⟨?_, ?_, ?_, chunk.take (src.room - buffered.length), rfl⟩
    · rw [stream, stream]
      dsimp only
      rw [List.append_assoc, List.flatten_cons]
      congr 1
      split_ifs with hfits
      · rw [List.take_of_length_le hfits]
      · rw [List.flatten_cons, ← List.append_assoc, List.take_append_drop]
    · rw [turns, turns]
      dsimp only
      rw [List.map_cons, List.sum_cons]
      split_ifs with hfits
      · omega
      · rw [List.map_cons, List.sum_cons, List.length_drop]
        omega
    · rw [List.length_append, List.length_take]
      omega

theorem Reader.fillMore_error {e : HeadError} (h : r.fillMore src = .error e) :
    r.coming = [] ∧ e = src.ending.headError := by
  obtain ⟨buffered, coming⟩ := r
  rw [fillMore] at h
  cases coming with
  | nil =>
    cases h
    exact ⟨rfl, rfl⟩
  | cons chunk later => cases h

theorem Reader.stream_toss {n : Nat} (hn : n ≤ r.buffered.length) :
    (r.toss n).stream = r.stream.drop n := by
  rw [stream, stream, toss, List.drop_append_of_le_length hn]

/-- What is found in the buffer is found in the stream. -/
theorem headOf_found (hroom : r.buffered.length ≤ src.room) {stop : Nat}
    (h : refEndOfHead r.buffered = some stop) :
    headOf src r.stream = .ok (r.buffered.take stop) := by
  have htake : r.stream.take src.room =
      r.buffered ++ r.coming.flatten.take (src.room - r.buffered.length) := by
    rw [Reader.stream, List.take_append, List.take_of_length_le hroom]
  rw [headOf, htake, refEndOfHead_append h]
  dsimp only
  rw [Reader.stream, List.take_append_of_le_length (le_of_refEndOfHead h).2]

theorem headOf_full (hroom : r.buffered.length = src.room) (h : refEndOfHead r.buffered = none) :
    headOf src r.stream = .error .headTooLong := by
  have htake : r.stream.take src.room = r.buffered := by
    rw [Reader.stream, ← hroom, List.take_left]
  have hlong : src.room ≤ r.stream.length := by
    rw [Reader.stream, List.length_append]
    omega
  rw [headOf, htake, h]
  exact if_pos hlong

theorem headOf_ended (hroom : r.buffered.length < src.room) (hcoming : r.coming = [])
    (h : refEndOfHead r.buffered = none) :
    headOf src r.stream = .error src.ending.headError := by
  have hstream : r.stream = r.buffered := by
    rw [Reader.stream, hcoming, List.flatten_nil, List.append_nil]
  rw [headOf, hstream, List.take_of_length_le (Nat.le_of_lt hroom), h]
  exact if_neg (by omega)

/-- A turn that finds nothing, after what it does in front. -/
theorem readHeadWithin_none {n scanned scanned' : Nat} {checked checked' : Bool} {r' : Reader}
    (hlook : lookInFront checked scanned r = (checked', scanned', r'))
    (h : findEndOfHead r'.buffered scanned' = none) :
    readHeadWithin src (n + 1) checked scanned r =
      if r'.buffered.length ≥ src.room then (.error .headTooLong, r')
      else
        match r'.fillMore src with
        | .error e => (.error e, r')
        | .ok more => readHeadWithin src n checked' (r'.buffered.length - 3) more := by
  rw [readHeadWithin, hlook]
  dsimp only
  rw [h]

theorem readHeadWithin_some {n scanned scanned' stop : Nat} {checked checked' : Bool} {r' : Reader}
    (hlook : lookInFront checked scanned r = (checked', scanned', r'))
    (h : findEndOfHead r'.buffered scanned' = some stop) :
    readHeadWithin src (n + 1) checked scanned r = (.ok (r'.buffered.take stop), r') := by
  rw [readHeadWithin, hlook]
  dsimp only
  rw [h]

theorem lookInFront_checked (scanned : Nat) : lookInFront true scanned r = (true, scanned, r) := rfl

/-- From then on the head is found where it is in the stream, however it arrives. -/
theorem readHeadWithin_checked {n scanned : Nat} (hn : r.turns < n)
    (hroom : r.buffered.length ≤ src.room)
    (hscanned : refEndOfHead r.buffered =
      (refEndOfHead (r.buffered.drop scanned)).map (· + scanned)) :
    let out := readHeadWithin src n true scanned r
    (out.1, out.2.stream) = (headOf src r.stream, r.stream) := by
  induction n generalizing r scanned with
  | zero => cases hn
  | succ n ih =>
    have hfind : findEndOfHead r.buffered scanned = refEndOfHead r.buffered := by
      rw [findEndOfHead_eq, hscanned]
    cases hend : refEndOfHead r.buffered with
    | some stop =>
      rw [hend] at hfind
      rw [readHeadWithin_some (lookInFront_checked scanned) hfind, headOf_found hroom hend]
    | none =>
      rw [hend] at hfind
      rw [readHeadWithin_none (lookInFront_checked scanned) hfind]
      split_ifs with hfull
      · rw [headOf_full (Nat.le_antisymm hroom hfull) hend]
      · have hless := Nat.lt_of_not_le hfull
        cases hmore : r.fillMore src with
        | error e =>
          obtain ⟨hcoming, rfl⟩ := Reader.fillMore_error hmore
          rw [headOf_ended hless hcoming hend]
        | ok more =>
          obtain ⟨hstream, hturns, hroom', part, hpart⟩ := Reader.fillMore_ok hless hmore
          have hresume := refEndOfHead_resume hend part
          rw [← hpart] at hresume
          have hrest := ih (by omega) hroom' hresume
          rw [hstream] at hrest
          exact hrest

/-! ## In front of the request line -/

theorem stream_lookInFront_le (checked : Bool) (scanned : Nat) (r : Reader) :
    (lookInFront checked scanned r).2.2.stream.length ≤ r.stream.length := by
  rw [lookInFront]
  split_ifs
  · rw [Reader.stream, Reader.stream, Reader.toss, List.length_append, List.length_append,
      List.length_drop]
    dsimp only
    omega
  · exact Nat.le_refl _

/-- A turn puts nothing back that was dropped in front, if those after it do not. -/
theorem stream_turn_le {n : Nat}
    (hlater : ∀ checked scanned r,
      (readHeadWithin src n checked scanned r).2.stream.length ≤ r.stream.length)
    (checked : Bool) (scanned : Nat) (r : Reader) :
    (readHeadWithin src (n + 1) checked scanned r).2.stream.length ≤
      (lookInFront checked scanned r).2.2.stream.length := by
  obtain ⟨checked', scanned', r', hlook⟩ : ∃ c s r', lookInFront checked scanned r = (c, s, r') :=
    ⟨_, _, _, rfl⟩
  rw [hlook]
  cases hfind : findEndOfHead r'.buffered scanned' with
  | some stop =>
    rw [readHeadWithin_some hlook hfind]
  | none =>
    rw [readHeadWithin_none hlook hfind]
    split_ifs with hfull
    · exact Nat.le_refl _
    · cases hmore : r'.fillMore src with
      | error e => exact Nat.le_refl _
      | ok more =>
        have hstream := (Reader.fillMore_ok (Nat.lt_of_not_le hfull) hmore).1
        have hrest := hlater checked' (r'.buffered.length - 3) more
        rw [hstream] at hrest
        exact hrest

theorem stream_readHeadWithin_le (n : Nat) (checked : Bool) (scanned : Nat) (r : Reader) :
    (readHeadWithin src n checked scanned r).2.stream.length ≤ r.stream.length := by
  induction n generalizing checked scanned r with
  | zero => exact Nat.le_refl _
  | succ n ih =>
    exact Nat.le_trans (stream_turn_le ih checked scanned r)
      (stream_lookInFront_le checked scanned r)

/-- What is done in front changes nothing that is not done already. -/
theorem readHeadWithin_look {n scanned scanned' : Nat} {checked checked' : Bool} {r' : Reader}
    (hlook : lookInFront checked scanned r = (checked', scanned', r'))
    (hagain : lookInFront checked' scanned' r' = (checked', scanned', r')) :
    readHeadWithin src (n + 1) checked scanned r =
      readHeadWithin src (n + 1) checked' scanned' r' := by
  rw [readHeadWithin, readHeadWithin, hlook, hagain]

/-- Nothing but what may be half an empty line. -/
def Waiting (buf : Bytes) : Prop := buf = [] ∨ buf = [cr]

theorem readHeadWithin_waiting {n scanned : Nat} (h : Waiting r.buffered) :
    readHeadWithin src (n + 1) false scanned r =
      if r.buffered.length ≥ src.room then (.error .headTooLong, r)
      else
        match r.fillMore src with
        | .error e => (.error e, r)
        | .ok more => readHeadWithin src n false 0 more := by
  have hnone (scanned : Nat) : findEndOfHead r.buffered scanned = none := by
    have hend (b : Bytes) (hb : b.length ≤ 1) : refEndOfHead b = none := by
      cases hfind : refEndOfHead b with
      | none => rfl
      | some e =>
        have := le_of_refEndOfHead hfind
        omega
    rw [findEndOfHead_eq, hend]
    · rfl
    · rw [List.length_drop]
      rcases h with h | h <;> rw [h] <;> simp
  rcases h with h | h
  · have hlook : lookInFront false scanned r = (false, scanned, r) := by
      rw [lookInFront, h]
      rfl
    rw [readHeadWithin_none hlook (hnone scanned), h]
    rfl
  · have hlook : lookInFront false scanned r = (false, 0, r) := by
      obtain ⟨buffered, coming⟩ := r
      cases h
      rfl
    rw [readHeadWithin_none hlook (hnone 0), h]
    rfl

/-- What a look in front does where there is more than a lone CR. -/
theorem lookInFront_of (scanned : Nat) (h : ¬ Waiting r.buffered)
    (hrest : r.buffered.drop (emptyLine r.buffered) ≠ [cr]) :
    lookInFront false scanned r = (true, 0, r.toss (emptyLine r.buffered)) := by
  have hne : r.buffered.length > 0 := List.length_pos_iff.mpr fun hnil => h (.inl hnil)
  have hchecked : checkedAfter (r.buffered.drop (emptyLine r.buffered)) = true := by
    cases hbuf : r.buffered.drop (emptyLine r.buffered) with
    | nil => rfl
    | cons b rest =>
      cases rest with
      | cons c rest => simp [checkedAfter]
      | nil =>
        rw [hbuf] at hrest
        have hb : b ≠ cr := fun heq => hrest (by rw [heq])
        simp [checkedAfter, hb]
  rw [lookInFront, if_pos (by simpa using hne)]
  exact Prod.ext hchecked rfl

theorem emptyLine_le (b : Bytes) : emptyLine b ≤ b.length := by
  unfold emptyLine
  split <;> simp

theorem emptyLine_append {b : Bytes} (h : ¬ Waiting b) (more : Bytes) :
    emptyLine (b ++ more) = emptyLine b := by
  match b with
  | [] => exact absurd (.inl rfl) h
  | [x] =>
    have hx : x ≠ 13 := fun hx => h (.inr (by rw [hx]; rfl))
    unfold emptyLine
    split <;> split <;> simp_all
  | x :: y :: rest =>
    unfold emptyLine
    split <;> split <;> simp_all

/-- The whole of a stream is looked at in front as its first bytes are. -/
theorem plainHead_eq (h : ¬ Waiting r.buffered) (hroom : r.buffered.length ≤ src.room) :
    plainHead src r.stream =
      (headOf src (r.toss (emptyLine r.buffered)).stream, (r.toss (emptyLine r.buffered)).stream) := by
  have htake : r.stream.take src.room =
      r.buffered ++ r.coming.flatten.take (src.room - r.buffered.length) := by
    rw [Reader.stream, List.take_append, List.take_of_length_le hroom]
  rw [plainHead, htake, emptyLine_append h, Reader.stream_toss (emptyLine_le _)]

theorem readHeadWithin_looked {n scanned : Nat} (hn : r.turns < n)
    (h : ¬ Waiting r.buffered) (hroom : r.buffered.length ≤ src.room)
    (hrest : r.buffered.drop (emptyLine r.buffered) ≠ [cr]) :
    let out := readHeadWithin src n false scanned r
    (out.1, out.2.stream) = plainHead src r.stream := by
  cases n with
  | zero => cases hn
  | succ n =>
    have hlook := lookInFront_of scanned h hrest
    rw [readHeadWithin_look hlook rfl, plainHead_eq h hroom]
    refine readHeadWithin_checked hn ?_ ?_
    · rw [Reader.toss, List.length_drop]
      omega
    · rw [List.drop_zero]
      exact (Option.map_id' (x := refEndOfHead _)).symm

/-- After an empty line, a CR alone: it is waited on as if nothing had been dropped yet. -/
theorem readHeadWithin_second {n scanned : Nat} (hn : r.turns < n) (hcr : r.buffered = [cr])
    (hroom : 1 < src.room) :
    let out := readHeadWithin src n false scanned r
    (out.1, out.2.stream) = (headOf src r.stream, r.stream) ↔
      r.coming.flatten.head? ≠ some lf := by
  induction n generalizing r scanned with
  | zero => cases hn
  | succ n ih =>
    have hlength : r.buffered.length = 1 := by rw [hcr]; rfl
    have hless : r.buffered.length < src.room := by omega
    rw [readHeadWithin_waiting (.inr hcr), if_neg (by omega)]
    cases hmore : r.fillMore src with
    | error e =>
      obtain ⟨hcoming, rfl⟩ := Reader.fillMore_error hmore
      have hend : refEndOfHead r.buffered = none := by rw [hcr]; rfl
      rw [headOf_ended hless hcoming hend, hcoming]
      exact ⟨fun _ => by simp, fun _ => rfl⟩
    | ok more =>
      obtain ⟨hstream, hturns, hroom', part, hpart⟩ := Reader.fillMore_ok hless hmore
      rw [← hstream]
      have hcoming : r.coming.flatten = part ++ more.coming.flatten := by
        rw [Reader.stream, Reader.stream, hpart, List.append_assoc] at hstream
        exact (List.append_cancel_left hstream).symm
      rw [hcoming]
      dsimp only
      cases part with
      | nil =>
        rw [hcr] at hpart
        exact ih (by omega) hpart
      | cons x part =>
        rw [hcr, List.singleton_append] at hpart
        rw [List.cons_append, List.head?_cons]
        by_cases hx : x = lf
        · -- The second line is dropped as well.
          subst hx
          refine ⟨fun heq => absurd (congrArg (·.2.length) heq) ?_, fun h => absurd rfl h⟩
          have hlook : (lookInFront false 0 more).2.2 = more.toss 2 := by
            rw [lookInFront, hpart]
            rfl
          have htwo : 2 ≤ more.buffered.length := by
            rw [hpart]
            exact Nat.le_add_left 2 _
          obtain ⟨m, rfl⟩ : ∃ m, n = m + 1 := ⟨n - 1, by omega⟩
          have hle := stream_turn_le (@stream_readHeadWithin_le src m) false 0 more
          rw [hlook, Reader.stream_toss htwo, List.length_drop] at hle
          have hlong : more.buffered.length ≤ more.stream.length := by
            rw [Reader.stream, List.length_append]
            exact Nat.le_add_right ..
          intro heq
          dsimp only at heq
          omega
        · have hwaiting : ¬ Waiting more.buffered := by
            rw [hpart]
            rintro (h | h) <;> cases h
          have hempty : emptyLine more.buffered = 0 := by
            rw [hpart]
            unfold emptyLine
            split <;> simp_all [cr, lf]
          have hrest : more.buffered.drop (emptyLine more.buffered) ≠ [cr] := by
            rw [hempty, List.drop_zero, hpart]
            intro h
            cases h
          have hout := @readHeadWithin_looked src more n 0 (by omega) hwaiting hroom' hrest
          have htoss : more.toss 0 = more := rfl
          rw [plainHead_eq hwaiting hroom', hempty, htoss] at hout
          exact ⟨fun _ h => hx (Option.some.inj h), fun _ => hout⟩

/-- A read ends between the CR and the LF of a second empty line, and it is the read that brought
the end of the first one. -/
inductive Astride (src : Source) : Reader → Prop
  | here {r : Reader} (h : r.buffered = [lf, cr] ∨ r.buffered = [cr, lf, cr])
      (hnext : r.coming.flatten.head? = some lf) : Astride src r
  /-- Up to then there was nothing, or a CR alone. -/
  | later {r more : Reader} (h : Waiting r.buffered) (hroom : r.buffered.length < src.room)
      (hmore : r.fillMore src = .ok more) (hlater : Astride src more) : Astride src r

theorem astride_waiting (h : Waiting r.buffered) (hroom : r.buffered.length < src.room)
    (hmore : r.fillMore src = .ok more) : Astride src r ↔ Astride src more := by
  refine ⟨fun hastride => ?_, fun hlater => .later h hroom hmore hlater⟩
  cases hastride with
  | here hhere =>
    rcases h with h | h <;> rw [h] at hhere <;> rcases hhere with hhere | hhere <;> cases hhere
  | later _ _ hmore' hlater =>
    rw [hmore] at hmore'
    cases hmore'
    exact hlater

theorem astride_of_not_waiting (h : ¬ Waiting r.buffered) : Astride src r ↔
    (r.buffered = [lf, cr] ∨ r.buffered = [cr, lf, cr]) ∧ r.coming.flatten.head? = some lf := by
  refine ⟨fun hastride => ?_, fun ⟨hhere, hnext⟩ => .here hhere hnext⟩
  cases hastride with
  | here hhere hnext => exact ⟨hhere, hnext⟩
  | later hwaiting => exact absurd hwaiting h

theorem drop_emptyLine_eq_cr {b : Bytes} (h : ¬ Waiting b) :
    b.drop (emptyLine b) = [cr] ↔ b = [lf, cr] ∨ b = [cr, lf, cr] := by
  constructor
  · intro hdrop
    unfold emptyLine at hdrop
    split at hdrop
    · rw [List.drop_succ_cons, List.drop_zero] at hdrop
      exact .inl (by rw [hdrop]; rfl)
    · rw [List.drop_succ_cons, List.drop_succ_cons, List.drop_zero] at hdrop
      exact .inr (by rw [hdrop]; rfl)
    · exact absurd (.inr hdrop) h
  · rintro (rfl | rfl) <;> rfl

theorem plainHead_waiting (h : Waiting (r.stream.take src.room)) :
    plainHead src r.stream = (headOf src r.stream, r.stream) := by
  have hempty : emptyLine (r.stream.take src.room) = 0 := by
    rcases h with h | h <;> rw [h] <;> simp [emptyLine, cr]
  rw [plainHead, hempty, List.drop_zero]

theorem not_astride (h : Waiting r.buffered) (hmore : ∀ more, r.buffered.length < src.room →
    r.fillMore src ≠ .ok more) : ¬ Astride src r := by
  intro hastride
  cases hastride with
  | here hhere =>
    rcases h with h | h <;> rw [h] at hhere <;> rcases hhere with hhere | hhere <;> cases hhere
  | later _ hroom hok => exact hmore _ hroom hok

theorem readHeadWithin_plain_iff {n scanned : Nat} (hn : r.turns < n)
    (hroom : r.buffered.length ≤ src.room) :
    let out := readHeadWithin src n false scanned r
    (out.1, out.2.stream) = plainHead src r.stream ↔ ¬ Astride src r := by
  induction n generalizing r scanned with
  | zero => cases hn
  | succ n ih =>
    by_cases hwaiting : Waiting r.buffered
    · have hend : refEndOfHead r.buffered = none := by rcases hwaiting with h | h <;> rw [h] <;> rfl
      rw [readHeadWithin_waiting hwaiting]
      split_ifs with hfull
      · have htake : r.stream.take src.room = r.buffered := by
          rw [Reader.stream, Nat.le_antisymm hfull hroom, List.take_left]
        rw [plainHead_waiting (htake ▸ hwaiting), headOf_full (Nat.le_antisymm hroom hfull) hend]
        exact ⟨fun _ => not_astride hwaiting fun _ hless => absurd hfull (Nat.not_le.mpr hless),
          fun _ => rfl⟩
      · have hless := Nat.lt_of_not_le hfull
        cases hmore : r.fillMore src with
        | error e =>
          obtain ⟨hcoming, rfl⟩ := Reader.fillMore_error hmore
          have hstream : r.stream = r.buffered := by
            rw [Reader.stream, hcoming, List.flatten_nil, List.append_nil]
          have htake : Waiting (r.stream.take src.room) := by
            rwa [hstream, List.take_of_length_le hroom]
          rw [plainHead_waiting htake, headOf_ended hless hcoming hend]
          refine ⟨fun _ => not_astride hwaiting fun more _ hok => ?_, fun _ => rfl⟩
          rw [hmore] at hok
          cases hok
        | ok more =>
          obtain ⟨hstream, hturns, hroom', -⟩ := Reader.fillMore_ok hless hmore
          rw [astride_waiting hwaiting hless hmore, ← hstream]
          exact ih (by omega) hroom'
    · by_cases hrest : r.buffered.drop (emptyLine r.buffered) = [cr]
      · have hne : r.buffered.length > 0 := List.length_pos_iff.mpr fun hnil => hwaiting (.inl hnil)
        have hlook : lookInFront false scanned r = (false, 0, r.toss (emptyLine r.buffered)) := by
          rw [lookInFront, if_pos (by simpa using hne)]
          refine Prod.ext ?_ rfl
          show checkedAfter (r.buffered.drop (emptyLine r.buffered)) = false
          rw [hrest]
          rfl
        have hagain : lookInFront false 0 (r.toss (emptyLine r.buffered)) =
            (false, 0, r.toss (emptyLine r.buffered)) := by
          rw [Reader.toss, hrest]
          rfl
        have hlong : 1 < src.room := by
          have hhere := (drop_emptyLine_eq_cr hwaiting).mp hrest
          rcases hhere with h | h <;> rw [h] at hroom
          · exact hroom
          · exact Nat.lt_of_lt_of_le (by decide) hroom
        rw [readHeadWithin_look hlook hagain, plainHead_eq hwaiting hroom,
          astride_of_not_waiting hwaiting, ← drop_emptyLine_eq_cr hwaiting]
        have hsecond := @readHeadWithin_second src (r.toss (emptyLine r.buffered)) (n + 1) 0 hn hrest hlong
        exact hsecond.trans ⟨fun h hboth => h hboth.2, fun h hnext => h ⟨hrest, hnext⟩⟩
      · have hout := @readHeadWithin_looked src r (n + 1) scanned hn hwaiting hroom hrest
        rw [astride_of_not_waiting hwaiting, ← drop_emptyLine_eq_cr hwaiting]
        exact ⟨fun _ h => hrest h.1, fun _ => hout⟩

/-- `readHead` reads the head of the stream, in front of which it drops one empty line, but where a
read ends astride of a second one. -/
theorem readHead_plain_iff (src : Source) (r : Reader) (h : r.buffered.length ≤ src.room) :
    let out := readHead src r
    (out.1, out.2.stream) = plainHead src r.stream ↔ ¬ Astride src r :=
  readHeadWithin_plain_iff (Nat.lt_succ_self _) h

def request : Bytes := Text.ascii "GET / HTTP/1.1\r\n\r\n"

theorem readHead_plain_trickle :
    let r : Reader := ⟨[], [[cr], [lf, 71], request.drop 1]⟩
    let out := readHead ⟨64, .endOfStream⟩ r
    (out.1, out.2.stream) = plainHead ⟨64, .endOfStream⟩ r.stream ↔ ¬ Astride ⟨64, .endOfStream⟩ r :=
  readHead_plain_iff ⟨64, .endOfStream⟩ ⟨[], [[cr], [lf, 71], request.drop 1]⟩ (by decide)

/-- The same bytes: at once the head begins with the second empty line, and cut behind its CR both
lines are dropped. -/
theorem readHead_depends_on_reads :
    let src : Source := ⟨64, .endOfStream⟩
    let split : Reader := ⟨[], [[cr, lf, cr], lf :: request]⟩
    let whole : Reader := ⟨[], [[cr, lf, cr, lf] ++ request]⟩
    split.stream = whole.stream ∧
      (readHead src split).1 = .ok request ∧ (readHead src whole).1 = .ok ([cr, lf] ++ request) := by
  decide

end Nilo.Http1
