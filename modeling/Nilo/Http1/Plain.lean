import Nilo.Http1.Lines

/-!
# A block at a time is a line at a time

The masks of a block against the bytes they mark, what the walk knows of the open line (`Open`), and
from one newline to the next and one block to the next, that what is left for the walk to do is what
is left of the lines (`readLines_eq`).
-/

namespace Nilo.Http1

open Text (Bytes between)
open Scan (lanes classOf positionsOf)
open Lib (Bits.each Bits.without Bits.ctz Bits.firstIn Bits.positions Bits.walk)

/-! ## Tokens -/

theorem unusualLane_eq (ch : UInt8) : unusualLane ch = isUnusual ch := by
  revert ch
  exact Text.forall_byte (by decide)

theorem isTokenByte_of_usual {ch : UInt8} (h : isUnusual ch = false) : isTokenByte ch = true := by
  revert ch
  exact fun {ch} => Text.forall_byte (p := fun ch => isUnusual ch = false → isTokenByte ch = true)
    (by decide) ch

theorem mem_positions {w n k : Nat} : k ∈ Bits.positions w n ↔ k < w ∧ n.testBit k = true := by
  rw [Bits.positions, List.mem_filter, List.mem_range]

theorem testBit_unusual {buf : Bytes} {i : Nat} (h : i ≤ buf.length) (k : Nat) :
    (unusualNameBytesOf buf i).testBit k = (decide (k < lanes) && buf[i + k]?.any isUnusual) := by
  have hsame : unusualLane = isUnusual := funext unusualLane_eq
  rw [unusualNameBytesOf, hsame, ite_self, Scan.testBit_classOf _ h]

theorem unusual_lt (buf : Bytes) (i : Nat) : unusualNameBytesOf buf i < 2 ^ lanes := by
  rw [unusualNameBytesOf]
  split_ifs
  · exact Scan.classOf_lt ..
  · exact Scan.classOf_lt ..

/-- The bytes of the name in a block that are looked up in the grammar. -/
def nameBits (buf : Bytes) (stop i : Nat) : Nat :=
  if stop - i < lanes then unusualNameBytesOf buf i &&& (2 ^ (stop - i) - 1)
  else unusualNameBytesOf buf i

theorem nameBits_lt (buf : Bytes) (stop i : Nat) : nameBits buf stop i < 2 ^ lanes := by
  rw [nameBits]
  split_ifs
  · exact Nat.lt_of_le_of_lt Nat.and_le_left (unusual_lt buf i)
  · exact unusual_lt buf i

theorem testBit_nameBits {buf : Bytes} {stop i : Nat} (hi : i < stop) (hstop : stop ≤ buf.length)
    (k : Nat) : (nameBits buf stop i).testBit k =
      (decide (k < lanes ∧ i + k < stop) && buf[i + k]?.any isUnusual) := by
  rw [nameBits]
  split_ifs with hlast
  · rw [Nat.testBit_and, testBit_unusual (by omega), Nat.testBit_two_pow_sub_one,
      Bool.and_right_comm, Bool.decide_and]
    have hsame : decide (k < stop - i) = decide (i + k < stop) := decide_eq_decide.mpr (by omega)
    rw [hsame]
  · rw [testBit_unusual (by omega)]
    congr 1
    exact decide_eq_decide.mpr (by omega)

theorem tokenBlocks_iff {buf : Bytes} {stop : Nat} (hstop : stop ≤ buf.length) :
    ∀ {n i : Nat}, stop - i ≤ n → (tokenBlocks buf stop n i = true ↔
      ∀ j, i ≤ j → j < stop → buf[j]?.any isTokenByte = true)
  | 0, i, hn => by
    refine iff_of_true rfl ?_
    intro j hle hlt
    omega
  | n + 1, i, hn => by
    have hlanes : lanes = 32 := rfl
    by_cases hi : i < stop
    · have hstep : tokenBlocks buf stop (n + 1) i =
          ((Bits.walk lanes
              (fun k => if buf[i + k]?.any isTokenByte then none else some ())
              (nameBits buf stop i)).isNone && tokenBlocks buf stop n (i + lanes)) := by
        rw [tokenBlocks, if_pos hi, nameBits]
      rw [hstep, Bool.and_eq_true, tokenBlocks_iff hstop (by omega), Option.isNone_iff_eq_none,
        Lib.Bits.walk_eq _ (nameBits_lt ..), List.findSome?_eq_none_iff]
      constructor
      · rintro ⟨hblock, hrest⟩ j hle hlt
        by_cases hj : j < i + lanes
        · have hget : i + (j - i) = j := by omega
          have hsome : buf[j]? = some (buf.get ⟨j, by omega⟩) := List.getElem?_eq_getElem (by omega)
          by_cases hunusual : buf[j]?.any isUnusual = true
          · have hmem : j - i ∈ Bits.positions lanes (nameBits buf stop i) := by
              rw [mem_positions, testBit_nameBits hi hstop, hget, hunusual, Bool.and_true,
                decide_eq_true_eq]
              omega
            have := hblock _ hmem
            rw [hget] at this
            by_contra hnot
            rw [if_neg hnot] at this
            cases this
          · rw [hsome, Option.any_some] at hunusual ⊢
            exact isTokenByte_of_usual (Bool.eq_false_iff.mpr hunusual)
        · exact hrest j (by omega) hlt
      · intro h
        refine ⟨?_, fun j hle hlt => h j (by omega) hlt⟩
        intro k hk
        rw [mem_positions, testBit_nameBits hi hstop, Bool.and_eq_true, decide_eq_true_eq] at hk
        rw [if_pos (h (i + k) (by omega) hk.2.1.2)]
    · rw [tokenBlocks, if_neg hi]
      refine iff_of_true rfl ?_
      intro j hle hlt
      omega

theorem length_between {buf : Bytes} {stop : Nat} (hstop : stop ≤ buf.length) (start : Nat) :
    (between buf start stop).length = stop - start := by
  rw [between, List.length_take, List.length_drop]
  omega

theorem getElem?_between {buf : Bytes} {start stop k : Nat} (hk : k < stop - start) :
    (between buf start stop)[k]? = buf[start + k]? := by
  rw [between, List.getElem?_take_of_lt hk, List.getElem?_drop]

theorem all_between {buf : Bytes} {start stop : Nat} (hstop : stop ≤ buf.length)
    (p : UInt8 → Bool) : (between buf start stop).all p = true ↔
      ∀ j, start ≤ j → j < stop → buf[j]?.any p = true := by
  rw [List.all_eq_true]
  constructor
  · intro h j hle hlt
    rw [List.getElem?_eq_getElem (by omega), Option.any_some]
    refine h _ (List.mem_iff_getElem?.mpr ⟨j - start, ?_⟩)
    rw [getElem?_between (by omega), show start + (j - start) = j by omega,
      List.getElem?_eq_getElem (by omega)]
  · intro h ch hch
    obtain ⟨k, hk⟩ := List.mem_iff_getElem?.mp hch
    have hlt : k < stop - start := by
      have := (List.getElem?_eq_some_iff.mp hk).1
      rwa [length_between hstop start] at this
    rw [getElem?_between hlt] at hk
    have := h (start + k) (by omega) (by omega)
    rwa [hk] at this

theorem tokenAt_eq {buf : Bytes} {start stop : Nat} (hstop : stop ≤ buf.length) :
    tokenAt buf start stop = headerNameOk (between buf start stop) := by
  have hlength := length_between hstop start
  rw [tokenAt, headerNameOk]
  by_cases hempty : start ≥ stop
  · have hnil : between buf start stop = [] := List.eq_nil_of_length_eq_zero (by omega)
    rw [if_pos hempty, hnil]
    rfl
  · have hne : between buf start stop ≠ [] := List.ne_nil_of_length_pos (by omega)
    rw [if_neg hempty, decide_eq_true hne, Bool.true_and]
    split_ifs
    · rfl
    · rw [Bool.eq_iff_iff, tokenBlocks_iff hstop (Nat.le_refl _), all_between hstop]

/-! ## The masks of a block -/

def colonAt (head : Bytes) (j : Nat) : Bool := head[j]? == some 58

/-- A byte that no line may hold where it is. -/
def strayAt (head : Bytes) (j : Nat) : Bool :=
  head[j]?.any isControl && head[j]? != some lf &&
    !(head[j]? == some cr && (head[j + 1]? == some lf || j + 1 == head.length))

/-- A byte that the request line may not hold, or that no other line may. -/
def strayFor (head : Bytes) (requestLine : Bool) (j : Nat) : Bool :=
  strayAt head j && (requestLine || head[j]? != some 9)

theorem any_beq (o : Option UInt8) (b : UInt8) : o.any (· == b) = (o == some b) := by
  cases o <;> rfl

theorem testBit_positionsOf {head : Bytes} {i : Nat} (h : i ≤ head.length) (byte : UInt8) (k : Nat) :
    (positionsOf head i byte).testBit k = (decide (k < lanes) && head[i + k]? == some byte) := by
  rw [positionsOf, Scan.testBit_classOf _ h, any_beq]

theorem testBit_ended {head : Bytes} {i k : Nat} (hk : k < lanes) (hi : i + k < head.length) :
    (if i + lanes < head.length then
        if head[i + lanes]? = some lf then positionsOf head i lf >>> 1 ||| 1 <<< (lanes - 1)
        else positionsOf head i lf >>> 1
      else positionsOf head i lf >>> 1 ||| 1 <<< (head.length - 1 - i)).testBit k =
      (head[i + k + 1]? == some lf || i + k + 1 == head.length) := by
  have hlanes : lanes = 32 := rfl
  have hnext : (positionsOf head i lf >>> 1).testBit k =
      (decide (k + 1 < lanes) && head[i + k + 1]? == some lf) := by
    rw [Nat.testBit_shiftRight, testBit_positionsOf (by omega), Nat.add_comm 1 k, Nat.add_assoc]
  have hone (n : Nat) : (1 <<< n).testBit k = decide (n = k) := by
    rw [Nat.one_shiftLeft, Nat.testBit_two_pow]
  by_cases hlong : i + lanes < head.length
  · have hend : (i + k + 1 == head.length) = false := beq_eq_false_iff_ne.mpr (by omega)
    rw [if_pos hlong, hend, Bool.or_false]
    by_cases hk' : k + 1 < lanes
    · split_ifs
      · rw [Nat.testBit_or, hnext, hone, decide_eq_true hk', Bool.true_and,
          decide_eq_false (by omega), Bool.or_false]
      · rw [hnext, decide_eq_true hk', Bool.true_and]
    · have hlast : i + k + 1 = i + lanes := by omega
      rw [hlast]
      split_ifs with hlf
      · rw [Nat.testBit_or, hone, decide_eq_true (by omega), Bool.or_true, hlf]
        rfl
      · rw [hnext, decide_eq_false hk', Bool.false_and]
        exact (beq_eq_false_iff_ne.mpr hlf).symm
  · rw [if_neg hlong, Nat.testBit_or, hnext, hone]
    have hsame : decide (head.length - 1 - i = k) = (i + k + 1 == head.length) := by
      rw [Bool.beq_eq_decide_eq]
      exact decide_eq_decide.mpr (by omega)
    rw [hsame]
    by_cases hk' : k + 1 < lanes
    · rw [decide_eq_true hk', Bool.true_and]
    · rw [decide_eq_false hk', Bool.false_and, List.getElem?_eq_none (by omega)]
      rfl

theorem testBit_stray {head : Bytes} {i : Nat} (h : i ≤ head.length) (k : Nat) :
    (strayBytes head i (positionsOf head i lf)).testBit k =
      (decide (k < lanes) && strayAt head (i + k)) := by
  rw [strayBytes, Lib.Bits.testBit_without, Lib.Bits.testBit_without, Nat.testBit_and,
    Scan.testBit_classOf _ h, testBit_positionsOf h, testBit_positionsOf h, strayAt]
  by_cases hk : k < lanes
  · rw [decide_eq_true hk, Bool.true_and, Bool.true_and, Bool.true_and, Bool.true_and]
    by_cases hi : i + k < head.length
    · rw [testBit_ended hk hi]
      rfl
    · rw [List.getElem?_eq_none (by omega)]
      rfl
  · rw [decide_eq_false hk]
    rfl

/-- A word that marks where `p` holds from bit `b` of the block at `i` on. -/
def MarksFrom (p : Nat → Bool) (i b n : Nat) : Prop :=
  ∀ k, n.testBit k = (decide (b ≤ k ∧ k < lanes) && p (i + k))

namespace MarksFrom

variable {p : Nat → Bool} {i b c n : Nat}

theorem of_testBit (h : ∀ k, n.testBit k = (decide (k < lanes) && p (i + k))) :
    MarksFrom p i 0 n := by
  intro k
  rw [h k]
  congr 1
  exact decide_eq_decide.mpr (by omega)

theorem lt (h : MarksFrom p i b n) : n < 2 ^ lanes := by
  refine Nat.lt_pow_two_of_testBit n fun k hk => ?_
  rw [h k, decide_eq_false (by omega), Bool.false_and]

theorem below (h : MarksFrom p i b n) (hc : c ≤ lanes) (k : Nat) :
    (n &&& (2 ^ c - 1)).testBit k = (decide (b ≤ k ∧ k < c) && p (i + k)) := by
  rw [Nat.testBit_and, h k, Nat.testBit_two_pow_sub_one, Bool.and_right_comm, ← Bool.decide_and]
  congr 1
  exact decide_eq_decide.mpr (by omega)

/-- What is left of it behind a position where `p` does not hold. -/
theorem without (h : MarksFrom p i b n) (hb : b ≤ c) (hp : p (i + c) = false) :
    MarksFrom p i (c + 1) (Bits.without n (2 ^ c - 1)) := by
  intro k
  rw [Lib.Bits.testBit_without, h k, Nat.testBit_two_pow_sub_one]
  by_cases hk : k = c
  · rw [hk, hp, Bool.and_false, Bool.and_false, Bool.false_and]
  · rw [Bool.and_right_comm, ← decide_not, ← Bool.decide_and]
    congr 1
    exact decide_eq_decide.mpr (by omega)

/-- The first of its positions before bit `c`. -/
theorem first (h : MarksFrom p i b n) (hc : c ≤ lanes) :
    Bits.firstIn p (i + b) (i + c) =
      if n &&& (2 ^ c - 1) ≠ 0 then some (i + Bits.ctz lanes (n &&& (2 ^ c - 1))) else none :=
  Lib.Bits.firstIn_eq_ctz (Nat.lt_of_le_of_lt Nat.and_le_left h.lt) (h.below hc)

theorem and_all (h : MarksFrom p i b n) : n &&& (2 ^ lanes - 1) = n := by
  rw [Nat.and_two_pow_sub_one_eq_mod, Nat.mod_eq_of_lt h.lt]

end MarksFrom

/-- The masks of the block at `i`, from bit `b` on. -/
structure Marked (head : Bytes) (i b : Nat) (m : Masks) : Prop where
  unclaimed : MarksFrom (colonAt head) i b m.unclaimed
  bad : MarksFrom (strayFor head false) i b m.bad
  tabs : MarksFrom (fun j => strayAt head j && head[j]? == some 9) i b m.tabs

theorem marked_masksAt {head : Bytes} {i : Nat} (h : i ≤ head.length) :
    Marked head i 0 (masksAt head i) := by
  have htabs (k : Nat) : (if strayBytes head i (positionsOf head i lf) ≠ 0 then
        positionsOf head i 9 &&& strayBytes head i (positionsOf head i lf) else 0).testBit k =
      (decide (k < lanes) && (strayAt head (i + k) && head[i + k]? == some 9)) := by
    split_ifs with hstray
    · rw [Nat.testBit_and, testBit_positionsOf h, testBit_stray h]
      cases decide (k < lanes) <;> cases strayAt head (i + k) <;>
        cases head[i + k]? == some 9 <;> rfl
    · have := testBit_stray h k
      rw [not_not.mp hstray, Nat.zero_testBit] at this
      rw [Nat.zero_testBit, ← Bool.and_assoc, ← this, Bool.false_and]
  refine ⟨.of_testBit ?_, .of_testBit ?_, .of_testBit htabs⟩
  · intro k
    exact testBit_positionsOf h 58 k
  · intro k
    rw [masksAt]
    dsimp only
    rw [Lib.Bits.testBit_without, testBit_stray h, htabs, strayFor]
    cases decide (k < lanes) <;> cases strayAt head (i + k) <;>
      cases hnine : head[i + k]? == some 9 <;> simp [bne, hnine]

theorem strayFor_newline {head : Bytes} {j : Nat} (h : head[j]? = some lf) (requestLine : Bool) :
    strayFor head requestLine j = false := by
  rw [strayFor, strayAt, h]
  simp

namespace Marked

variable {head : Bytes} {i b c : Nat} {m : Masks}

theorem stray (h : Marked head i b m) (w : Walk) :
    MarksFrom (strayFor head w.firstLine) i b (m.stray w) := by
  intro k
  rw [Masks.stray]
  cases w.firstLine with
  | false => exact h.bad k
  | true =>
    have htabs : m.tabs.testBit k = (decide (b ≤ k ∧ k < lanes) &&
        (strayAt head (i + k) && head[i + k]? == some 9)) := h.tabs k
    rw [if_pos rfl, Nat.testBit_or, h.bad k, htabs, strayFor, strayFor]
    cases decide (b ≤ k ∧ k < lanes) <;> cases strayAt head (i + k) <;>
      cases hnine : head[i + k]? == some 9 <;> simp [bne, hnine]

theorem after (h : Marked head i b m) (hb : b ≤ c) (hlf : head[i + c]? = some lf) :
    Marked head i (c + 1) ⟨Bits.without m.unclaimed (2 ^ c - 1), Bits.without m.bad (2 ^ c - 1),
      Bits.without m.tabs (2 ^ c - 1)⟩ := by
  refine ⟨h.unclaimed.without hb ?_, h.bad.without hb (strayFor_newline hlf false),
    h.tabs.without hb ?_⟩
  · rw [colonAt, hlf]
    rfl
  · rw [hlf]
    exact Bool.and_false _

end Marked

/-! ## The open line -/

/-- The walk knows the first colon of its line up to `q`. A line at the front of a head that begins
with its colon, whose place is the sentinel, is never a field. -/
def KnowsColon (head : Bytes) (w : Walk) (q : Nat) : Prop :=
  w.colon = (Bits.firstIn (colonAt head) w.lineStart q).getD 0 ∨
    w.lineStart = 0 ∧ head[0]? = some 58

/-- It knows whether its line, up to `q`, holds a byte it may not. -/
def KnowsStray (head : Bytes) (w : Walk) (q : Nat) : Prop :=
  w.lineBad = (Bits.firstIn (strayFor head w.firstLine) w.lineStart q).isSome

/-- What holds between newlines: bit `b` of the block at `i` is the first not yet looked at. -/
structure Open (head : Bytes) (i b : Nat) (w : Walk) (m : Masks) : Prop where
  start : b = 0 ∧ w.lineStart ≤ i ∨ w.lineStart = i + b
  inside : w.lineStart ≤ head.length
  colon : KnowsColon head w i
  bad : KnowsStray head w i
  clear : ∀ j, w.lineStart ≤ j → j < i → head[j]? ≠ some lf
  marked : Marked head i b m

namespace Open

variable {head : Bytes} {i b c : Nat} {w : Walk} {m : Masks}

/-- What it knew of the line before the block, and what the block says. -/
theorem firstIn_eq (h : Open head i b w m) (hb : b ≤ c) (p : Nat → Bool) :
    Bits.firstIn p w.lineStart (i + c) =
      (Bits.firstIn p w.lineStart i).or (Bits.firstIn p (i + b) (i + c)) := by
  rcases h.start with ⟨rfl, hle⟩ | heq
  · exact Lib.Bits.firstIn_or hle (Nat.le_add_right i c)
  · rw [heq, Lib.Bits.firstIn_of_le (Nat.le_add_right i b), Option.none_or]

theorem knowsColon (h : Open head i b w m) (hb : b ≤ c) (hc : c ≤ lanes) (lineBad : Bool) :
    KnowsColon head { w with
      colon := claimColon i w (m.unclaimed &&& (2 ^ c - 1)), lineBad } (i + c) := by
  rcases h.colon with hcolon | hfront
  · by_cases hzero : w.colon = 0
    · cases hfirst : Bits.firstIn (colonAt head) w.lineStart i with
      | none =>
        left
        show claimColon _ _ _ = _
        rw [h.firstIn_eq hb, hfirst, Option.none_or, h.marked.unclaimed.first hc, claimColon]
        split_ifs with h₁ h₂ h₂
        · rfl
        · exact absurd h₁.2 h₂
        · exact absurd ⟨hzero, h₂⟩ h₁
        · exact hzero
      | some j =>
        -- a colon at the front, or none
        rw [hfirst, Option.getD_some, hzero] at hcolon
        have hj := Lib.Bits.firstIn_some.mp hfirst
        rw [← hcolon] at hj
        exact .inr ⟨by simp only; omega, beq_iff_eq.mp hj.1⟩
    · left
      have hsome : ∃ j, Bits.firstIn (colonAt head) w.lineStart i = some j := by
        cases hfirst : Bits.firstIn (colonAt head) w.lineStart i with
        | none =>
          rw [hfirst] at hcolon
          exact absurd hcolon hzero
        | some j => exact ⟨j, rfl⟩
      obtain ⟨j, hj⟩ := hsome
      show claimColon _ _ _ = _
      rw [h.firstIn_eq hb, hj, claimColon, if_neg fun hand => hzero hand.1, hcolon, hj]
      rfl
  · exact .inr hfront

theorem knowsStray (h : Open head i b w m) (hb : b ≤ c) (hc : c ≤ lanes) (colon : Nat) :
    KnowsStray head { w with
      colon, lineBad := w.lineBad || (m.stray w &&& (2 ^ c - 1)) != 0 } (i + c) := by
  show (w.lineBad || _) = _
  rw [h.firstIn_eq hb, h.bad, (h.marked.stray w).first hc]
  cases Bits.firstIn (strayFor head w.firstLine) w.lineStart i with
  | some j => rfl
  | none =>
    rw [Option.none_or, Option.isSome_none, Bool.false_or]
    split_ifs with hzero
    · exact bne_iff_ne.mpr hzero
    · rw [not_not.mp hzero]
      rfl

end Open

/-! ## A line -/

section Line

variable {head : Bytes} {s nl q : Nat}

theorem take_between {k : Nat} (h : s + k ≤ q) : (between head s q).take k = between head s (s + k) := by
  rw [between, between, List.take_take, Nat.min_eq_left (by omega), Nat.add_sub_cancel_left]

theorem drop_between (k : Nat) : (between head s q).drop k = between head (s + k) q := by
  rw [between, between, List.drop_take, List.drop_drop, Nat.sub_sub]

/-- Where a line that ends at `nl` stops, without its CR. -/
def stopOf (head : Bytes) (s nl : Nat) : Nat :=
  if s < nl ∧ head[nl - 1]? = some cr then nl - 1 else nl

theorem stopOf_le : stopOf head s nl ≤ nl := by
  rw [stopOf]
  split_ifs <;> omega

theorem le_stopOf (h : s ≤ nl) : s ≤ stopOf head s nl := by
  rw [stopOf]
  split_ifs <;> omega

theorem trimCR_between (hnl : nl ≤ head.length) :
    trimCR (between head s nl) = between head s (stopOf head s nl) := by
  have hlength := length_between hnl s
  rw [trimCR, stopOf]
  by_cases hs : s < nl
  · have hlast : (between head s nl).getLast? = head[nl - 1]? := by
      rw [List.getLast?_eq_getElem?, hlength, getElem?_between (by omega),
        show s + (nl - s - 1) = nl - 1 by omega]
    rw [hlast]
    by_cases hcr : head[nl - 1]? = some cr
    · rw [if_pos hcr, if_pos ⟨hs, hcr⟩, List.dropLast_eq_take, hlength,
        take_between (by omega), show s + (nl - s - 1) = nl - 1 by omega]
    · rw [if_neg hcr, if_neg fun hand => hcr hand.2]
  · have hnil : between head s nl = [] := List.eq_nil_of_length_eq_zero (by omega)
    rw [hnil, if_neg (by simp), if_neg fun hand => hs hand.1, hnil]

/-- The bytes of a line up to its CR, and what is behind it. -/
theorem strayFor_eq (hs : s ≤ nl) (hclear : ∀ j, s ≤ j → j < nl → head[j]? ≠ some lf)
    (hend : head[nl]? = some lf ∨ nl = head.length) (requestLine : Bool) {j : Nat} (hle : s ≤ j)
    (hlt : j < nl) :
    strayFor head requestLine j = (decide (j < stopOf head s nl) &&
      head[j]?.any fun ch => isControl ch && (requestLine || ch != 9)) := by
  have hnl : nl ≤ head.length := by
    rcases hend with hlf | heq
    · exact Nat.le_of_lt (List.getElem?_eq_some_iff.mp hlf).1
    · exact Nat.le_of_eq heq
  obtain ⟨ch, hch⟩ : ∃ ch, head[j]? = some ch := ⟨_, List.getElem?_eq_getElem (by omega)⟩
  have hne : (some ch != some lf) = true := by
    rw [← hch]
    exact bne_iff_ne.mpr (hclear j hle hlt)
  have hnine : (some ch != some (9 : UInt8)) = (ch != 9) := rfl
  rw [strayFor, strayAt, hch, hne, Option.any_some, Option.any_some, Bool.and_true, hnine]
  by_cases hj : j < stopOf head s nl
  · have hkept : (some ch == some cr && (head[j + 1]? == some lf || j + 1 == head.length)) = false := by
      by_contra htrue
      rw [Bool.not_eq_false, Bool.and_eq_true, beq_iff_eq, ← hch, Bool.or_eq_true, beq_iff_eq,
        beq_iff_eq] at htrue
      obtain ⟨hcr, hnext⟩ := htrue
      rw [stopOf] at hj
      by_cases hlast : j + 1 = nl
      · rw [if_pos ⟨by omega, by rw [← hlast]; exact hcr⟩] at hj
        omega
      · rcases hnext with hlf | heq
        · exact hclear (j + 1) (by omega) (by omega) hlf
        · omega
    rw [hkept, decide_eq_true hj, Bool.not_false, Bool.and_true, Bool.true_and]
  · rw [stopOf] at hj
    have hcr : s < nl ∧ head[nl - 1]? = some cr := by
      by_contra hnot
      rw [if_neg hnot] at hj
      exact hj hlt
    rw [if_pos hcr] at hj
    have hlast : j = nl - 1 := by omega
    have hnext : (head[j + 1]? == some lf || j + 1 == head.length) = true := by
      have hsucc : j + 1 = nl := by omega
      rw [hsucc, Bool.or_eq_true, beq_iff_eq, beq_iff_eq]
      exact hend
    have hcr' : some ch = some cr := by
      rw [← hch, hlast]
      exact hcr.2
    have hstop : ¬ j < stopOf head s nl := by
      rw [stopOf, if_pos hcr]
      exact hj
    rw [hnext, hcr', decide_eq_false hstop, beq_self_eq_true, Bool.and_true, Bool.not_true,
      Bool.and_false, Bool.false_and, Bool.false_and]

theorem holdsStray_eq (hs : s ≤ nl) (hclear : ∀ j, s ≤ j → j < nl → head[j]? ≠ some lf)
    (hend : head[nl]? = some lf ∨ nl = head.length) (requestLine : Bool) :
    (Bits.firstIn (strayFor head requestLine) s nl).isSome =
      holdsStray requestLine (between head s (stopOf head s nl)) := by
  have hnl : nl ≤ head.length := by
    rcases hend with hlf | heq
    · exact Nat.le_of_lt (List.getElem?_eq_some_iff.mp hlf).1
    · exact Nat.le_of_eq heq
  have hstop : stopOf head s nl ≤ head.length := Nat.le_trans stopOf_le hnl
  rw [holdsStray, ← Bool.not_inj_iff, Option.not_isSome, List.not_any_eq_all_not, Bool.eq_iff_iff,
    Option.isNone_iff_eq_none, Lib.Bits.firstIn_none, all_between hstop]
  constructor
  · intro h j hle hlt
    have hj := h j hle (Nat.lt_of_lt_of_le hlt stopOf_le)
    rw [strayFor_eq hs hclear hend requestLine hle (Nat.lt_of_lt_of_le hlt stopOf_le),
      decide_eq_true hlt, Bool.true_and] at hj
    rw [List.getElem?_eq_getElem (by omega), Option.any_some] at hj ⊢
    rw [hj]
    rfl
  · intro h j hle hlt
    rw [strayFor_eq hs hclear hend requestLine hle hlt]
    by_cases hj : j < stopOf head s nl
    · have := h j hle hj
      rw [List.getElem?_eq_getElem (by omega), Option.any_some, Bool.not_eq_true'] at this
      rw [decide_eq_true hj, Bool.true_and, List.getElem?_eq_getElem (by omega), Option.any_some]
      exact this
    · rw [decide_eq_false hj, Bool.false_and]

theorem idxOf?_some {text : Bytes} {ch : UInt8} {k : Nat} :
    text.idxOf? ch = some k ↔ text[k]? = some ch ∧ ∀ j < k, text[j]? ≠ some ch := by
  rw [List.idxOf?, List.findIdx?_eq_some_iff_getElem]
  constructor
  · rintro ⟨hk, hch, hbefore⟩
    refine ⟨?_, ?_⟩
    · rw [List.getElem?_eq_getElem hk, beq_iff_eq.mp hch]
    · intro j hj heq
      rw [List.getElem?_eq_getElem (by omega)] at heq
      exact hbefore j hj (beq_iff_eq.mpr (Option.some_inj.mp heq))
  · rintro ⟨hch, hbefore⟩
    obtain ⟨hk, heq⟩ := List.getElem?_eq_some_iff.mp hch
    refine ⟨hk, beq_iff_eq.mpr heq, ?_⟩
    intro j hj hbeq
    refine hbefore j hj ?_
    rw [List.getElem?_eq_getElem (by omega), beq_iff_eq.mp hbeq]

theorem idxOf?_none {line : Bytes} {ch : UInt8} : line.idxOf? ch = none ↔ ch ∉ line := by
  rw [List.idxOf?, List.findIdx?_eq_none_iff]
  constructor
  · intro h hmem
    have := h ch hmem
    rw [beq_self_eq_true] at this
    cases this
  · intro h x hx
    exact beq_eq_false_iff_ne.mpr fun heq => h (heq ▸ hx)

theorem colonAt_lt_stopOf {j : Nat} (hlt : j < nl) (h : colonAt head j = true) :
    j < stopOf head s nl := by
  rw [stopOf]
  split_ifs with hcr
  · by_contra hge
    have hlast : j = nl - 1 := by omega
    rw [colonAt, hlast, hcr.2] at h
    exact absurd h (by decide)
  · exact hlt

/-- The colon of a line, as a place in the head and as one in the line. -/
theorem firstIn_colon (hs : s ≤ nl) (hnl : nl ≤ head.length) :
    Bits.firstIn (colonAt head) s nl =
      ((between head s (stopOf head s nl)).idxOf? 58).map (s + ·) := by
  have hstop : stopOf head s nl ≤ head.length := Nat.le_trans stopOf_le hnl
  have hle : s ≤ stopOf head s nl := le_stopOf hs
  have hlength := length_between hstop s
  cases hidx : (between head s (stopOf head s nl)).idxOf? 58 with
  | none =>
    refine Lib.Bits.firstIn_none.mpr fun j hj hlt => ?_
    by_contra hcolon
    rw [Bool.not_eq_false] at hcolon
    refine idxOf?_none.mp hidx (List.mem_iff_getElem?.mpr ⟨j - s, ?_⟩)
    have hlt' := colonAt_lt_stopOf (s := s) hlt hcolon
    rw [getElem?_between (by omega), show s + (j - s) = j by omega]
    exact beq_iff_eq.mp hcolon
  | some k =>
    obtain ⟨hk, hbefore⟩ := idxOf?_some.mp hidx
    have hlt : k < stopOf head s nl - s := by
      have := (List.getElem?_eq_some_iff.mp hk).1
      omega
    rw [getElem?_between hlt] at hk
    refine Lib.Bits.firstIn_some.mpr ⟨beq_iff_eq.mpr hk, Nat.le_add_right s k, ?_, ?_⟩
    · exact Nat.lt_of_lt_of_le (by omega : s + k < stopOf head s nl) stopOf_le
    · intro j hj hjk
      have hjk' : j < s + k := hjk
      have := hbefore (j - s) (by omega)
      rw [getElem?_between (by omega), show s + (j - s) = j by omega] at this
      exact beq_eq_false_iff_ne.mpr this

theorem isBlank_of_token {ch : UInt8} (h : isTokenByte ch = true) : isBlank ch = false := by
  revert ch
  exact fun {ch} => Text.forall_byte (p := fun ch => isTokenByte ch = true → isBlank ch = false)
    (by decide) ch

theorem toLower_first {ch first : UInt8} {rest more : Bytes}
    (h : Text.eqlIgnoreCase (ch :: rest) (first :: more) = true) :
    Text.toLower ch = Text.toLower first := by
  rw [Text.eqlIgnoreCase, beq_iff_eq, List.map_cons, List.map_cons] at h
  exact (List.cons.inj h).1

/-- The names that are looked at begin with four letters between them. -/
theorem mayBeField_of_fieldOf {ch : UInt8} {rest : Bytes} {field : Field}
    (h : fieldOf (ch :: rest) = some field) : mayBeField ch = true := by
  have hletter : Text.toLower ch = 99 ∨ Text.toLower ch = 101 ∨ Text.toLower ch = 104 ∨
      Text.toLower ch = 116 := by
    unfold fieldOf at h
    dsimp only at h
    split at h
    · split_ifs at h with heq
      exact .inr (.inr (.inl (toLower_first heq)))
    · split_ifs at h with heq
      exact .inr (.inl (toLower_first heq))
    · split_ifs at h with heq
      exact .inl (toLower_first heq)
    · split_ifs at h with heq
      exact .inl (toLower_first heq)
    · split_ifs at h with heq
      exact .inl (toLower_first heq)
    · split_ifs at h with heq
      exact .inr (.inr (.inr (toLower_first heq)))
    · cases h
  revert ch
  exact fun {ch} _ => Text.forall_byte (p := fun ch => (Text.toLower ch = 99 ∨ Text.toLower ch = 101 ∨
    Text.toLower ch = 104 ∨ Text.toLower ch = 116) → mayBeField ch = true) (by decide) ch

theorem headerNameOk_iff {name : Bytes} :
    headerNameOk name = true ↔ name ≠ [] ∧ ∀ ch ∈ name, isTokenByte ch = true := by
  rw [headerNameOk, Bool.and_eq_true, decide_eq_true_eq, List.all_eq_true]

/-- The line of fields from `s` up to `stop`, with the colon where the walk has it. -/
theorem readAt_eq (zstd : Bool) {stop colon : Nat} {r : Request} (hs : s < stop)
    (hstop : stop ≤ head.length)
    (hcolon : colon = (((between head s stop).idxOf? 58).map (s + ·)).getD 0 ∨
      s = 0 ∧ head[0]? = some 58) :
    (if head[s]?.any isBlank then .error (.error .badHeader)
      else if colon ≤ s ∨ stop ≤ colon then .error (.error .badHeader)
      else if head[colon - 1]?.any isBlank then .error (.error .badHeader)
      else if !tokenAt head s colon then .error (.error .badHeader)
      else if head[s]?.any mayBeField then (applyHeaderAt zstd head s colon stop r).mapError .error
      else .ok r : Except Left Request) =
    (applyLine zstd (between head s stop) r).mapError .error := by
  have hlength := length_between hstop s
  have hfirst : (between head s stop)[0]? = head[s]? := getElem?_between (by omega)
  by_cases hname : ∃ k, (between head s stop).idxOf? 58 = some k ∧
      headerNameOk ((between head s stop).take k) = true
  · -- a name that is a token, and the colon behind it
    obtain ⟨k, hidx, hok⟩ := hname
    have hk : k < stop - s := by
      have := (List.getElem?_eq_some_iff.mp (idxOf?_some.mp hidx).1).1
      omega
    have htake : (between head s stop).take k = between head s (s + k) := take_between (by omega)
    have hpos : 0 < k := by
      rw [htake, headerNameOk_iff] at hok
      have := List.length_pos_of_ne_nil hok.1
      rw [length_between (by omega)] at this
      omega
    have htoken (j : Nat) (hle : s ≤ j) (hlt : j < s + k) : head[j]?.any isBlank = false := by
      rw [htake, headerNameOk_iff] at hok
      have hch : head[j]? = some (head.get ⟨j, by omega⟩) := List.getElem?_eq_getElem (by omega)
      rw [hch, Option.any_some]
      refine isBlank_of_token (hok.2 _ (List.mem_iff_getElem?.mpr ⟨j - s, ?_⟩))
      rw [getElem?_between (by omega), show s + (j - s) = j by omega, hch]
    have hcolon' : colon = s + k := by
      rcases hcolon with heq | ⟨rfl, hfront⟩
      · rw [heq, hidx]
        rfl
      · rw [← hfirst] at hfront
        exact absurd hfront ((idxOf?_some.mp hidx).2 0 hpos)
    have hfield : fieldLine (between head s stop) =
        some (between head s colon, headerValue head colon stop) := by
      rw [fieldLine, hidx]
      dsimp only
      rw [if_pos hok, htake, drop_between, hcolon', headerValue, Nat.add_assoc]
    rw [applyLine, hfield, htoken s (Nat.le_refl s) (by omega), if_neg Bool.false_ne_true,
      if_neg (by omega), htoken (colon - 1) (by omega) (by omega), if_neg Bool.false_ne_true,
      tokenAt_eq (by omega), hcolon', ← htake, hok, Bool.not_true, if_neg Bool.false_ne_true, htake]
    split_ifs with hmay
    · rfl
    · obtain ⟨ch, hch⟩ : ∃ ch, head[s]? = some ch := ⟨_, List.getElem?_eq_getElem (by omega)⟩
      have hcons : ∃ rest, between head s (s + k) = ch :: rest := by
        have hget : (between head s (s + k))[0]? = some ch := by
          rw [getElem?_between (by omega)]
          exact hch
        cases hb : between head s (s + k) with
        | nil =>
          rw [hb] at hget
          cases hget
        | cons x rest =>
          rw [hb] at hget
          cases hget
          exact ⟨rest, rfl⟩
      obtain ⟨rest, hrest⟩ := hcons
      rw [hch, Option.any_some] at hmay
      have hnone : fieldOf (between head s (s + k)) = none := by
        cases hf : fieldOf (between head s (s + k)) with
        | none => rfl
        | some field =>
          rw [hrest] at hf
          exact absurd (mayBeField_of_fieldOf hf) hmay
      dsimp only
      rw [hnone]
      rfl
  · -- refused, whichever check is the first to see it
    have hfield : fieldLine (between head s stop) = none := by
      rw [fieldLine]
      cases hidx : (between head s stop).idxOf? 58 with
      | none => rfl
      | some k => exact if_neg fun hok => hname ⟨k, hidx, hok⟩
    have hrefused : colon ≤ s ∨ stop ≤ colon ∨ tokenAt head s colon = false := by
      by_contra hnot
      rw [not_or, not_or, Nat.not_le, Nat.not_le, Bool.not_eq_false] at hnot
      obtain ⟨hlo, hhi, htoken⟩ := hnot
      rw [tokenAt_eq (by omega)] at htoken
      rcases hcolon with heq | ⟨rfl, hfront⟩
      · cases hidx : (between head s stop).idxOf? 58 with
        | none =>
          rw [hidx] at heq
          exact absurd hlo (by rw [heq]; exact Nat.not_lt_zero s)
        | some k =>
          rw [hidx] at heq
          have heq' : colon = s + k := heq
          refine hname ⟨k, hidx, ?_⟩
          rw [take_between (by omega), ← heq']
          exact htoken
      · have hmem : (58 : UInt8) ∈ between head 0 colon := by
          refine List.mem_iff_getElem?.mpr ⟨0, ?_⟩
          rw [getElem?_between (by omega)]
          exact hfront
        exact absurd ((headerNameOk_iff.mp htoken).2 58 hmem) (by decide)
    rw [applyLine, hfield]
    split_ifs with h₁ h₂ h₃ h₄ h₅
    · rfl
    · rfl
    · rfl
    · rfl
    · rw [Bool.not_eq_true', Bool.not_eq_false] at h₄
      rw [not_or] at h₂
      rcases hrefused with h | h | h
      · exact absurd h h₂.1
      · exact absurd h h₂.2
      · rw [h] at h₄
        cases h₄
    · rw [Bool.not_eq_true', Bool.not_eq_false] at h₄
      rw [not_or] at h₂
      rcases hrefused with h | h | h
      · exact absurd h h₂.1
      · exact absurd h h₂.2
      · rw [h] at h₄
        cases h₄

theorem applyHeader_eq (zstd : Bool) (line : Bytes) (r : Request) :
    applyHeader zstd line r = applyLine zstd line r := by
  rw [applyHeader, applyLine, fieldLine]
  cases hidx : line.idxOf? 58 with
  | none => exact ite_self _
  | some k =>
    dsimp only
    obtain ⟨hk, -⟩ := idxOf?_some.mp hidx
    have hlt : k < line.length := (List.getElem?_eq_some_iff.mp hk).1
    by_cases hok : headerNameOk (line.take k) = true
    · obtain ⟨hne, htoken⟩ := headerNameOk_iff.mp hok
      have hpos : 0 < k := by
        by_contra hzero
        rw [Nat.eq_zero_of_not_pos hzero] at hne
        exact hne rfl
      have hblank (j : Nat) (hj : j < k) : (line)[j]?.any isBlank = false := by
        have hget : (line)[j]? = some (line.get ⟨j, by omega⟩) := List.getElem?_eq_getElem (by omega)
        rw [hget, Option.any_some]
        refine isBlank_of_token (htoken _ (List.mem_iff_getElem?.mpr ⟨j, ?_⟩))
        rw [List.getElem?_take_of_lt hj, hget]
      have hfirst : line.head?.any isBlank = false := by
        rw [List.head?_eq_getElem?]
        exact hblank 0 hpos
      have hname : between line 0 k = line.take k := by
        rw [between, List.drop_zero, Nat.sub_zero]
      have hvalue : headerValue line k line.length = Text.trimBlanks (line.drop (k + 1)) := by
        rw [headerValue, between, List.take_of_length_le (by rw [List.length_drop])]
      rw [hfirst, if_neg Bool.false_ne_true, if_neg (by omega), hblank (k - 1) (by omega),
        if_neg Bool.false_ne_true, hok, Bool.not_true, if_neg Bool.false_ne_true, if_pos rfl,
        applyHeaderAt, hname]
      dsimp only
      cases fieldOf (line.take k) with
      | none => rfl
      | some field => exact congrArg (fun value => applyField zstd field value r) hvalue
    · have hnot : (!headerNameOk (line.take k)) = true := by
        rw [Bool.eq_false_iff.mpr hok]
        rfl
      rw [if_neg hok, if_pos hnot, ite_self, ite_self, ite_self]

theorem closeLine_eq (zstd : Bool) {w : Walk} (hs : w.lineStart ≤ nl) (hlf : head[nl]? = some lf)
    (hclear : ∀ j, w.lineStart ≤ j → j < nl → head[j]? ≠ some lf) (hcolon : KnowsColon head w nl)
    (hbad : KnowsStray head w nl) :
    closeLine zstd head nl w =
      stepLine zstd w.firstLine (between head w.lineStart nl) w.request := by
  have hnl : nl < head.length := (List.getElem?_eq_some_iff.mp hlf).1
  have hstop : stopOf head w.lineStart nl ≤ head.length := Nat.le_trans stopOf_le (Nat.le_of_lt hnl)
  have hle : w.lineStart ≤ stopOf head w.lineStart nl := le_stopOf hs
  have hlength := length_between hstop w.lineStart
  rw [KnowsStray, holdsStray_eq hs hclear (.inl hlf)] at hbad
  rw [KnowsColon, firstIn_colon hs (Nat.le_of_lt hnl)] at hcolon
  rw [closeLine, stepLine, trimCR_between (Nat.le_of_lt hnl), ← stopOf, hbad]
  by_cases hfirst : w.firstLine = true
  · rw [hfirst, if_pos rfl, if_pos rfl]
  · rw [Bool.not_eq_true] at hfirst
    rw [hfirst, if_neg Bool.false_ne_true, if_neg Bool.false_ne_true]
    by_cases hempty : stopOf head w.lineStart nl = w.lineStart
    · have hnil : between head w.lineStart (stopOf head w.lineStart nl) = [] :=
        List.eq_nil_of_length_eq_zero (by omega)
      rw [if_pos hempty, if_pos hnil]
    · have hne : between head w.lineStart (stopOf head w.lineStart nl) ≠ [] :=
        List.ne_nil_of_length_pos (by omega)
      rw [if_neg hempty, if_neg hne, readField]
      by_cases hstray : holdsStray false
          (between head w.lineStart (stopOf head w.lineStart nl)) = true
      · rw [if_pos hstray, if_pos hstray]
        rfl
      · rw [if_neg hstray, if_neg hstray]
        exact readAt_eq zstd (by omega) hstop hcolon

theorem takeRest_eq (zstd : Bool) {w : Walk} (hs : w.lineStart ≤ head.length)
    (hclear : ∀ j, w.lineStart ≤ j → j < head.length → head[j]? ≠ some lf)
    (hbad : KnowsStray head w head.length) :
    takeRest zstd head w = stepLines zstd w.firstLine [head.drop w.lineStart] w.request := by
  have hwhole : head.drop w.lineStart = between head w.lineStart head.length := by
    rw [between, List.take_of_length_le (by rw [List.length_drop])]
  rw [KnowsStray, holdsStray_eq hs hclear (.inr rfl), ← trimCR_between (Nat.le_refl _),
    ← hwhole] at hbad
  rw [takeRest, Nat.min_eq_left hs, stepLines, stepLine]
  dsimp only
  rw [hbad]
  by_cases hfirst : w.firstLine = true
  · rw [if_pos (.inr hfirst), hfirst, if_pos rfl, if_pos rfl]
    split_ifs with hstray
    · rfl
    · cases parseRequestLine (trimCR (head.drop w.lineStart)) w.request <;> rfl
  · rw [Bool.not_eq_true] at hfirst
    rw [hfirst, if_neg Bool.false_ne_true, if_neg Bool.false_ne_true]
    by_cases hnil : trimCR (head.drop w.lineStart) = []
    · rw [hnil, List.length_nil, if_neg (Nat.lt_irrefl 0), ite_self]
      rfl
    · have hlt : w.lineStart < head.length := by
        by_contra hge
        rw [List.drop_of_length_le (by omega)] at hnil
        exact hnil rfl
      rw [if_pos (.inl hlt), if_pos (List.length_pos_of_ne_nil hnil), if_neg hnil, readField,
        applyHeader_eq]
      split_ifs with hstray
      · rfl
      · cases applyLine zstd (trimCR (head.drop w.lineStart)) w.request <;> rfl

end Line

/-! ## From newline to newline -/

/-- What is left to read, from the open line on. -/
def leftOf (zstd : Bool) (head : Bytes) (w : Walk) : Except ParseError Request :=
  stepLines zstd w.firstLine ((head.drop w.lineStart).splitOn lf) w.request

section Blocks

variable {head : Bytes} {i b c nl : Nat} {w : Walk} {m : Masks}

theorem splitOn_drop {s : Nat} (hs : s ≤ nl) (hlf : head[nl]? = some lf)
    (hclear : ∀ j, s ≤ j → j < nl → head[j]? ≠ some lf) :
    (head.drop s).splitOn lf = between head s nl :: (head.drop (nl + 1)).splitOn lf := by
  have hnl : nl < head.length := (List.getElem?_eq_some_iff.mp hlf).1
  have hsplit : head.drop s = between head s nl ++ lf :: head.drop (nl + 1) := by
    have hrest : (head.drop s).drop (nl - s) = lf :: head.drop (nl + 1) := by
      rw [List.drop_drop, show s + (nl - s) = nl by omega, List.drop_eq_getElem_cons hnl,
        (List.getElem?_eq_some_iff.mp hlf).2]
    conv_lhs => rw [← List.take_append_drop (nl - s) (head.drop s), hrest]
    rfl
  have hnot : lf ∉ between head s nl := by
    intro hmem
    obtain ⟨k, hk⟩ := List.mem_iff_getElem?.mp hmem
    have hlt : k < nl - s := by
      have := (List.getElem?_eq_some_iff.mp hk).1
      rwa [length_between (Nat.le_of_lt hnl)] at this
    rw [getElem?_between hlt] at hk
    exact hclear (s + k) (by omega) (by omega) hk
  rw [hsplit, List.splitOn_append_cons_self_of_not_mem hnot]

/-- A newline, and the rest of the block behind it. -/
theorem atNewline_spec (zstd : Bool) (h : Open head i b w m) (hb : b ≤ c) (hc : c < lanes)
    (hlf : head[i + c]? = some lf) (hclear : ∀ k, b ≤ k → k < c → head[i + k]? ≠ some lf) :
    match atNewline zstd head i (w, m) c with
    | .error left => leftOf zstd head w = left
    | .ok (w', m') => Open head i (c + 1) w' m' ∧ leftOf zstd head w' = leftOf zstd head w := by
  have hnl : i + c < head.length := (List.getElem?_eq_some_iff.mp hlf).1
  have hstart : w.lineStart ≤ i + c := by
    rcases h.start with ⟨-, hle⟩ | heq <;> omega
  have hline : ∀ j, w.lineStart ≤ j → j < i + c → head[j]? ≠ some lf := by
    intro j hle hlt
    by_cases hj : j < i
    · exact h.clear j hle hj
    · have := hclear (j - i) (by rcases h.start with ⟨rfl, -⟩ | heq <;> omega) (by omega)
      rwa [show i + (j - i) = j by omega] at this
  have hclose := @closeLine_eq head (i + c) zstd
    { w with
      colon := claimColon i w (m.unclaimed &&& (2 ^ c - 1))
      lineBad := w.lineBad || (m.stray w &&& (2 ^ c - 1)) != 0 } hstart hlf hline
    (h.knowsColon hb (Nat.le_of_lt hc) _) (h.knowsStray hb (Nat.le_of_lt hc) _)
  have hleft : leftOf zstd head w = stepLines zstd w.firstLine
      (between head w.lineStart (i + c) :: (head.drop (i + c + 1)).splitOn lf) w.request := by
    rw [leftOf, splitOn_drop hstart hlf hline]
  rw [atNewline]
  dsimp only at hclose ⊢
  rw [hclose, hleft, stepLines]
  cases stepLine zstd w.firstLine (between head w.lineStart (i + c)) w.request with
  | error left => rfl
  | ok r =>
    refine ⟨⟨.inr rfl, hnl, .inl ?_, ?_, ?_, h.marked.after hb hlf⟩, rfl⟩
    · rw [Lib.Bits.firstIn_of_le (show i ≤ i + c + 1 by omega)]
      rfl
    · rw [KnowsStray, Lib.Bits.firstIn_of_le (show i ≤ i + c + 1 by omega)]
      rfl
    · intro j hle hlt
      have hle' : i + c + 1 ≤ j := hle
      omega

/-- The newlines of a block from bit `c` on. -/
theorem newlines_spec (zstd : Bool) (n : Nat) : ∀ {b c : Nat} {w : Walk} {m : Masks}, Open head i b w m → b ≤ c →
    c + n = lanes → (∀ k, b ≤ k → k < c → head[i + k]? ≠ some lf) →
    match ((List.range' c n).filter fun k => head[i + k]? == some lf).foldlM
        (atNewline zstd head i) (w, m) with
    | .error left => leftOf zstd head w = left
    | .ok (w', m') => (∃ b', b' ≤ lanes ∧ Open head i b' w' m' ∧
        ∀ k, b' ≤ k → k < lanes → head[i + k]? ≠ some lf) ∧
        leftOf zstd head w' = leftOf zstd head w := by
  induction n with
  | zero =>
    intro b c w m h hb hn hclear
    exact ⟨⟨b, by omega, h, fun k hle hlt => hclear k hle (by omega)⟩, rfl⟩
  | succ n ih =>
    intro b c w m h hb hn hclear
    rw [List.range'_succ]
    by_cases hlf : head[i + c]? = some lf
    · rw [List.filter_cons_of_pos (p := fun k => head[i + k]? == some lf) (beq_iff_eq.mpr hlf),
        List.foldlM_cons]
      have hstep := atNewline_spec zstd h hb (by omega) hlf hclear
      cases hat : atNewline zstd head i (w, m) c with
      | error left =>
        rw [hat] at hstep
        exact hstep
      | ok s =>
        obtain ⟨w', m'⟩ := s
        rw [hat] at hstep
        obtain ⟨hopen, hleft⟩ := hstep
        have hrest := ih hopen (Nat.le_refl (c + 1)) (by omega) fun k hle hlt => by omega
        rw [hleft] at hrest
        exact hrest
    · have hne : ¬ (head[i + c]? == some lf) = true := by
        rw [beq_iff_eq]
        exact hlf
      rw [List.filter_cons_of_neg (p := fun k => head[i + k]? == some lf) hne]
      refine ih h (by omega) (by omega) fun k hle hlt => ?_
      by_cases hk : k = c
      · rw [hk]
        exact hlf
      · exact hclear k hle (by omega)

theorem takeBlock_spec (zstd : Bool) (h : Open head i 0 w (masksAt head i)) (hi : i ≤ head.length) :
    match takeBlock zstd head i w with
    | .error left => leftOf zstd head w = left
    | .ok w' => (∀ m, Marked head (i + lanes) 0 m → Open head (i + lanes) 0 w' m) ∧
        leftOf zstd head w' = leftOf zstd head w := by
  have hpos : Bits.positions lanes (positionsOf head i lf) =
      (List.range' 0 lanes).filter fun k => head[i + k]? == some lf := by
    rw [positionsOf, Scan.positions_classOf _ hi, List.range_eq_range']
    refine List.filter_congr fun k _ => ?_
    exact any_beq _ _
  have hlines := newlines_spec zstd lanes h (Nat.le_refl 0) (Nat.zero_add lanes)
    fun k hle hlt => by omega
  have hlt : positionsOf head i lf < 2 ^ lanes := Scan.classOf_lt ..
  rw [takeBlock, Lib.Bits.each_eq _ hlt, hpos]
  cases hfold : ((List.range' 0 lanes).filter fun k => head[i + k]? == some lf).foldlM
      (atNewline zstd head i) (w, masksAt head i) with
  | error left =>
    rw [hfold] at hlines
    exact hlines
  | ok s =>
    obtain ⟨w', m'⟩ := s
    rw [hfold] at hlines
    obtain ⟨⟨b', hb', hopen, hclear⟩, hleft⟩ := hlines
    refine ⟨?_, hleft⟩
    intro m hm
    have hcolon := hopen.knowsColon hb' (Nat.le_refl lanes)
      (w'.lineBad || m'.stray w' != 0)
    have hbad := hopen.knowsStray hb' (Nat.le_refl lanes)
      (claimColon i w' m'.unclaimed)
    rw [hopen.marked.unclaimed.and_all] at hcolon
    rw [(hopen.marked.stray w').and_all] at hbad
    refine ⟨.inl ⟨rfl, ?_⟩, hopen.inside, hcolon, hbad, ?_, hm⟩
    · rcases hopen.start with ⟨-, hle⟩ | heq
      · exact Nat.le_trans hle (Nat.le_add_right i lanes)
      · show w'.lineStart ≤ i + lanes
        omega
    · intro j hle hlt
      by_cases hj : j < i
      · exact hopen.clear j hle hj
      · have hle' : w'.lineStart ≤ j := hle
        have := hclear (j - i) (by rcases hopen.start with ⟨rfl, -⟩ | heq <;> omega) (by omega)
        rwa [show i + (j - i) = j by omega] at this

theorem strayAt_past {j : Nat} (hj : head.length ≤ j) : strayAt head j = false := by
  rw [strayAt, List.getElem?_eq_none hj]
  rfl

theorem marked_past (hi : head.length ≤ i) : Marked head i 0 ⟨0, 0, 0⟩ := by
  refine ⟨fun k => ?_, fun k => ?_, fun k => ?_⟩
  · rw [Nat.zero_testBit, colonAt, List.getElem?_eq_none (by omega)]
    exact (Bool.and_false _).symm
  · rw [Nat.zero_testBit, strayFor, strayAt_past (by omega), Bool.false_and, Bool.and_false]
  · dsimp only
    rw [Nat.zero_testBit, strayAt_past (by omega), Bool.false_and, Bool.and_false]

/-- The blocks are past, and what is left is one more line. -/
theorem takeRest_spec (zstd : Bool) (h : Open head i 0 w m) (hi : head.length ≤ i) :
    takeRest zstd head w = leftOf zstd head w := by
  have hclear : ∀ j, w.lineStart ≤ j → j < head.length → head[j]? ≠ some lf :=
    fun j hle hlt => h.clear j hle (Nat.lt_of_lt_of_le hlt hi)
  have hbad : KnowsStray head w head.length := by
    have hpast : Bits.firstIn (strayFor head w.firstLine) head.length i = none := by
      refine Lib.Bits.firstIn_none.mpr fun j hle _ => ?_
      rw [strayFor, strayAt_past hle, Bool.false_and]
    rw [KnowsStray, h.bad, Lib.Bits.firstIn_or h.inside hi, hpast, Option.or_none]
  have hnot : lf ∉ head.drop w.lineStart := by
    intro hmem
    obtain ⟨k, hk⟩ := List.mem_iff_getElem?.mp hmem
    rw [List.getElem?_drop] at hk
    exact hclear _ (Nat.le_add_right _ k) (List.getElem?_eq_some_iff.mp hk).1 hk
  rw [takeRest_eq zstd h.inside hclear hbad, leftOf, List.splitOn_eq_singleton hnot]

theorem takeBlocks_spec (zstd : Bool) (n : Nat) : ∀ {i : Nat} {w : Walk},
    (∀ m, Marked head i 0 m → Open head i 0 w m) → head.length < i + n →
    (match takeBlocks zstd head n i w with
      | .error left => left
      | .ok w => takeRest zstd head w) = leftOf zstd head w := by
  induction n with
  | zero =>
    intro i w h hn
    exact takeRest_spec zstd (h _ (marked_past (by omega))) (by omega)
  | succ n ih =>
    intro i w h hn
    rw [takeBlocks]
    by_cases hi : i < head.length
    · rw [if_pos hi]
      have hblock := takeBlock_spec zstd (h _ (marked_masksAt (Nat.le_of_lt hi))) (Nat.le_of_lt hi)
      cases hat : takeBlock zstd head i w with
      | error left =>
        rw [hat] at hblock
        exact hblock.symm
      | ok w' =>
        rw [hat] at hblock
        obtain ⟨hopen, hleft⟩ := hblock
        have hlanes : lanes = 32 := rfl
        rw [← hleft]
        exact ih hopen (by omega)
    · rw [if_neg hi]
      exact takeRest_spec zstd (h _ (marked_past (by omega))) (by omega)

/-- The walk reads a head as it stands between its newlines. -/
theorem readLines_eq (zstd : Bool) (head : Bytes) (r : Request) (requestLine : Bool) :
    readLines zstd head r requestLine = readPlain zstd head r requestLine := by
  have hstart (m : Masks) (hm : Marked head 0 0 m) :
      Open head 0 0 ⟨0, 0, requestLine, false, r⟩ m := by
    refine ⟨.inl ⟨rfl, Nat.le_refl 0⟩, Nat.zero_le _, .inl ?_, ?_, ?_, hm⟩
    · rw [Lib.Bits.firstIn_of_le (Nat.le_refl 0)]
      rfl
    · rw [KnowsStray, Lib.Bits.firstIn_of_le (Nat.le_refl 0)]
      rfl
    · intro j _ hlt
      omega
  have hleft := takeBlocks_spec zstd (head.length + 1) hstart (by omega)
  rw [leftOf, List.drop_zero] at hleft
  rw [readLines, readPlain]
  exact hleft

end Blocks

end Nilo.Http1
