import Nilo.Http1.Framing

/-!
# Looking a header up (`findHeader`, `HeaderIterator` in `http/http1.zig`)

The iterator splits a head into its lines and each line at its colon. `findHeader` looks, sixteen
bytes at a time, for the newlines in front of a name's first letter, and only at those lines.
`findHeader_eq` says that on a head the parser accepted the two find the same.
-/

namespace Nilo.Http1

open Text (Bytes between eqlIgnoreCase)
open Lib (Bits.marks Bits.walk Bits.ctz Bits.positions)

/-! ## The iterator -/

/-- Every header in a head, with the lines that are left. -/
structure HeaderIterator where
  lines : List Bytes
deriving DecidableEq, Repr

namespace HeaderIterator

/-- The request line is skipped. -/
def start (head : Bytes) : HeaderIterator := ⟨(head.splitOn lf).tail⟩

def next (it : HeaderIterator) : Option ((Bytes × Bytes) × HeaderIterator) :=
  match it.lines with
  | [] => none
  | raw :: rest =>
    let line := trimCR raw
    if line = [] then none
    else
      match line.idxOf? 58 with
      | none => none
      | some colon => some ((line.take colon, Text.trimBlanks (line.drop (colon + 1))), ⟨rest⟩)

/-- What `next` gives until it gives nothing: a line a turn. -/
def allWithin : Nat → HeaderIterator → List (Bytes × Bytes)
  | 0, _ => []
  | n + 1, it =>
    match it.next with
    | none => []
    | some (pair, it) => pair :: allWithin n it

def all (it : HeaderIterator) : List (Bytes × Bytes) := allWithin it.lines.length it

end HeaderIterator

/-! ## The lookup -/

/-- How many bytes are looked at per load. -/
def width : Nat := 16

/-- A line starts behind `head[j]`, with the letter `first`. -/
def startsAt (head : Bytes) (first : UInt8) (j : Nat) : Bool :=
  head[j]? == some lf && head[j + 1]?.any fun ch => ch ||| 0x20 == first

/-- The lines that start with a name's letter, in the block at `i`. A tail shorter than a block loads from
`length - 17` and shifts off what was looked at. -/
def headerStarts (head : Bytes) (i : Nat) (first : UInt8) : Nat :=
  if head.length < width + 1 then
    Bits.marks (fun k => startsAt head first (i + k)) (List.range (head.length - i))
  else
    let base := min i (head.length - (width + 1))
    let lines := Bits.marks (· == lf) ((head.drop base).take width)
    let firsts := Bits.marks (fun ch => ch ||| 0x20 == first) ((head.drop (base + 1)).take width)
    (lines &&& firsts) >>> (i - base)

/-- `a` against `b`, of the same length, ignoring case. -/
def sameName (a b : Bytes) : Bool :=
  (a.zip b).all fun (x, y) =>
    let d := x ^^^ y
    !(d != 0 && (d != 0x20 || !Text.isAlphabetic x)) && y != 58

/-- The colon of the line that starts at `start`, where that line is the one looked for. -/
def colonOf (head name : Bytes) (start : Nat) : Option Nat :=
  let colon := start + name.length
  if colon ≥ head.length ∨ head[colon]? ≠ some 58 then none
  else if !sameName (between head start colon) name then none
  else some colon

/-- The loop over the blocks; each turn but the last goes a block on. -/
def findColonFrom (head name : Bytes) (first : UInt8) : Nat → Nat → Option Nat
  | 0, _ => none
  | n + 1, i =>
    if i + 1 < head.length then
      match Bits.walk width (fun k => colonOf head name (i + 1 + k)) (headerStarts head i first) with
      | some colon => some colon
      | none => findColonFrom head name first n (i + width)
    else none

def findHeaderColon (head name : Bytes) : Option Nat :=
  match name with
  | [] => none
  | ch :: _ => findColonFrom head name (ch ||| 0x20) head.length 0

/-- The loop over the blocks of `lineEnd`, and then over the bytes that are left. -/
def lineEndFrom (head : Bytes) : Nat → Nat → Nat
  | 0, i => i
  | n + 1, i =>
    if i + width ≤ head.length then
      let lines := Bits.marks (· == lf) ((head.drop i).take width)
      if lines ≠ 0 then i + Bits.ctz width lines else lineEndFrom head n (i + width)
    else i + ((head.drop i).takeWhile (· ≠ lf)).length

/-- Where the line that has reached `start` ends. -/
def lineEnd (head : Bytes) (start : Nat) : Nat := lineEndFrom head (head.length + 1) start

/-- The value of the line whose colon is at `colon`. -/
def valueAfter (head : Bytes) (colon : Nat) : Bytes :=
  let start := colon + 1
  let newline := lineEnd head start
  let stop := if newline > start ∧ head[newline - 1]? = some cr then newline - 1 else newline
  Text.trimBlanks (between head start stop)

/-- The value of the first header of this name. -/
def findHeader (head name : Bytes) : Option Bytes := (findHeaderColon head name).map (valueAfter head)

/-! ## The masks -/

theorem any_eq_beq (o : Option UInt8) (b : UInt8) : (o.any fun ch => ch == b) = (o == some b) := by
  cases o <;> rfl

theorem headerStarts_lt (head : Bytes) (i : Nat) (first : UInt8) :
    headerStarts head i first < 2 ^ width := by
  rw [headerStarts]
  split_ifs with hshort
  · refine Nat.lt_of_lt_of_le (Lib.Bits.marks_lt _ _) (Nat.pow_le_pow_right (by decide) ?_)
    rw [List.length_range]
    omega
  · refine Nat.lt_of_le_of_lt (Nat.shiftRight_le _ _) (Nat.lt_of_le_of_lt Nat.and_le_left ?_)
    refine Nat.lt_of_lt_of_le (Lib.Bits.marks_lt _ _) (Nat.pow_le_pow_right (by decide) ?_)
    rw [List.length_take]
    omega

theorem startsAt_past {head : Bytes} {first : UInt8} {j : Nat} (h : head.length ≤ j + 1) :
    startsAt head first j = false := by
  rw [startsAt, List.getElem?_eq_none (l := head) h]
  exact Bool.and_false _

theorem testBit_headerStarts {head : Bytes} {i : Nat} (first : UInt8) (h : i < head.length) (k : Nat) :
    (headerStarts head i first).testBit k = (decide (k < width) && startsAt head first (i + k)) := by
  have hwidth : width = 16 := rfl
  rw [headerStarts]
  split_ifs with hshort
  · rw [Lib.Bits.testBit_marks]
    by_cases hk : k < head.length - i
    · rw [List.getElem?_range hk, Option.any_some]
      by_cases hk' : k < width
      · rw [decide_eq_true hk', Bool.true_and]
      · rw [startsAt_past (by omega), Bool.and_false]
    · rw [List.getElem?_eq_none (by rw [List.length_range]; omega), startsAt_past (by omega),
        Bool.and_false]
      rfl
  · dsimp only
    rw [Nat.testBit_shiftRight, Nat.testBit_and, Lib.Bits.testBit_marks, Lib.Bits.testBit_marks]
    by_cases hk : i - min i (head.length - (width + 1)) + k < width
    · rw [List.getElem?_take_of_lt hk, List.getElem?_take_of_lt hk, List.getElem?_drop,
        List.getElem?_drop, any_eq_beq, startsAt, decide_eq_true (by omega), Bool.true_and]
      have hplace : min i (head.length - (width + 1)) +
          (i - min i (head.length - (width + 1)) + k) = i + k := by omega
      have hnext : min i (head.length - (width + 1)) + 1 +
          (i - min i (head.length - (width + 1)) + k) = i + k + 1 := by omega
      rw [hplace, hnext]
    · rw [List.getElem?_take_eq_none (by omega)]
      by_cases hk' : k < width
      · rw [startsAt_past (by omega), Bool.and_false]
        rfl
      · rw [decide_eq_false hk']
        rfl

/-! ## Names -/

/-- A capital letter and a small one are a bit apart, and nothing else is lowered. -/
theorem letters (ch : UInt8) :
    (Text.toLower ch ≠ ch → ch = Text.toLower ch ^^^ 0x20 ∧ Text.isAlphabetic ch = true ∧
      Text.isAlphabetic (Text.toLower ch) = true) ∧
    (Text.isAlphabetic ch = true → Text.toLower (ch ^^^ 0x20) = Text.toLower ch) :=
  Text.forall_byte (p := fun ch => (Text.toLower ch ≠ ch → ch = Text.toLower ch ^^^ 0x20 ∧
    Text.isAlphabetic ch = true ∧ Text.isAlphabetic (Text.toLower ch) = true) ∧
    (Text.isAlphabetic ch = true → Text.toLower (ch ^^^ 0x20) = Text.toLower ch))
    (by decide) ch

theorem upper_toLower {ch : UInt8} (h : Text.toLower ch ≠ ch) : ch = Text.toLower ch ^^^ 0x20 :=
  ((letters ch).1 h).1

theorem alphabetic_of_upper {ch : UInt8} (h : Text.toLower ch ≠ ch) :
    Text.isAlphabetic ch = true ∧ Text.isAlphabetic (Text.toLower ch) = true :=
  ((letters ch).1 h).2

theorem toLower_folded {ch : UInt8} (h : Text.isAlphabetic ch = true) :
    Text.toLower (ch ^^^ 0x20) = Text.toLower ch :=
  (letters ch).2 h

/-- Two letters that differ in case, or one byte. -/
theorem toLower_eq_iff {x y : UInt8} : Text.toLower x = Text.toLower y ↔
    x ^^^ y = 0 ∨ x ^^^ y = 0x20 ∧ Text.isAlphabetic x = true := by
  constructor
  · intro h
    by_cases hx : Text.toLower x = x
    · by_cases hy : Text.toLower y = y
      · left
        rw [UInt8.xor_eq_zero_iff, ← hx, ← hy, h]
      · right
        have hfold := upper_toLower hy
        rw [← h, hx] at hfold
        refine ⟨?_, ?_⟩
        · rw [hfold, ← UInt8.xor_assoc, UInt8.xor_self, UInt8.zero_xor]
        · rw [← hx, h]
          exact (alphabetic_of_upper hy).2
    · by_cases hy : Text.toLower y = y
      · right
        have hfold := upper_toLower hx
        rw [h, hy] at hfold
        refine ⟨?_, (alphabetic_of_upper hx).1⟩
        rw [hfold, UInt8.xor_comm y, UInt8.xor_assoc, UInt8.xor_self, UInt8.xor_zero]
      · left
        rw [UInt8.xor_eq_zero_iff, upper_toLower hx, upper_toLower hy, h]
  · rintro (h | ⟨h, halpha⟩)
    · rw [UInt8.xor_eq_zero_iff.mp h]
    · have hy : y = x ^^^ 0x20 := by
        rw [← h, ← UInt8.xor_assoc, UInt8.xor_self, UInt8.zero_xor]
      rw [hy, toLower_folded halpha]

theorem sameName_iff {a b : Bytes} (hlength : a.length = b.length)
    (hb : ∀ ch ∈ b, isTokenByte ch = true) : sameName a b = true ↔ eqlIgnoreCase a b = true := by
  induction a generalizing b with
  | nil =>
    have hnil : b = [] := List.eq_nil_of_length_eq_zero hlength.symm
    rw [hnil]
    exact iff_of_true rfl rfl
  | cons x a ih =>
    match b, hlength with
    | y :: b, hlength =>
      have hy : (y != 58) = true := by
        refine bne_iff_ne.mpr ?_
        rintro rfl
        exact absurd (hb 58 List.mem_cons_self) (by decide)
      have ih := ih (Nat.succ.inj hlength) fun ch hch => hb ch (List.mem_cons_of_mem y hch)
      have hfirst : (!(x ^^^ y != 0 && (x ^^^ y != 0x20 || !Text.isAlphabetic x))) = true ↔
          Text.toLower x = Text.toLower y := by
        rw [toLower_eq_iff]
        by_cases hzero : x ^^^ y = 0
        · simp [hzero]
        · by_cases hfold : x ^^^ y = 0x20 <;> simp [hzero, hfold]
      rw [eqlIgnoreCase, beq_iff_eq] at ih ⊢
      rw [List.map_cons, List.map_cons, List.cons.injEq, ← ih, ← hfirst, sameName, sameName,
        List.zip_cons_cons, List.all_cons, Bool.and_eq_true]
      dsimp only
      rw [hy, Bool.and_true]

/-! ## A newline at a time -/

/-- A text from the front of a line on, where the line is the one looked for. -/
def lineMatches (name rest : Bytes) : Bool :=
  rest[name.length]? == some 58 && sameName (rest.take name.length) name

/-- The value of a line, from behind its colon on. -/
def valueOf (rest : Bytes) : Bytes := Text.trimBlanks (trimCR (rest.takeWhile (· ≠ lf)))

/-- The first line behind a newline that is the one looked for. -/
def seek (name : Bytes) : Bytes → Option Bytes
  | [] => none
  | b :: rest =>
    if b = lf ∧ lineMatches name rest = true then some (valueOf (rest.drop (name.length + 1)))
    else seek name rest

section Scan

variable {head name : Bytes} {i : Nat}

theorem colonOf_eq (head name : Bytes) (start : Nat) : colonOf head name start =
    if lineMatches name (head.drop start) = true then some (start + name.length) else none := by
  have hget : (head.drop start)[name.length]? = head[start + name.length]? := List.getElem?_drop
  have htake : between head start (start + name.length) = (head.drop start).take name.length := by
    rw [between, Nat.add_sub_cancel_left]
  rw [colonOf, lineMatches, hget, htake]
  by_cases hcolon : head[start + name.length]? = some 58
  · have hlt := (List.getElem?_eq_some_iff.mp hcolon).1
    rw [if_neg (not_or.mpr ⟨Nat.not_le.mpr hlt, not_not.mpr hcolon⟩), hcolon, beq_self_eq_true,
      Bool.true_and]
    cases sameName ((head.drop start).take name.length) name <;> rfl
  · rw [if_pos (.inr hcolon), beq_eq_false_iff_ne.mpr hcolon, Bool.false_and,
      if_neg Bool.false_ne_true]

/-- What is looked for at one newline. -/
def colonBehind (head name : Bytes) (j : Nat) : Option Nat :=
  if head[j]? = some lf then colonOf head name (j + 1) else none

/-- A line that starts with another letter is not the one. -/
theorem colonBehind_none {ch : UInt8} {more : Bytes} {j : Nat}
    (h : startsAt head (ch ||| 0x20) j = false) : colonBehind head (ch :: more) j = none := by
  rw [colonBehind]
  split_ifs with hlf
  · rw [colonOf_eq, if_neg]
    intro hmatch
    rw [lineMatches, Bool.and_eq_true, beq_iff_eq] at hmatch
    obtain ⟨hcolon, hsame⟩ := hmatch
    cases hrest : head.drop (j + 1) with
    | nil =>
      rw [hrest] at hcolon
      cases hcolon
    | cons x rest =>
      rw [hrest, List.length_cons, List.take_succ_cons, sameName, List.zip_cons_cons, List.all_cons,
        Bool.and_eq_true] at hsame
      have hfirst : head[j + 1]? = some x := by
        have := congrArg (·[0]?) hrest
        simp only [List.getElem?_drop, Nat.add_zero, List.getElem?_cons_zero] at this
        exact this
      have hfold : (x ||| 0x20 == ch ||| 0x20) = true := by
        have hxor : x ^^^ ch = 0 ∨ x ^^^ ch = 0x20 := by
          by_contra hnot
          rw [not_or] at hnot
          simp [hnot] at hsame
        rcases hxor with hxor | hxor
        · rw [UInt8.xor_eq_zero_iff.mp hxor]
          exact beq_self_eq_true _
        · have hx : x = ch ^^^ 0x20 := by
            rw [← hxor, UInt8.xor_comm x, ← UInt8.xor_assoc, UInt8.xor_self, UInt8.zero_xor]
          rw [hx]
          exact Text.forall_byte (p := fun ch => (ch ^^^ 0x20 ||| 0x20 == ch ||| 0x20) = true)
            (by decide) ch
      rw [startsAt, hlf, hfirst, Option.any_some, hfold] at h
      cases h
  · rfl

theorem findColonFrom_eq {ch : UInt8} {more : Bytes} (n : Nat) :
    ∀ {i : Nat}, head.length ≤ i + n →
    findColonFrom head (ch :: more) (ch ||| 0x20) n i =
      (List.range' i (head.length - i)).findSome? (colonBehind head (ch :: more)) := by
  have hwidth : width = 16 := rfl
  have hpast (j : Nat) (hj : head.length ≤ j + 1) : colonBehind head (ch :: more) j = none :=
    colonBehind_none (startsAt_past hj)
  induction n with
  | zero =>
    intro i hn
    rw [show head.length - i = 0 by omega]
    rfl
  | succ n ih =>
    intro i hn
    rw [findColonFrom]
    split_ifs with hi
    · have hblock : Bits.walk width (fun k => colonOf head (ch :: more) (i + 1 + k))
            (headerStarts head i (ch ||| 0x20)) =
          (List.range' i width).findSome? (colonBehind head (ch :: more)) := by
        have hfilter : Bits.positions width (headerStarts head i (ch ||| 0x20)) =
            (List.range width).filter fun k => startsAt head (ch ||| 0x20) (i + k) := by
          refine List.filter_congr fun k hk => ?_
          rw [testBit_headerStarts _ (by omega), decide_eq_true (List.mem_range.mp hk), Bool.true_and]
        rw [Lib.Bits.walk_eq _ (headerStarts_lt ..), hfilter, List.range'_eq_map_range,
          List.findSome?_map]
        refine findSome?_filter _ _ _ _ (fun k _ hk => ?_) (fun k _ hk => colonBehind_none hk)
        rw [startsAt, Bool.and_eq_true, beq_iff_eq] at hk
        rw [Function.comp, colonBehind, if_pos hk.1, Nat.add_right_comm]
      have hsplit : (List.range' i (head.length - i)).findSome? (colonBehind head (ch :: more)) =
          ((List.range' i width).findSome? (colonBehind head (ch :: more))).or
            ((List.range' (i + width) (head.length - (i + width))).findSome?
              (colonBehind head (ch :: more))) := by
        by_cases hlong : i + width ≤ head.length
        · rw [← List.findSome?_append, List.range'_append_1,
            show width + (head.length - (i + width)) = head.length - i by omega]
        · have hrange : List.range' i width = List.range' i (head.length - i) ++
              List.range' (i + (head.length - i)) (width - (head.length - i)) := by
            rw [List.range'_append_1,
              show head.length - i + (width - (head.length - i)) = width by omega]
          have hnone : (List.range' (i + (head.length - i)) (width - (head.length - i))).findSome?
              (colonBehind head (ch :: more)) = none := by
            refine List.findSome?_eq_none_iff.mpr fun j hj => hpast j ?_
            have := (List.mem_range'_1.mp hj).1
            omega
          rw [hrange, List.findSome?_append, hnone, Option.or_none,
            show head.length - (i + width) = 0 by omega]
          exact (Option.or_none).symm
      rw [hblock, hsplit, ← ih (i := i + width) (by omega)]
      cases (List.range' i width).findSome? (colonBehind head (ch :: more)) <;> rfl
    · refine (List.findSome?_eq_none_iff.mpr fun j hj => hpast j ?_).symm
      have := (List.mem_range'_1.mp hj).1
      omega

theorem takeWhile_append {line more : Bytes} (hline : lf ∉ line) :
    (line ++ more).takeWhile (· ≠ lf) = line ++ more.takeWhile (· ≠ lf) := by
  induction line with
  | nil => rfl
  | cons ch line ih =>
    rw [List.mem_cons, not_or] at hline
    rw [List.cons_append, List.takeWhile_cons_of_pos (by simpa using Ne.symm hline.1), ih hline.2,
      List.cons_append]

/-- A text up to its first newline. -/
theorem length_takeWhile {text : Bytes} {k : Nat} (hk : k ≤ text.length)
    (hclear : ∀ j < k, text[j]? ≠ some lf) :
    (text.takeWhile (· ≠ lf)).length = k + ((text.drop k).takeWhile (· ≠ lf)).length := by
  have hline : lf ∉ text.take k := by
    intro hmem
    obtain ⟨j, hj⟩ := List.mem_iff_getElem?.mp hmem
    have hlt : j < k := by
      have := (List.getElem?_eq_some_iff.mp hj).1
      rw [List.length_take] at this
      omega
    rw [List.getElem?_take_of_lt hlt] at hj
    exact hclear j hlt hj
  conv_lhs => rw [← List.take_append_drop k text]
  rw [takeWhile_append hline, List.length_append, List.length_take, Nat.min_eq_left hk]

theorem lineEndFrom_eq (n : Nat) : ∀ {i : Nat}, head.length < i + n →
    lineEndFrom head n i = i + ((head.drop i).takeWhile (· ≠ lf)).length := by
  have hwidth : width = 16 := rfl
  induction n with
  | zero =>
    intro i hn
    rw [List.drop_of_length_le (by omega)]
    rfl
  | succ n ih =>
    intro i hn
    rw [lineEndFrom]
    by_cases hi : i + width ≤ head.length
    · rw [if_pos hi]
      dsimp only
      have hlt : Bits.marks (· == lf) ((head.drop i).take width) < 2 ^ width := by
        refine Nat.lt_of_lt_of_le (Lib.Bits.marks_lt _ _) (Nat.pow_le_pow_right (by decide) ?_)
        rw [List.length_take]
        omega
      have hbits (k : Nat) : (Bits.marks (· == lf) ((head.drop i).take width)).testBit k =
          (decide (0 ≤ k ∧ k < width) && head[i + k]? == some lf) := by
        rw [Lib.Bits.testBit_marks]
        by_cases hk : k < width
        · rw [List.getElem?_take_of_lt hk, List.getElem?_drop, any_eq_beq,
            decide_eq_true ⟨Nat.zero_le k, hk⟩, Bool.true_and]
        · rw [List.getElem?_take_eq_none (by omega), decide_eq_false fun hand => hk hand.2]
          rfl
      have hfirst := @Lib.Bits.firstIn_eq_ctz (fun j => head[j]? == some lf) i width _ 0 width hlt hbits
      rw [Nat.add_zero] at hfirst
      split_ifs at hfirst ⊢ with hzero
      · obtain ⟨hlf, -, hin, hbefore⟩ := Lib.Bits.firstIn_some.mp hfirst
        have hlength := @length_takeWhile (head.drop i)
          (Bits.ctz width (Bits.marks (· == lf) ((head.drop i).take width)))
          (by rw [List.length_drop]; omega) (by
            intro j hj
            rw [List.getElem?_drop]
            exact beq_eq_false_iff_ne.mp (hbefore (i + j) (by omega) (by omega)))
        have hhead : head.drop (i + Bits.ctz width (Bits.marks (· == lf) ((head.drop i).take width))) =
            lf :: head.drop (i + Bits.ctz width (Bits.marks (· == lf) ((head.drop i).take width)) + 1) := by
          obtain ⟨hin', hget⟩ := List.getElem?_eq_some_iff.mp (beq_iff_eq.mp hlf)
          rw [List.drop_eq_getElem_cons hin', hget]
        rw [hlength, List.drop_drop, hhead, List.takeWhile_cons_of_neg (by simp), List.length_nil,
          Nat.add_zero]
      · have hnone := Lib.Bits.firstIn_none.mp hfirst
        have hlength := @length_takeWhile (head.drop i) width (by rw [List.length_drop]; omega) (by
          intro j hj
          rw [List.getElem?_drop]
          exact beq_eq_false_iff_ne.mp (hnone (i + j) (by omega) (by omega)))
        rw [ih (by omega), hlength, List.drop_drop, Nat.add_assoc]
    · rw [if_neg hi]

theorem valueAfter_eq (head : Bytes) (colon : Nat) :
    valueAfter head colon = valueOf (head.drop (colon + 1)) := by
  have hnewline : lineEnd head (colon + 1) =
      colon + 1 + ((head.drop (colon + 1)).takeWhile (· ≠ lf)).length :=
    lineEndFrom_eq (head.length + 1) (by omega)
  have hline : (head.drop (colon + 1)).takeWhile (· ≠ lf) =
      between head (colon + 1) (lineEnd head (colon + 1)) := by
    rw [between, hnewline, Nat.add_sub_cancel_left]
    exact List.prefix_iff_eq_take.mp (List.takeWhile_prefix _)
  by_cases hin : lineEnd head (colon + 1) ≤ head.length
  · rw [valueAfter, valueOf, hline, trimCR_between hin, stopOf]
  · -- there is nothing behind the colon
    have hpast : head.length ≤ colon + 1 := by
      by_contra hlt
      have hle : ((head.drop (colon + 1)).takeWhile (· ≠ lf)).length ≤
          (head.drop (colon + 1)).length := (List.takeWhile_prefix _).length_le
      rw [List.length_drop] at hle
      omega
    rw [List.drop_of_length_le hpast] at hnewline
    have hnewline' : lineEnd head (colon + 1) = colon + 1 := hnewline
    rw [valueAfter, valueOf, List.drop_of_length_le hpast, hnewline', if_neg (by omega), between,
      List.drop_of_length_le hpast, List.take_nil]
    rfl

theorem seek_cons (name : Bytes) (b : UInt8) (rest : Bytes) :
    seek name (b :: rest) =
      if b = lf ∧ lineMatches name rest = true then some (valueOf (rest.drop (name.length + 1)))
      else seek name rest := rfl

theorem findSome?_seek (name head : Bytes) :
    (List.range head.length).findSome? (fun j =>
      if head[j]? = some lf ∧ lineMatches name (head.drop (j + 1)) = true then
        some (valueOf (head.drop (j + 1 + name.length + 1))) else none) = seek name head := by
  induction head with
  | nil => rfl
  | cons b rest ih =>
    rw [List.length_cons, List.range_succ_eq_map, List.findSome?_cons, List.findSome?_map, seek_cons]
    have hdrop : (b :: rest).drop (0 + 1 + name.length + 1) = rest.drop (name.length + 1) := by
      rw [show 0 + 1 + name.length + 1 = name.length + 1 + 1 by omega, List.drop_succ_cons]
    rw [hdrop, List.drop_succ_cons, List.drop_zero]
    by_cases hfirst : b = lf ∧ lineMatches name rest = true
    · rw [if_pos hfirst, if_pos ⟨congrArg some hfirst.1, hfirst.2⟩]
    · rw [if_neg hfirst, if_neg fun hand => hfirst ⟨Option.some_inj.mp hand.1, hand.2⟩, ← ih]
      refine congrArg (List.findSome? · _) (funext fun j => ?_)
      rw [Function.comp, List.getElem?_cons_succ, List.drop_succ_cons,
        show j.succ + 1 + name.length + 1 = j + 1 + name.length + 1 + 1 by omega, List.drop_succ_cons]

theorem findHeader_seek (head : Bytes) (hne : name ≠ []) : findHeader head name = seek name head := by
  obtain ⟨ch, more, rfl⟩ := List.exists_cons_of_ne_nil hne
  have hfind : findHeaderColon head (ch :: more) =
      (List.range head.length).findSome? (colonBehind head (ch :: more)) := by
    rw [findHeaderColon, findColonFrom_eq head.length (by omega), List.range_eq_range', Nat.sub_zero]
  rw [findHeader, hfind, List.map_findSome?, ← findSome?_seek]
  refine congrArg (List.findSome? · _) (funext fun j => ?_)
  rw [Function.comp, colonBehind]
  by_cases hlf : head[j]? = some lf
  · rw [if_pos hlf, colonOf_eq]
    by_cases hmatch : lineMatches (ch :: more) (head.drop (j + 1)) = true
    · rw [if_pos hmatch, if_pos ⟨hlf, hmatch⟩, Option.map_some, valueAfter_eq]
    · rw [if_neg hmatch, if_neg fun hand => hmatch hand.2]
      rfl
  · rw [if_neg hlf, if_neg fun hand => hlf hand.1]
    rfl

end Scan

/-! ## A line at a time -/

/-- A text is its last line, or a line and the text behind its newline. -/
theorem lineInduction {p : Bytes → Prop} (last : ∀ line, lf ∉ line → p line)
    (more : ∀ line rest, lf ∉ line → p rest → p (line ++ lf :: rest)) (text : Bytes) : p text := by
  suffices h : ∀ n, ∀ {text : Bytes}, text.length ≤ n → p text from h text.length (Nat.le_refl _)
  intro n
  induction n with
  | zero =>
    intro text hn
    rw [List.eq_nil_of_length_eq_zero (Nat.le_zero.mp hn)]
    exact last [] List.not_mem_nil
  | succ n ih =>
    intro text hn
    by_cases hlf : lf ∈ text
    · obtain ⟨line, rest, rfl, hline⟩ := List.eq_append_cons_of_mem hlf
      rw [List.length_append, List.length_cons] at hn
      exact more line rest hline (ih (by omega))
    · exact last text hlf

/-- The lines behind the request line: fields, up to a blank line that nothing comes behind. -/
def Fields : List Bytes → Prop
  | [] => True
  | raw :: rest =>
    if trimCR raw = [] then rest = [] ∨ rest = [[]] else (fieldLine (trimCR raw)).isSome ∧ Fields rest

section Lines

variable {name line more rest : Bytes}

theorem seek_append (hline : lf ∉ line) : seek name (line ++ rest) = seek name rest := by
  induction line with
  | nil => rfl
  | cons ch line ih =>
    rw [List.mem_cons, not_or] at hline
    rw [List.cons_append, seek_cons, if_neg fun hand => hline.1 hand.1.symm, ih hline.2]

theorem seek_none (hline : lf ∉ line) : seek name line = none := by
  rw [← List.append_nil line, seek_append hline]
  rfl

/-- A byte that is no part of a name is not one but for case. -/
theorem toLower_ne {x y : UInt8} (hx : isTokenByte (Text.toLower x) = false)
    (hy : isTokenByte y = true) : Text.toLower x ≠ Text.toLower y := by
  intro heq
  have hlower : isTokenByte (Text.toLower y) = true := by
    revert y
    exact fun {y} hy _ => Text.forall_byte (p := fun y => isTokenByte y = true →
      isTokenByte (Text.toLower y) = true) (by decide) y hy
  rw [heq, hlower] at hx
  cases hx

theorem not_sameName {a b : Bytes} {k : Nat} {x y : UInt8} (hx : a[k]? = some x) (hy : b[k]? = some y)
    (hne : Text.toLower x ≠ Text.toLower y) : sameName a b = false := by
  by_contra hsame
  rw [Bool.not_eq_false, sameName, List.all_eq_true] at hsame
  have hmem : (x, y) ∈ a.zip b :=
    List.mem_iff_getElem?.mpr ⟨k, List.getElem?_zip_eq_some.mpr ⟨hx, hy⟩⟩
  have := hsame _ hmem
  rw [Bool.and_eq_true] at this
  refine hne (toLower_eq_iff.mpr ?_)
  by_cases hzero : x ^^^ y = 0
  · exact .inl hzero
  · right
    by_cases hfold : x ^^^ y = 0x20 <;> simp_all

/-- What is behind the newline of a line does not make it match. -/
theorem lineMatches_append (hname : ∀ ch ∈ name, isTokenByte ch = true) :
    lineMatches name (line ++ lf :: more) = lineMatches name line := by
  rw [lineMatches, lineMatches]
  by_cases hlt : name.length < line.length
  · rw [List.getElem?_append_left hlt, List.take_append_of_le_length (Nat.le_of_lt hlt)]
  · rw [List.getElem?_eq_none (l := line) (by omega)]
    by_cases heq : name.length = line.length
    · rw [heq, List.getElem?_append_right (Nat.le_refl _), Nat.sub_self, List.getElem?_cons_zero]
      rfl
    · obtain ⟨y, hy⟩ : ∃ y, name[line.length]? = some y := ⟨_, List.getElem?_eq_getElem (by omega)⟩
      have hx : ((line ++ lf :: more).take name.length)[line.length]? = some lf := by
        rw [List.getElem?_take_of_lt (by omega), List.getElem?_append_right (Nat.le_refl _),
          Nat.sub_self, List.getElem?_cons_zero]
      rw [not_sameName hx hy (toLower_ne (by decide) (hname y (List.mem_iff_getElem?.mpr ⟨_, hy⟩))),
        Bool.and_false]
      rfl

theorem getElem?_trimCR {k : Nat} {ch : UInt8} (hch : ch ≠ cr) (hk : (line)[k]? = some ch) :
    (trimCR line)[k]? = some ch ∧ line.take k = (trimCR line).take k := by
  rw [trimCR]
  split_ifs with hcr
  · have hlt : k < line.length := (List.getElem?_eq_some_iff.mp hk).1
    have hne : k ≠ line.length - 1 := by
      rintro rfl
      rw [List.getLast?_eq_getElem?] at hcr
      rw [hcr] at hk
      exact hch (Option.some_inj.mp hk).symm
    rw [List.dropLast_eq_take, List.getElem?_take_of_lt (by omega), List.take_take,
      Nat.min_eq_left (by omega)]
    exact ⟨hk, rfl⟩
  · exact ⟨hk, rfl⟩

theorem trimCR_prefix_of (line : Bytes) : ∃ back, line = trimCR line ++ back := by
  rw [trimCR]
  split_ifs with hcr
  · exact ⟨[cr], (List.dropLast_append_getLast? cr hcr).symm⟩
  · exact ⟨[], (List.append_nil line).symm⟩

/-- A line of a field matches by its name. -/
theorem lineMatches_field {colon : Nat} (hname : ∀ ch ∈ name, isTokenByte ch = true)
    (hidx : (trimCR line).idxOf? 58 = some colon) :
    lineMatches name line = eqlIgnoreCase ((trimCR line).take colon) name := by
  obtain ⟨hcolon, hbefore⟩ := idxOf?_some.mp hidx
  obtain ⟨back, hback⟩ := trimCR_prefix_of line
  have hlt : colon < (trimCR line).length := (List.getElem?_eq_some_iff.mp hcolon).1
  have hline : (line)[colon]? = some 58 := by
    rw [hback, List.getElem?_append_left hlt]
    exact hcolon
  rw [Bool.eq_iff_iff, lineMatches, Bool.and_eq_true, beq_iff_eq]
  constructor
  · rintro ⟨hat, hsame⟩
    obtain ⟨hat', htake⟩ := getElem?_trimCR (by decide) hat
    have hfirst : colon = name.length := by
      by_contra hne
      by_cases hless : colon < name.length
      · obtain ⟨y, hy⟩ : ∃ y, name[colon]? = some y := ⟨_, List.getElem?_eq_getElem hless⟩
        have hx : (line.take name.length)[colon]? = some 58 := by
          rw [List.getElem?_take_of_lt hless]
          exact hline
        rw [not_sameName hx hy
          (toLower_ne (by decide) (hname y (List.mem_iff_getElem?.mpr ⟨_, hy⟩)))] at hsame
        cases hsame
      · exact hbefore name.length (by omega) hat'
    have hlength : ((trimCR line).take colon).length = name.length := by
      rw [List.length_take]
      omega
    rw [htake, ← hfirst] at hsame
    exact (sameName_iff hlength hname).mp hsame
  · intro heq
    have hlength : ((trimCR line).take colon).length = name.length := by
      have := congrArg List.length (beq_iff_eq.mp heq)
      rwa [List.length_map, List.length_map] at this
    have hcolon' : colon = name.length := by
      rw [List.length_take] at hlength
      omega
    rw [← hcolon']
    refine ⟨hline, ?_⟩
    rw [(getElem?_trimCR (by decide) hline).2]
    exact (sameName_iff hlength hname).mpr heq

theorem trimCR_drop {k : Nat} (hk : k ≤ (trimCR line).length) :
    trimCR (line.drop k) = (trimCR line).drop k := by
  by_cases hcr : line.getLast? = some cr
  · have hsplit := List.dropLast_append_getLast? cr hcr
    have htrim : trimCR line = line.dropLast := by rw [trimCR, if_pos hcr]
    rw [htrim] at hk ⊢
    conv_lhs => rw [← hsplit, List.drop_append_of_le_length hk]
    rw [trimCR, if_pos List.getLast?_concat, List.dropLast_concat]
  · have htrim : trimCR line = line := by rw [trimCR, if_neg hcr]
    rw [htrim, trimCR, if_neg]
    rw [List.getLast?_drop]
    split_ifs
    · simp
    · exact hcr

/-- The value of a field, from behind its colon on. -/
theorem valueOf_field {colon : Nat} (hline : lf ∉ line)
    (hidx : (trimCR line).idxOf? 58 = some colon) (hrest : rest = [] ∨ ∃ more, rest = lf :: more) :
    valueOf ((line ++ rest).drop (colon + 1)) =
      Text.trimBlanks ((trimCR line).drop (colon + 1)) := by
  have hlt : colon < (trimCR line).length := (List.getElem?_eq_some_iff.mp (idxOf?_some.mp hidx).1).1
  obtain ⟨back, hback⟩ := trimCR_prefix_of line
  have hle : (trimCR line).length ≤ line.length := by
    have := congrArg List.length hback
    rw [List.length_append] at this
    omega
  have hno : lf ∉ line.drop (colon + 1) := fun hmem => hline (List.mem_of_mem_drop hmem)
  have htake : ((line ++ rest).drop (colon + 1)).takeWhile (· ≠ lf) = line.drop (colon + 1) := by
    rw [List.drop_append_of_le_length (by omega), takeWhile_append hno]
    rcases hrest with rfl | ⟨more, rfl⟩
    · rw [List.takeWhile_nil, List.append_nil]
    · rw [List.takeWhile_cons_of_neg (by simp), List.append_nil]
  rw [valueOf, htake, trimCR_drop (by omega)]

theorem not_lineMatches_blank (hname : ∀ ch ∈ name, isTokenByte ch = true) (hne : name ≠ [])
    (hblank : trimCR line = []) : lineMatches name line = false := by
  have hlength : line.length ≤ 1 := by
    rw [trimCR] at hblank
    split_ifs at hblank with hcr
    · have := congrArg List.length (List.dropLast_append_getLast? cr hcr)
      rw [hblank, List.nil_append, List.length_singleton] at this
      omega
    · rw [hblank]
      exact Nat.zero_le 1
  have hpos := List.length_pos_of_ne_nil hne
  rw [lineMatches, List.getElem?_eq_none (by omega)]
  rfl

theorem all_nil : HeaderIterator.all ⟨[]⟩ = [] := rfl

theorem all_blank {lines : List Bytes} (hblank : trimCR line = []) :
    HeaderIterator.all ⟨line :: lines⟩ = [] := by
  have hnext : HeaderIterator.next ⟨line :: lines⟩ = none := by
    rw [HeaderIterator.next]
    exact if_pos hblank
  show (match HeaderIterator.next ⟨line :: lines⟩ with
    | none => []
    | some (pair, it) => pair :: HeaderIterator.allWithin lines.length it) = []
  rw [hnext]

theorem all_field {lines : List Bytes} {colon : Nat} (hidx : (trimCR line).idxOf? 58 = some colon) :
    HeaderIterator.all ⟨line :: lines⟩ =
      ((trimCR line).take colon, Text.trimBlanks ((trimCR line).drop (colon + 1))) ::
        HeaderIterator.all ⟨lines⟩ := by
  have hne : trimCR line ≠ [] := by
    intro hnil
    rw [hnil] at hidx
    cases hidx
  rw [HeaderIterator.all, List.length_cons, HeaderIterator.allWithin, HeaderIterator.next]
  dsimp only
  rw [if_neg hne, hidx]
  rfl

theorem exists_colon (h : (fieldLine (trimCR line)).isSome = true) :
    ∃ colon, (trimCR line).idxOf? 58 = some colon := by
  rw [fieldLine] at h
  cases hidx : (trimCR line).idxOf? 58 with
  | none =>
    rw [hidx] at h
    cases h
  | some colon => exact ⟨colon, rfl⟩

/-- What is found from the front of a line on. -/
theorem seek_fields (hname : ∀ ch ∈ name, isTokenByte ch = true) (hne : name ≠ []) (text : Bytes) :
    Fields (text.splitOn lf) → seek name (lf :: text) =
      ((HeaderIterator.all ⟨text.splitOn lf⟩).find? fun pair => eqlIgnoreCase pair.1 name).map
        Prod.snd := by
  induction text using lineInduction with
  | last line hline =>
    intro hfields
    rw [List.splitOn_eq_singleton hline, Fields] at hfields
    rw [List.splitOn_eq_singleton hline, seek_cons]
    by_cases hblank : trimCR line = []
    · rw [all_blank hblank, not_lineMatches_blank hname hne hblank,
        if_neg fun hand => Bool.false_ne_true hand.2, seek_none hline]
      rfl
    · rw [if_neg hblank] at hfields
      obtain ⟨colon, hidx⟩ := exists_colon hfields.1
      rw [all_field hidx, lineMatches_field hname hidx, List.find?_cons, all_nil]
      dsimp only
      by_cases hmatch : eqlIgnoreCase ((trimCR line).take colon) name = true
      · have hlength := congrArg List.length (beq_iff_eq.mp hmatch)
        rw [List.length_map, List.length_map, List.length_take] at hlength
        have hlt := (List.getElem?_eq_some_iff.mp (idxOf?_some.mp hidx).1).1
        have hcolon : name.length = colon := by omega
        have hvalue := valueOf_field hline hidx (.inl rfl)
        rw [List.append_nil] at hvalue
        rw [if_pos ⟨rfl, hmatch⟩, hmatch, hcolon, hvalue]
        rfl
      · rw [if_neg fun hand => hmatch hand.2, Bool.eq_false_iff.mpr hmatch, seek_none hline]
        rfl
  | more line rest hline ih =>
    intro hfields
    rw [List.splitOn_append_cons_self_of_not_mem hline, Fields] at hfields
    rw [List.splitOn_append_cons_self_of_not_mem hline, seek_cons, lineMatches_append hname,
      seek_append hline]
    by_cases hblank : trimCR line = []
    · rw [if_pos hblank] at hfields
      have hrest : rest = [] := by
        rcases hfields with hnil | hnil
        · exact absurd hnil (List.splitOn_ne_nil lf rest)
        · have hback : [lf].intercalate (rest.splitOn lf) = rest := List.intercalate_splitOn lf
          rw [hnil] at hback
          exact hback.symm
      rw [all_blank hblank, not_lineMatches_blank hname hne hblank,
        if_neg fun hand => Bool.false_ne_true hand.2, hrest, seek_cons]
      rw [not_lineMatches_blank hname hne rfl, if_neg fun hand => Bool.false_ne_true hand.2]
      rfl
    · rw [if_neg hblank] at hfields
      obtain ⟨colon, hidx⟩ := exists_colon hfields.1
      rw [all_field hidx, lineMatches_field hname hidx, List.find?_cons]
      dsimp only
      by_cases hmatch : eqlIgnoreCase ((trimCR line).take colon) name = true
      · have hlength := congrArg List.length (beq_iff_eq.mp hmatch)
        rw [List.length_map, List.length_map, List.length_take] at hlength
        have hlt := (List.getElem?_eq_some_iff.mp (idxOf?_some.mp hidx).1).1
        have hcolon : name.length = colon := by omega
        rw [if_pos ⟨rfl, hmatch⟩, hmatch, hcolon, valueOf_field hline hidx (.inr ⟨rest, rfl⟩)]
        rfl
      · rw [if_neg fun hand => hmatch hand.2, Bool.eq_false_iff.mpr hmatch]
        exact ih hfields.2

end Lines

/-! ## A head the parser accepted -/

section Accepted

variable {zstd : Bool} {line rest : Bytes} {r r' : Request}

theorem readField_isSome (h : readField zstd line r = .ok r') : (fieldLine line).isSome = true := by
  rw [readField, applyLine] at h
  split_ifs at h
  cases hfield : fieldLine line with
  | none =>
    rw [hfield] at h
    cases h
  | some pair => rfl

/-- Nothing comes behind the blank line of a head, where it has one. -/
def EndsAtBlank (head : Bytes) : Prop :=
  refEndOfHead head = none ∨ refEndOfHead head = some head.length

theorem EndsAtBlank.behind (hline : lf ∉ line) (h : EndsAtBlank (line ++ rest)) : EndsAtBlank rest := by
  rw [EndsAtBlank, refEndOfHead_skip hline, List.length_append] at h
  rcases h with h | h
  · exact .inl (Option.map_eq_none_iff.mp h)
  · obtain ⟨stop, hstop, heq⟩ := Option.map_eq_some_iff.mp h
    have heq' : stop + line.length = line.length + rest.length := heq
    right
    rw [hstop, show stop = rest.length by omega]

theorem EndsAtBlank.blank (hblank : trimCR line = []) (h : EndsAtBlank (lf :: (line ++ lf :: rest))) :
    rest = [] := by
  have hstop : refEndOfHead (lf :: (line ++ lf :: rest)) = some (line.length + 2) := by
    rcases trimCR_eq_nil hblank with rfl | rfl <;> rfl
  rcases h with h | h
  · rw [hstop] at h
    cases h
  · rw [hstop, Option.some_inj, List.length_cons, List.length_append, List.length_cons] at h
    exact List.eq_nil_of_length_eq_zero (by omega)

theorem EndsAtBlank.field (hline : lf ∉ line) (hne : trimCR line ≠ [])
    (h : EndsAtBlank (lf :: (line ++ lf :: rest))) : EndsAtBlank (lf :: rest) := by
  have hblank : blankLine (lf :: (line ++ lf :: rest)) = none := by
    rw [blankLine, if_neg (by simp)]
    cases line with
    | nil => exact absurd rfl hne
    | cons x more =>
      rw [List.mem_cons, not_or] at hline
      have hx : ¬ (lf :: (x :: more ++ lf :: rest))[1]? = some lf :=
        fun heq => hline.1 (Option.some_inj.mp heq).symm
      rw [if_neg hx, if_neg]
      rintro ⟨hcr, hlf⟩
      cases more with
      | nil =>
        cases Option.some_inj.mp hcr
        exact hne rfl
      | cons y more => exact hline.2 ((Option.some_inj.mp hlf) ▸ List.mem_cons_self)
  have hskip : refEndOfHead (lf :: (line ++ lf :: rest)) =
      (refEndOfHead (line ++ lf :: rest)).map (· + 1) := by
    rw [refEndOfHead, hblank]
  refine EndsAtBlank.behind hline ?_
  rw [EndsAtBlank, hskip, List.length_cons] at h
  rcases h with h | h
  · exact .inl (Option.map_eq_none_iff.mp h)
  · obtain ⟨stop, hstop, heq⟩ := Option.map_eq_some_iff.mp h
    right
    rw [hstop, Nat.add_right_cancel heq]

/-- The lines that were read, and what the head ends with. -/
theorem fields_of_read (text : Bytes) : ∀ {r : Request},
    stepLines zstd false (text.splitOn lf) r = .ok r' → EndsAtBlank (lf :: text) →
    Fields (text.splitOn lf) := by
  have hread {line : Bytes} {lines : List Bytes} {r : Request} (hne : trimCR line ≠ [])
      (h : stepLines zstd false (line :: lines) r = .ok r') :
      (fieldLine (trimCR line)).isSome = true ∧ ∃ r₁, stepLines zstd false lines r₁ = .ok r' := by
    rw [stepLines, stepLine, if_neg Bool.false_ne_true, if_neg hne] at h
    cases hfield : readField zstd (trimCR line) r with
    | error e =>
      rw [hfield] at h
      cases h
    | ok r₁ =>
      rw [hfield] at h
      exact ⟨readField_isSome hfield, r₁, h⟩
  induction text using lineInduction with
  | last line hline =>
    intro r h _
    rw [List.splitOn_eq_singleton hline] at h ⊢
    rw [Fields]
    split_ifs with hblank
    · exact .inl rfl
    · exact ⟨(hread hblank h).1, trivial⟩
  | more line rest hline ih =>
    intro r h hends
    rw [List.splitOn_append_cons_self_of_not_mem hline] at h ⊢
    rw [Fields]
    split_ifs with hblank
    · rw [hends.blank hblank]
      exact .inr rfl
    · obtain ⟨hsome, r₁, hrest⟩ := hread hblank h
      exact ⟨hsome, ih hrest (hends.field hline hblank)⟩

/-- The lookup finds the value of the first field of its name that the iterator comes to, and nothing
where there is none, on every head that the parser accepted and that ends at its blank line. -/
theorem findHeader_eq {head name : Bytes}
    (haccepted : parseHead zstd head r = .ok r' ∨ parseFields zstd head r = .ok r')
    (hends : EndsAtBlank head) (hname : headerNameOk name = true) :
    findHeader head name =
      ((HeaderIterator.start head).all.find? fun pair => eqlIgnoreCase pair.1 name).map Prod.snd := by
  obtain ⟨hne, htoken⟩ := headerNameOk_iff.mp hname
  have hlines : ∀ requestLine head r, parseLines zstd head r requestLine = .ok r' →
      ∃ read, stepLines zstd requestLine (head.splitOn lf) r = .ok read := by
    intro requestLine head r h
    rw [parseLines, readLines_eq, readPlain] at h
    cases hread : stepLines zstd requestLine (head.splitOn lf) r with
    | error e =>
      rw [hread] at h
      cases h
    | ok read => exact ⟨read, rfl⟩
  rw [findHeader_seek head hne, HeaderIterator.start]
  rcases haccepted with h | h
  · obtain ⟨read, hread⟩ := hlines true head r h
    by_cases hlf : lf ∈ head
    · obtain ⟨first, rest, rfl, hfirst⟩ := List.eq_append_cons_of_mem hlf
      rw [List.splitOn_append_cons_self_of_not_mem hfirst, stepLines] at hread
      rw [List.splitOn_append_cons_self_of_not_mem hfirst, seek_append hfirst, List.tail_cons]
      cases hline : stepLine zstd true first r with
      | error left =>
        rw [stepLine, if_pos rfl] at hline
        rw [stepLine, if_pos rfl, hline] at hread
        have hleft : left = .ok read := hread
        split_ifs at hline
        · cases hline
          cases hleft
        · cases hparse : parseRequestLine (trimCR first) r with
          | error e =>
            rw [hparse] at hline
            cases hline
            cases hleft
          | ok r₁ =>
            rw [hparse] at hline
            cases hline
      | ok r₁ =>
        rw [hline] at hread
        exact seek_fields htoken hne rest (fields_of_read rest hread (hends.behind hfirst))
    · rw [seek_none hlf, List.splitOn_eq_singleton hlf]
      rfl
  · rw [parseFields] at h
    split_ifs at h with hfirst
    obtain ⟨rest, rfl⟩ : ∃ rest, head = lf :: rest := by
      have hlf := not_not.mp hfirst
      cases head with
      | nil => cases hlf
      | cons b rest =>
        cases hlf
        exact ⟨rest, rfl⟩
    obtain ⟨read, hread⟩ := hlines false _ r h
    have hnil : lf ∉ ([] : Bytes) := List.not_mem_nil
    have hsplit : (lf :: rest).splitOn lf = [] :: rest.splitOn lf :=
      List.splitOn_append_cons_self_of_not_mem hnil rest
    rw [hsplit, List.tail_cons]
    exact seek_fields htoken hne rest (fields_of_read rest hread hends)

/-- A name at the end of another, and in a value. -/
def hosted : Bytes :=
  Text.ascii "GET / HTTP/1.1\r\nX-Host: b\r\nReferer: host: c\r\nHOST:\t a \r\n\r\n"

theorem findHeader_eq_hosted : findHeader hosted (Text.ascii "Host") =
    ((HeaderIterator.start hosted).all.find? fun pair =>
      eqlIgnoreCase pair.1 (Text.ascii "Host")).map Prod.snd := by
  have hread : (parseHead false hosted {}).toOption.isSome = true := by decide
  obtain ⟨r, hr⟩ := Option.isSome_iff_exists.mp hread
  exact findHeader_eq (.inl (Head.toOption_eq_some.mp hr)) (.inr (by decide))
    (by decide)

end Accepted

end Nilo.Http1
