import Mathlib.Algebra.Group.Nat.Defs
import Mathlib.Data.List.Basic
import Mathlib.Tactic.SplitIfs

/-!
# A mask as the set of its positions

A word whose bits mark positions, walked by taking the lowest set bit and clearing it until the word
is zero. `positions` lists the marked positions from low to high, `walk_eq` says that the walk sees
them in that order, and `marks` is the word that marks the elements of a list that a test holds for.

`window` is the other reading of a word, as a run of bits of a stream, high bit first.
-/

namespace Nilo.Lib.Bits

/-- The lowest set bit of a word of `w` bits, and `w` where there is none. -/
def ctz (w n : Nat) : Nat := ((List.range w).find? n.testBit).getD w

def clearLowest (n : Nat) : Nat := n &&& (n - 1)

def positions (w n : Nat) : List Nat := (List.range w).filter n.testBit

/-- A positive number ends in a one and `t` zeros. -/
theorem exists_lowest {n : Nat} (hn : n ≠ 0) : ∃ t q, n = 2 ^ (t + 1) * q + 2 ^ t := by
  induction n using Nat.strongRecOn with
  | ind n ih =>
    rcases Nat.mod_two_eq_zero_or_one n with heven | hodd
    · obtain ⟨t, q, hq⟩ := ih (n / 2) (by omega) (by omega)
      refine ⟨t + 1, q, ?_⟩
      have htwice : n = 2 * (n / 2) := by omega
      rw [htwice, hq, Nat.mul_add, ← Nat.mul_assoc, ← Nat.pow_succ', ← Nat.pow_succ']
    · exact ⟨0, n / 2, by omega⟩

theorem testBit_lowest {t q j : Nat} :
    (2 ^ (t + 1) * q + 2 ^ t).testBit j = if j < t + 1 then decide (j = t) else q.testBit (j - (t + 1)) := by
  have hlt : 2 ^ t < 2 ^ (t + 1) := Nat.pow_lt_pow_right (by decide) (Nat.lt_succ_self t)
  rw [Nat.testBit_two_pow_mul_add _ hlt, Nat.testBit_two_pow]
  simp only [eq_comm]

theorem testBit_clearLowest {t q j : Nat} :
    (clearLowest (2 ^ (t + 1) * q + 2 ^ t)).testBit j =
      if j < t + 1 then false else q.testBit (j - (t + 1)) := by
  have hpos : 0 < 2 ^ t := Nat.two_pow_pos t
  have hlt : 2 ^ t - 1 < 2 ^ (t + 1) := by
    have : 2 ^ t < 2 ^ (t + 1) := Nat.pow_lt_pow_right (by decide) (Nat.lt_succ_self t)
    omega
  have hpred : 2 ^ (t + 1) * q + 2 ^ t - 1 = 2 ^ (t + 1) * q + (2 ^ t - 1) := by omega
  rw [clearLowest, Nat.testBit_and, testBit_lowest, hpred, Nat.testBit_two_pow_mul_add _ hlt,
    Nat.testBit_two_pow_sub_one]
  split_ifs with hj
  · by_cases heq : j = t <;> simp [heq]
  · exact Bool.and_self _

theorem lt_of_testBit {w n t : Nat} (hn : n < 2 ^ w) (ht : n.testBit t = true) : t < w := by
  by_contra hle
  have hzero := Nat.testBit_lt_two_pow
    (Nat.lt_of_lt_of_le hn (Nat.pow_le_pow_right (by decide) (Nat.le_of_not_lt hle)))
  rw [ht] at hzero
  cases hzero

/-- The positions up to and with `t`, and those behind it. -/
theorem range_split {w t : Nat} (ht : t < w) :
    List.range w = List.range t ++ t :: (List.range (w - (t + 1))).map (t + 1 + ·) := by
  have hw : w = t + 1 + (w - (t + 1)) := by omega
  conv_lhs => rw [hw]
  rw [List.range_add, List.range_succ, List.append_assoc]
  rfl

/-- The lowest set bit is the first of the positions, and clearing it leaves the others. -/
theorem positions_eq {w n : Nat} (hn : n ≠ 0) (hlt : n < 2 ^ w) :
    positions w n = ctz w n :: positions w (clearLowest n) := by
  obtain ⟨t, q, rfl⟩ := exists_lowest hn
  have hset : (2 ^ (t + 1) * q + 2 ^ t).testBit t = true := by
    rw [testBit_lowest, if_pos (Nat.lt_succ_self t), decide_eq_true rfl]
  have hlow : ∀ j ∈ List.range t, ¬ (2 ^ (t + 1) * q + 2 ^ t).testBit j = true := by
    intro j hj
    have hj' := List.mem_range.mp hj
    rw [testBit_lowest, if_pos (by omega), decide_eq_true_eq]
    omega
  have hlow' : ∀ j ∈ List.range t, ¬ (clearLowest (2 ^ (t + 1) * q + 2 ^ t)).testBit j = true := by
    intro j hj
    have hj' := List.mem_range.mp hj
    rw [testBit_clearLowest, if_pos (by omega)]
    exact Bool.false_ne_true
  have hcleared : ¬ (clearLowest (2 ^ (t + 1) * q + 2 ^ t)).testBit t = true := by
    rw [testBit_clearLowest, if_pos (Nat.lt_succ_self t)]
    exact Bool.false_ne_true
  have hsplit := range_split (lt_of_testBit hlt hset)
  have hctz : ctz w (2 ^ (t + 1) * q + 2 ^ t) = t := by
    rw [ctz, hsplit, List.find?_append, List.find?_eq_none.mpr hlow, Option.none_or,
      List.find?_cons_of_pos hset]
    rfl
  have hrest : ∀ j ∈ (List.range (w - (t + 1))).map (t + 1 + ·),
      (2 ^ (t + 1) * q + 2 ^ t).testBit j = (clearLowest (2 ^ (t + 1) * q + 2 ^ t)).testBit j := by
    intro j hj
    obtain ⟨i, -, rfl⟩ := List.mem_map.mp hj
    rw [testBit_lowest, testBit_clearLowest, if_neg (by omega), if_neg (by omega)]
  rw [hctz, positions, positions, hsplit, List.filter_append, List.filter_append,
    List.filter_eq_nil_iff.mpr hlow, List.filter_eq_nil_iff.mpr hlow', List.filter_cons_of_pos hset,
    List.filter_cons_of_neg hcleared, List.nil_append, List.nil_append,
    List.filter_congr hrest]

@[simp] theorem positions_zero (w : Nat) : positions w 0 = [] := by
  rw [positions]
  exact List.filter_eq_nil_iff.mpr fun j _ => by simp

theorem clearLowest_le (n : Nat) : clearLowest n ≤ n := Nat.and_le_left

/-! ## The walk -/

variable {β : Type}

/-- The first marked position that `f` answers at. A word of `w` bits has at most `w` turns. -/
def walkWithin (w : Nat) (f : Nat → Option β) : Nat → Nat → Option β
  | 0, _ => none
  | turns + 1, n =>
    if n = 0 then none
    else
      match f (ctz w n) with
      | some x => some x
      | none => walkWithin w f turns (clearLowest n)

def walk (w : Nat) (f : Nat → Option β) (n : Nat) : Option β := walkWithin w f w n

theorem walkWithin_eq {w n turns : Nat} (f : Nat → Option β) (hlt : n < 2 ^ w)
    (hturns : (positions w n).length ≤ turns) :
    walkWithin w f turns n = (positions w n).findSome? f := by
  induction turns generalizing n with
  | zero =>
    rw [List.length_eq_zero_iff.mp (Nat.le_zero.mp hturns)]
    rfl
  | succ turns ih =>
    rw [walkWithin]
    split_ifs with hn
    · rw [hn, positions_zero]
      rfl
    · have heq := positions_eq hn hlt
      rw [heq, List.length_cons] at hturns
      rw [heq, List.findSome?_cons, ih (Nat.lt_of_le_of_lt (clearLowest_le n) hlt) (by omega)]
      cases f (ctz w n) <;> rfl

theorem walk_eq {w n : Nat} (f : Nat → Option β) (hlt : n < 2 ^ w) :
    walk w f n = (positions w n).findSome? f := by
  refine walkWithin_eq f hlt ?_
  have hle := List.length_filter_le n.testBit (List.range w)
  rwa [List.length_range] at hle

section Each

variable {σ ε : Type}

/-- Every marked position in turn, until `f` stops. -/
def eachWithin (w : Nat) (f : σ → Nat → Except ε σ) : Nat → Nat → σ → Except ε σ
  | 0, _, s => .ok s
  | turns + 1, n, s =>
    if n = 0 then .ok s
    else
      match f s (ctz w n) with
      | .error e => .error e
      | .ok s => eachWithin w f turns (clearLowest n) s

def each (w : Nat) (f : σ → Nat → Except ε σ) (n : Nat) (s : σ) : Except ε σ := eachWithin w f w n s

theorem eachWithin_eq {w n turns : Nat} (f : σ → Nat → Except ε σ) {s : σ} (hlt : n < 2 ^ w)
    (hturns : (positions w n).length ≤ turns) :
    eachWithin w f turns n s = (positions w n).foldlM f s := by
  induction turns generalizing n s with
  | zero =>
    rw [List.length_eq_zero_iff.mp (Nat.le_zero.mp hturns)]
    rfl
  | succ turns ih =>
    rw [eachWithin]
    split_ifs with hn
    · rw [hn, positions_zero]
      rfl
    · have heq := positions_eq hn hlt
      rw [heq, List.length_cons] at hturns
      rw [heq, List.foldlM_cons]
      cases f s (ctz w n) with
      | error e => rfl
      | ok s' => exact ih (Nat.lt_of_le_of_lt (clearLowest_le n) hlt) (by omega)

theorem each_eq {w n : Nat} (f : σ → Nat → Except ε σ) {s : σ} (hlt : n < 2 ^ w) :
    each w f n s = (positions w n).foldlM f s := by
  refine eachWithin_eq f hlt ?_
  have hle := List.length_filter_le n.testBit (List.range w)
  rwa [List.length_range] at hle

end Each

/-- `n & ~m`. -/
def without (n m : Nat) : Nat := n ^^^ (n &&& m)

theorem testBit_without (n m k : Nat) :
    (without n m).testBit k = (n.testBit k && !m.testBit k) := by
  rw [without, Nat.testBit_xor, Nat.testBit_and]
  cases n.testBit k <;> cases m.testBit k <;> rfl

/-! ## The first of a range -/

/-- The first position from `a` up to `b` that `p` holds at. -/
def firstIn (p : Nat → Bool) (a b : Nat) : Option Nat := (List.range' a (b - a)).find? p

section First

variable {p q : Nat → Bool} {a b c i : Nat}

theorem firstIn_some : firstIn p a b = some i ↔
    p i = true ∧ a ≤ i ∧ i < b ∧ ∀ j, a ≤ j → j < i → p j = false := by
  rw [firstIn, List.find?_range'_eq_some]
  constructor
  · rintro ⟨hp, hmem, hbefore⟩
    have hrange := List.mem_range'_1.mp hmem
    refine ⟨hp, hrange.1, by omega, ?_⟩
    intro j hle hlt
    simpa using hbefore j hle hlt
  · rintro ⟨hp, hle, hlt, hbefore⟩
    refine ⟨hp, List.mem_range'_1.mpr ⟨hle, by omega⟩, ?_⟩
    intro j hle' hlt'
    rw [hbefore j hle' hlt']
    rfl

theorem firstIn_none : firstIn p a b = none ↔ ∀ j, a ≤ j → j < b → p j = false := by
  rw [firstIn, List.find?_range'_eq_none]
  constructor
  · intro h j hle hlt
    simpa using h j hle (by omega)
  · intro h j hle hlt
    rw [h j hle (by omega)]
    rfl

theorem firstIn_of_le (h : b ≤ a) : firstIn p a b = none :=
  firstIn_none.mpr fun _ hle hlt => absurd (Nat.lt_of_lt_of_le hlt h) (Nat.not_lt.mpr hle)

theorem firstIn_or (hab : a ≤ b) (hbc : b ≤ c) :
    firstIn p a c = (firstIn p a b).or (firstIn p b c) := by
  have hsplit : List.range' a (c - a) = List.range' a (b - a) ++ List.range' b (c - b) := by
    have hlen : c - a = (b - a) + (c - b) := by omega
    have hstart : a + (b - a) = b := by omega
    conv_lhs => rw [hlen, ← List.range'_append_1, hstart]
  rw [firstIn, hsplit, List.find?_append]
  rfl

/-- The lowest set bit of a word that marks where `p` holds in a part of a block. -/
theorem firstIn_eq_ctz {w n lo hi : Nat} (hn : n < 2 ^ w)
    (h : ∀ k, n.testBit k = (decide (lo ≤ k ∧ k < hi) && p (i + k))) :
    firstIn p (i + lo) (i + hi) = if n ≠ 0 then some (i + ctz w n) else none := by
  split_ifs with hzero
  · obtain ⟨t, q, rfl⟩ := exists_lowest hzero
    have hset : (2 ^ (t + 1) * q + 2 ^ t).testBit t = true := by
      rw [testBit_lowest, if_pos (Nat.lt_succ_self t), decide_eq_true rfl]
    have hctz : ctz w (2 ^ (t + 1) * q + 2 ^ t) = t := by
      have hfind : (List.range w).find? (2 ^ (t + 1) * q + 2 ^ t).testBit = some t := by
        refine List.find?_range_eq_some.mpr ⟨hset, List.mem_range.mpr (lt_of_testBit hn hset), ?_⟩
        intro j hj
        rw [testBit_lowest, if_pos (by omega), decide_eq_false (by omega)]
        rfl
      rw [ctz, hfind]
      rfl
    rw [hctz]
    have ht := h t
    rw [hset, eq_comm, Bool.and_eq_true, decide_eq_true_eq] at ht
    refine firstIn_some.mpr ⟨ht.2, by omega, by omega, ?_⟩
    intro j hle hlt
    have hj := h (j - i)
    rw [testBit_lowest, if_pos (by omega), decide_eq_false (by omega), decide_eq_true (by omega),
      Bool.true_and, show i + (j - i) = j by omega] at hj
    exact hj.symm
  · rw [not_not] at hzero
    subst hzero
    refine firstIn_none.mpr fun j hle hlt => ?_
    have hj := h (j - i)
    rw [Nat.zero_testBit, decide_eq_true (by omega), Bool.true_and,
      show i + (j - i) = j by omega] at hj
    exact hj.symm

end First

/-! ## The mask of a test -/

variable {α : Type}

/-- The word that marks where `p` holds. -/
def marks (p : α → Bool) : List α → Nat
  | [] => 0
  | x :: xs => (if p x then 1 else 0) + 2 * marks p xs

theorem marks_cons (p : α → Bool) (x : α) (xs : List α) :
    marks p (x :: xs) = (if p x then 1 else 0) + 2 * marks p xs := rfl

theorem testBit_marks (p : α → Bool) (l : List α) (k : Nat) :
    (marks p l).testBit k = l[k]?.any p := by
  induction l generalizing k with
  | nil => exact Nat.zero_testBit k
  | cons x xs ih =>
    have hhalf : (marks p (x :: xs)) / 2 = marks p xs := by
      rw [marks_cons]
      split_ifs <;> omega
    cases k with
    | zero =>
      rw [Nat.testBit_zero, marks_cons]
      by_cases hx : p x = true <;> simp [hx] <;> omega
    | succ k => rw [Nat.testBit_succ, hhalf, ih, List.getElem?_cons_succ]

theorem marks_lt (p : α → Bool) (l : List α) : marks p l < 2 ^ l.length := by
  induction l with
  | nil => exact Nat.one_pos
  | cons x xs ih =>
    rw [marks_cons, List.length_cons, Nat.pow_succ]
    split_ifs <;> omega

/-! ## A word as a run of bits -/

/-- The number that the `k` bits of a stream from `p` on are, high bit first. -/
def window (bit : Nat → Bool) (p : Nat) : Nat → Nat
  | 0 => 0
  | k + 1 => 2 * window bit p k + (bit (p + k)).toNat

variable {bit : Nat → Bool} {p k : Nat}

theorem window_succ : window bit p (k + 1) = 2 * window bit p k + (bit (p + k)).toNat := rfl

theorem testBit_window (i : Nat) :
    (window bit p k).testBit i = (decide (i < k) && bit (p + (k - 1 - i))) := by
  induction k generalizing i with
  | zero => exact Nat.zero_testBit i
  | succ k ih =>
    have hbit : (bit (p + k)).toNat < 2 := Bool.toNat_lt _
    cases i with
    | zero =>
      have hlow : (2 * window bit p k + (bit (p + k)).toNat) % 2 = (bit (p + k)).toNat := by omega
      rw [window_succ, Nat.testBit_zero, hlow, decide_eq_true (Nat.succ_pos k), Bool.true_and,
        Nat.sub_zero, Nat.add_sub_cancel]
      cases bit (p + k) <;> rfl
    | succ i =>
      have hhigh : (2 * window bit p k + (bit (p + k)).toNat) / 2 = window bit p k := by omega
      rw [window_succ, Nat.testBit_succ, hhigh, ih]
      congr 1
      · exact decide_eq_decide.mpr (by omega)
      · congr 1
        omega

theorem window_lt : window bit p k < 2 ^ k := by
  induction k with
  | zero => exact Nat.one_pos
  | succ k ih =>
    have hbit : (bit (p + k)).toNat < 2 := Bool.toNat_lt _
    rw [window_succ, Nat.pow_succ]
    omega

/-- A number of `k` bits is a window where its bits are those of the stream. -/
theorem eq_window {n : Nat} (hn : n < 2 ^ k)
    (h : ∀ j < k, n.testBit (k - 1 - j) = bit (p + j)) : n = window bit p k := by
  refine Nat.eq_of_testBit_eq fun i => ?_
  rw [testBit_window]
  by_cases hi : i < k
  · have hbit := h (k - 1 - i) (by omega)
    rw [show k - 1 - (k - 1 - i) = i by omega] at hbit
    rw [hbit, decide_eq_true hi, Bool.true_and]
  · rw [decide_eq_false hi, Bool.false_and]
    exact Nat.testBit_lt_two_pow
      (Nat.lt_of_lt_of_le hn (Nat.pow_le_pow_right (by decide) (Nat.le_of_not_lt hi)))

theorem window_congr {bit' : Nat → Bool} {p' : Nat} (h : ∀ j < k, bit (p + j) = bit' (p' + j)) :
    window bit p k = window bit' p' k := by
  refine eq_window window_lt fun j hj => ?_
  rw [testBit_window, decide_eq_true (by omega), Bool.true_and, ← h j hj]
  congr 1
  omega

theorem testBit_of_eq_window {n : Nat} (h : window bit p k = n) {j : Nat} (hj : j < k) :
    n.testBit (k - 1 - j) = bit (p + j) := by
  rw [← h, testBit_window, decide_eq_true (by omega), Bool.true_and]
  congr 1
  omega

/-- A window of ones. -/
theorem window_ones : window bit p k = 2 ^ k - 1 ↔ ∀ j < k, bit (p + j) = true := by
  constructor
  · intro h j hj
    rw [← testBit_of_eq_window h hj, Nat.testBit_two_pow_sub_one]
    exact decide_eq_true (by omega)
  · intro h
    refine (eq_window (Nat.sub_lt (Nat.two_pow_pos k) Nat.one_pos) fun j hj => ?_).symm
    rw [h j hj, Nat.testBit_two_pow_sub_one]
    exact decide_eq_true (by omega)

/-- The first bits of a window. -/
theorem window_shiftRight {l : Nat} (hl : l ≤ k) : window bit p k >>> (k - l) = window bit p l := by
  refine eq_window ?_ fun j hj => ?_
  · rw [Nat.shiftRight_eq_div_pow, Nat.div_lt_iff_lt_mul (Nat.two_pow_pos _), ← Nat.pow_add,
      Nat.add_sub_cancel' hl]
    exact window_lt
  · rw [Nat.testBit_shiftRight, testBit_window, decide_eq_true (by omega), Bool.true_and]
    congr 1
    omega

/-- The bits of a window behind its first `l`, read as its first bits are. -/
theorem window_behind {l m : Nat} (h : l + m ≤ k) :
    ((window bit p k <<< l) &&& (2 ^ k - 1)) >>> (k - m) = window bit (p + l) m := by
  refine eq_window ?_ fun j hj => ?_
  · rw [Nat.and_two_pow_sub_one_eq_mod, Nat.shiftRight_eq_div_pow,
      Nat.div_lt_iff_lt_mul (Nat.two_pow_pos _), ← Nat.pow_add, Nat.add_sub_cancel' (by omega)]
    exact Nat.mod_lt _ (Nat.two_pow_pos k)
  · rw [Nat.testBit_shiftRight, Nat.testBit_and, Nat.testBit_two_pow_sub_one, Nat.testBit_shiftLeft,
      testBit_window, decide_eq_true (by omega), decide_eq_true (by omega), decide_eq_true (by omega),
      Bool.true_and, Bool.true_and, Bool.and_true]
    congr 1
    omega

end Nilo.Lib.Bits
