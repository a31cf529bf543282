import Mathlib.Data.List.Basic

/-!
# Windows of an array

Reading `size` places from `off` on (`window`), and writing a run of values over them (`patch`).
What is written is what is read back there, and a window apart from it reads as before. `Cursor` is
a place that moves through an array and begins again at its front: a piece cut at it stays whole
for as long as it is `Standing`.
-/

namespace Nilo.Lib

variable {α : Type}

def window (l : List α) (off size : Nat) : List α := (l.drop off).take size

def patch (l : List α) (off : Nat) (b : List α) : List α := l.take off ++ b ++ l.drop (off + b.length)

theorem length_window {l : List α} {off size : Nat} (h : off + size ≤ l.length) :
    (window l off size).length = size := by
  rw [window, List.length_take, List.length_drop]
  omega

theorem length_patch {l b : List α} {off : Nat} (h : off + b.length ≤ l.length) :
    (patch l off b).length = l.length := by
  simp only [patch, List.length_append, List.length_take, List.length_drop]
  omega

theorem getElem?_window (l : List α) (off size i : Nat) :
    (window l off size)[i]? = if i < size then l[off + i]? else none := by
  rw [window, List.getElem?_take]
  split_ifs
  · rw [List.getElem?_drop]
  · rfl

theorem getElem?_patch {l b : List α} {off : Nat} (h : off + b.length ≤ l.length) (i : Nat) :
    (patch l off b)[i]? = if off ≤ i ∧ i < off + b.length then b[i - off]? else l[i]? := by
  have htake : (l.take off).length = off := by
    rw [List.length_take]
    omega
  rw [patch, List.append_assoc]
  rcases Nat.lt_or_ge i off with hi | hi
  · rw [List.getElem?_append_left (by omega), List.getElem?_take_of_lt hi, if_neg (by omega)]
  · rw [List.getElem?_append_right (by omega), htake]
    rcases Nat.lt_or_ge i (off + b.length) with hin | hin
    · rw [List.getElem?_append_left (by omega), if_pos ⟨hi, hin⟩]
    · rw [List.getElem?_append_right (by omega), if_neg (by omega), List.getElem?_drop]
      congr 1
      omega

theorem window_patch_self {l b : List α} {off : Nat} (h : off + b.length ≤ l.length) :
    window (patch l off b) off b.length = b := by
  refine List.ext_getElem? ?_
  intro i
  rw [getElem?_window, getElem?_patch h]
  split_ifs with hi hin
  · rw [Nat.add_sub_cancel_left]
  · omega
  · exact (List.getElem?_eq_none_iff.2 (by omega)).symm

theorem window_patch_apart {l b : List α} {off place size : Nat} (h : off + b.length ≤ l.length)
    (hapart : place + size ≤ off ∨ off + b.length ≤ place) :
    window (patch l off b) place size = window l place size := by
  refine List.ext_getElem? ?_
  intro i
  rw [getElem?_window, getElem?_window, getElem?_patch h]
  split_ifs with hi hin
  · omega
  · rfl
  · rfl

/-- Writing one place of a run that is to be written over anyway. -/
theorem patch_set {l b : List α} {off k : Nat} (h : off + b.length ≤ l.length) (hk : k < b.length)
    (a : α) : patch (l.set (off + k) a) off b = patch l off b := by
  refine List.ext_getElem? ?_
  intro i
  rw [getElem?_patch (by rwa [List.length_set]), getElem?_patch h]
  split_ifs with hin
  · rfl
  · rw [List.getElem?_set_ne]
    omega

/-- Where every place of the run is written already, nothing is left to write. -/
theorem patch_of_same {l b : List α} {off : Nat} (h : off + b.length ≤ l.length)
    (hsame : ∀ k, k < b.length → l[off + k]? = b[k]?) : patch l off b = l := by
  refine List.ext_getElem? ?_
  intro i
  rw [getElem?_patch h]
  split_ifs with hin
  · rw [← hsame (i - off) (by omega), Nat.add_sub_cancel' hin.1]
  · rfl

theorem window_set_apart {l : List α} {p off size : Nat} (h : p < off ∨ off + size ≤ p) (a : α) :
    window (l.set p a) off size = window l off size := by
  refine List.ext_getElem? ?_
  intro i
  rw [getElem?_window, getElem?_window]
  split_ifs with hi
  · rw [List.getElem?_set_ne]
    omega
  · rfl

/-- A window of a window. -/
theorem window_window {l : List α} {off size i k : Nat} (h : i + k ≤ size) :
    window (window l off size) i k = window l (off + i) k := by
  refine List.ext_getElem? ?_
  intro j
  rw [getElem?_window, getElem?_window, getElem?_window]
  split_ifs with hj hin
  · rw [Nat.add_assoc]
  · omega
  · rfl

/-- A window is read in two. -/
theorem window_add (l : List α) (off m k : Nat) :
    window l off (m + k) = window l off m ++ window l (off + m) k := by
  rw [window, window, window, List.take_add, List.drop_drop]

/-- A window of two arrays in a row. -/
theorem window_append (a b : List α) (off size : Nat) :
    window (a ++ b) off size =
      window a off size ++ window b (off - a.length) (size - (a.length - off)) := by
  rw [window, List.drop_append, List.take_append, List.length_drop]
  rfl

theorem window_flatten_replicate {p : List α} {k off size : Nat} (hfits : off + size ≤ p.length * k)
    (hin : off % p.length + size ≤ p.length) :
    window (List.replicate k p).flatten off size = window p (off % p.length) size := by
  induction k generalizing off with
  | zero =>
    obtain rfl : size = 0 := by omega
    rfl
  | succ k ih =>
    rw [List.replicate_succ, List.flatten_cons, window_append]
    rcases Nat.lt_or_ge off p.length with hfirst | hlater
    · rw [Nat.mod_eq_of_lt hfirst] at hin ⊢
      rw [Nat.sub_eq_zero_of_le (by omega : size ≤ p.length - off)]
      exact List.append_nil _
    · rw [Nat.mod_eq_sub_mod hlater] at hin ⊢
      rw [Nat.mul_succ] at hfits
      have hnone : window p off size = [] := by
        rw [window, List.drop_eq_nil_of_le hlater, List.take_nil]
      rw [hnone, List.nil_append, Nat.sub_eq_zero_of_le hlater, Nat.sub_zero]
      exact ih (by omega) hin

/-- Copy `k` places from `src` on to `dst`, one after the other, the first one first. -/
def copyForwards (l : List α) (dst src : Nat) : Nat → List α
  | 0 => l
  | k + 1 =>
    let done := copyForwards l dst src k
    match done[src + k]? with
    | some a => done.set (dst + k) a
    | none => done

theorem copyForwards_succ (l : List α) (dst src k : Nat) : copyForwards l dst src (k + 1) =
    match (copyForwards l dst src k)[src + k]? with
    | some a => (copyForwards l dst src k).set (dst + k) a
    | none => copyForwards l dst src k := rfl

theorem length_copyForwards (l : List α) (dst src k : Nat) :
    (copyForwards l dst src k).length = l.length := by
  induction k with
  | zero => rfl
  | succ k ih =>
    rw [copyForwards_succ]
    split
    · rw [List.length_set, ih]
    · exact ih

theorem getElem?_copyForwards {l : List α} {dst src size : Nat} (hdst : dst + size ≤ l.length)
    (hsrc : src + size ≤ l.length) (hapart : dst + size ≤ src ∨ src + size ≤ dst) {k : Nat}
    (hk : k ≤ size) (i : Nat) :
    (copyForwards l dst src k)[i]? =
      if dst ≤ i ∧ i < dst + k then l[src + (i - dst)]? else l[i]? := by
  induction k generalizing i with
  | zero => exact (if_neg (by omega)).symm
  | succ k ih =>
    have ih := fun i => ih (Nat.le_of_succ_le hk) i
    have hread : (copyForwards l dst src k)[src + k]? = some l[src + k] := by
      rw [ih, if_neg (by omega)]
      exact List.getElem?_eq_getElem (by omega)
    have hin : dst + k < (copyForwards l dst src k).length := by
      rw [length_copyForwards]
      omega
    rw [copyForwards_succ, hread]
    show ((copyForwards l dst src k).set (dst + k) l[src + k])[i]? = _
    rw [List.getElem?_set, if_pos hin, ih]
    by_cases hlast : dst + k = i
    · rw [if_pos hlast, if_pos (by omega), ← hlast, Nat.add_sub_cancel_left]
      exact (List.getElem?_eq_getElem (by omega)).symm
    · rw [if_neg hlast]
      refine if_congr ?_ rfl rfl
      omega

/-- Where source and destination do not overlap, a copy is a read and then a write. -/
theorem copyForwards_of_apart {l : List α} {dst src size : Nat} (hdst : dst + size ≤ l.length)
    (hsrc : src + size ≤ l.length) (hapart : dst + size ≤ src ∨ src + size ≤ dst) :
    copyForwards l dst src size = patch l dst (window l src size) := by
  have hlen := length_window hsrc
  refine List.ext_getElem? ?_
  intro i
  rw [getElem?_copyForwards hdst hsrc hapart (Nat.le_refl size), getElem?_patch (by rwa [hlen]), hlen,
    getElem?_window]
  split_ifs
  · rfl
  · omega
  · rfl

/-! ## A cursor that begins again -/

structure Cursor where
  lap : Nat
  head : Nat
deriving DecidableEq, Repr

/-- A run of places, and the lap it was cut in. -/
structure Piece where
  lap : Nat
  off : Nat
  size : Nat
deriving DecidableEq, Repr

def Piece.Apart (p q : Piece) : Prop := p.off + p.size ≤ q.off ∨ q.off + q.size ≤ p.off

namespace Cursor

variable {c : Cursor} {p : Piece} {start stop total : Nat}

/-- Where the next piece is cut: at the head, or at the front when it does not fit before the end. -/
def seat (c : Cursor) (start stop total : Nat) : Cursor :=
  if stop < c.head + total then ⟨c.lap + 1, start⟩ else c

def next (c : Cursor) (start stop total : Nat) : Cursor :=
  ⟨(c.seat start stop total).lap, (c.seat start stop total).head + total⟩

def piece (c : Cursor) (start stop total : Nat) : Piece :=
  ⟨(c.seat start stop total).lap, (c.seat start stop total).head, total⟩

/-- A piece that was cut before the cursor came to be where it is. -/
structure Cut (c : Cursor) (start stop : Nat) (p : Piece) : Prop where
  start_le : start ≤ p.off
  le_stop : p.off + p.size ≤ stop
  lap_le : p.lap ≤ c.lap
  behind : p.lap = c.lap → p.off + p.size ≤ c.head

/-- The cursor has not come to the piece again. -/
def Standing (c : Cursor) (p : Piece) : Prop :=
  p.lap = c.lap ∨ p.lap + 1 = c.lap ∧ c.head ≤ p.off

theorem seat_lap_le : c.lap ≤ (c.seat start stop total).lap := by
  rw [seat]
  split_ifs
  · exact Nat.le_succ _
  · exact Nat.le_refl _

theorem le_seat_head (h : start ≤ c.head) : start ≤ (c.seat start stop total).head := by
  rw [seat]
  split_ifs
  · exact Nat.le_refl _
  · exact h

theorem seat_cases (c : Cursor) (start stop total : Nat) :
    c.seat start stop total = c ∧ c.head + total ≤ stop ∨
      c.seat start stop total = ⟨c.lap + 1, start⟩ ∧ stop < c.head + total := by
  rw [seat]
  split_ifs with hfull
  · exact .inr ⟨rfl, hfull⟩
  · exact .inl ⟨rfl, Nat.le_of_not_lt hfull⟩

theorem next_head_le (h : start + total ≤ stop) : (c.next start stop total).head ≤ stop := by
  show (c.seat start stop total).head + total ≤ stop
  obtain ⟨heq, hfits⟩ | ⟨heq, -⟩ := c.seat_cases start stop total
  · rwa [heq]
  · rwa [heq]

theorem cut_next (h : c.Cut start stop p) : (c.next start stop total).Cut start stop p := by
  refine ⟨h.start_le, h.le_stop, Nat.le_trans h.lap_le seat_lap_le, ?_⟩
  show p.lap = (c.seat start stop total).lap → p.off + p.size ≤ (c.seat start stop total).head + total
  intro hlap
  have hle := h.lap_le
  obtain ⟨heq, -⟩ | ⟨heq, -⟩ := c.seat_cases start stop total
  · rw [heq] at hlap ⊢
    exact Nat.le_add_right_of_le (h.behind hlap)
  · rw [heq] at hlap
    have hlap : p.lap = c.lap + 1 := hlap
    omega

theorem cut_piece (hstart : start ≤ c.head) (h : start + total ≤ stop) :
    (c.next start stop total).Cut start stop (c.piece start stop total) :=
  ⟨le_seat_head hstart, next_head_le h, Nat.le_refl _, fun _ => Nat.le_refl _⟩

/-- A piece stands no longer than until the cursor comes to it. -/
theorem Standing.of_next (hcut : c.Cut start stop p)
    (h : (c.next start stop total).Standing p) : c.Standing p := by
  have h : p.lap = (c.seat start stop total).lap ∨ p.lap + 1 = (c.seat start stop total).lap ∧
      (c.seat start stop total).head + total ≤ p.off := h
  have hle := hcut.lap_le
  obtain ⟨heq, -⟩ | ⟨heq, -⟩ := c.seat_cases start stop total
  · rw [heq] at h
    exact h.imp_right fun ⟨hlap, hhead⟩ => ⟨hlap, Nat.le_trans (Nat.le_add_right _ _) hhead⟩
  · rw [heq] at h
    have h : p.lap = c.lap + 1 ∨ p.lap + 1 = c.lap + 1 ∧ start + total ≤ p.off := h
    refine .inl ?_
    omega

/-- What is cut next does not touch a piece that still stands afterwards. -/
theorem Standing.apart (hcut : c.Cut start stop p)
    (h : (c.next start stop total).Standing p) : (c.piece start stop total).Apart p := by
  have h : p.lap = (c.seat start stop total).lap ∨ p.lap + 1 = (c.seat start stop total).lap ∧
      (c.seat start stop total).head + total ≤ p.off := h
  show (c.seat start stop total).head + total ≤ p.off ∨
    p.off + p.size ≤ (c.seat start stop total).head
  have hle := hcut.lap_le
  rcases h with hlap | ⟨-, hhead⟩
  · refine .inr ?_
    obtain ⟨heq, -⟩ | ⟨heq, -⟩ := c.seat_cases start stop total
    · rw [heq] at hlap ⊢
      exact hcut.behind hlap
    · rw [heq] at hlap
      have hlap : p.lap = c.lap + 1 := hlap
      omega
  · exact .inl hhead

end Cursor

end Nilo.Lib
