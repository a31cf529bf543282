import Mathlib.Data.List.Basic
import Mathlib.Data.Nat.ModEq

/-!
# Rings

A queue in a fixed array: its elements in the `count` places from `head` on, around the end,
and nothing in the others. `Holds` says which list a ring stands for; `toList` reads that list
back, and `Whole` is a ring that stands for what is read from it.
-/

namespace Nilo.Lib

structure RingBuf (α : Type) where
  slots : List (Option α)
  head : Nat
  count : Nat
deriving DecidableEq, Repr

namespace RingBuf

variable {α : Type} {r : RingBuf α} {l : List α} {a : α}

def empty (capacity : Nat) : RingBuf α := ⟨List.replicate capacity none, 0, 0⟩

/-- What is in the place `i` after the head. -/
def get (r : RingBuf α) (i : Nat) : Option α :=
  (r.slots[(r.head + i) % r.slots.length]?).join

/-- What is at the head. -/
def front (r : RingBuf α) : Option α := (r.slots[r.head]?).join

/-- Empty the head's place and move on. -/
def pop (r : RingBuf α) : RingBuf α where
  slots := r.slots.set r.head none
  head := (r.head + 1) % r.slots.length
  count := r.count - 1

/-- Fill the first place after the last. -/
def push (r : RingBuf α) (a : α) : RingBuf α where
  slots := r.slots.set ((r.head + r.count) % r.slots.length) (some a)
  head := r.head
  count := r.count + 1

/-- What the ring holds, oldest first. -/
def toList (r : RingBuf α) : List α := (List.range r.count).filterMap r.get

/-! ## The list a ring stands for -/

structure Holds (r : RingBuf α) (l : List α) : Prop where
  count_eq : r.count = l.length
  fits : l.length ≤ r.slots.length
  head_lt : 0 < r.slots.length → r.head < r.slots.length
  slot : ∀ i < r.slots.length, r.slots[(r.head + i) % r.slots.length]? = some l[i]?

@[simp] theorem pop_length (r : RingBuf α) : r.pop.slots.length = r.slots.length := by
  simp [pop]

@[simp] theorem push_length (r : RingBuf α) (a : α) : (r.push a).slots.length = r.slots.length := by
  simp [push]

/-- Places at different distances from the head are different. -/
theorem place_inj {head cap i j : Nat} (hi : i < cap) (hj : j < cap)
    (h : (head + i) % cap = (head + j) % cap) : i = j := by
  have hmod : i % cap = j % cap := Nat.ModEq.add_left_cancel' head h
  rwa [Nat.mod_eq_of_lt hi, Nat.mod_eq_of_lt hj] at hmod

theorem holds_empty (capacity : Nat) : (empty capacity : RingBuf α).Holds [] where
  count_eq := rfl
  fits := Nat.zero_le _
  head_lt := fun h => h
  slot := by
    intro i hi
    have hlt : (0 + i) % capacity < capacity := by
      simp only [empty, List.length_replicate] at hi
      exact Nat.mod_lt _ (by omega)
    simp [empty, List.getElem?_replicate]
    simpa using hlt

theorem Holds.get_eq (h : r.Holds l) {i : Nat} (hi : i < r.slots.length) : r.get i = l[i]? := by
  rw [get, h.slot i hi]
  rfl

/-- Reading a list by its places, from `a` on and at most `b` of them. -/
theorem filterMap_getElem?_range (l : List α) (a b : Nat) :
    (((List.range l.length).drop a).take b).filterMap (fun i => l[i]?) = (l.drop a).take b := by
  have hall : (List.range l.length).map (fun i => l[i]?) = l.map some := by
    refine List.ext_getElem? ?_
    intro i
    rw [List.getElem?_map, List.getElem?_map]
    by_cases hi : i < l.length
    · simp [hi]
    · rw [List.getElem?_eq_none (by simpa using hi), List.getElem?_eq_none (by simpa using hi)]
      rfl
  calc (((List.range l.length).drop a).take b).filterMap (fun i => l[i]?)
      = ((((List.range l.length).map (fun i => l[i]?)).drop a).take b).filterMap id := by
        rw [← List.map_drop, ← List.map_take, List.filterMap_map]
        rfl
    _ = ((l.drop a).take b).filterMap some := by
        rw [hall, ← List.map_drop, ← List.map_take, List.filterMap_map]
        rfl
    _ = (l.drop a).take b := List.filterMap_some

theorem Holds.read (h : r.Holds l) (a b : Nat) :
    (((List.range r.count).drop a).take b).filterMap r.get = (l.drop a).take b := by
  have hget : ∀ i ∈ ((List.range r.count).drop a).take b, r.get i = l[i]? := by
    intro i hi
    have hlt : i < r.count :=
      List.mem_range.mp (List.mem_of_mem_drop (List.mem_of_mem_take hi))
    rw [h.count_eq] at hlt
    exact h.get_eq (Nat.lt_of_lt_of_le hlt h.fits)
  rw [List.filterMap_congr hget, h.count_eq, filterMap_getElem?_range]

theorem Holds.toList_eq (h : r.Holds l) : r.toList = l := by
  have hread := h.read 0 r.count
  rw [List.drop_zero, List.take_of_length_le (by simp)] at hread
  rw [toList, hread, h.count_eq, List.drop_zero, List.take_length]

theorem Holds.front_eq (h : r.Holds (a :: l)) : r.front = some a := by
  have hpos : 0 < r.slots.length := Nat.lt_of_lt_of_le (by simp) h.fits
  have hslot := h.slot 0 hpos
  rw [Nat.add_zero, Nat.mod_eq_of_lt (h.head_lt hpos)] at hslot
  rw [front, hslot]
  rfl

theorem Holds.pop (h : r.Holds (a :: l)) : r.pop.Holds l := by
  have hpos : 0 < r.slots.length := Nat.lt_of_lt_of_le (by simp) h.fits
  have hhead : r.head < r.slots.length := h.head_lt hpos
  have hcount : r.count = l.length + 1 := by simpa using h.count_eq
  have hfits : l.length + 1 ≤ r.slots.length := by simpa using h.fits
  refine ⟨by simp [RingBuf.pop, hcount], by simp; omega, ?_, ?_⟩
  · intro _
    rw [pop_length]
    exact Nat.mod_lt _ hpos
  · intro i hi
    rw [pop_length] at hi ⊢
    have hplace : (r.pop.head + i) % r.slots.length = (r.head + (i + 1)) % r.slots.length := by
      simp only [RingBuf.pop, Nat.mod_add_mod]
      congr 1
      omega
    rw [hplace]
    simp only [RingBuf.pop]
    by_cases hlast : i + 1 = r.slots.length
    · -- around the end: the place just emptied
      have hself : (r.head + (i + 1)) % r.slots.length = r.head := by
        rw [hlast, Nat.add_mod_right, Nat.mod_eq_of_lt hhead]
      rw [hself, List.getElem?_set_self hhead]
      have hnone : l[i]? = none := List.getElem?_eq_none (by omega)
      rw [hnone]
    · have hlt : i + 1 < r.slots.length := by omega
      have hne : r.head ≠ (r.head + (i + 1)) % r.slots.length := by
        intro heq
        have hzero : (r.head + 0) % r.slots.length = (r.head + (i + 1)) % r.slots.length := by
          rw [Nat.add_zero, Nat.mod_eq_of_lt hhead]
          exact heq
        exact absurd (place_inj hpos hlt hzero) (by omega)
      rw [List.getElem?_set_ne hne, h.slot (i + 1) hlt]
      rfl

theorem Holds.push (h : r.Holds l) (hroom : l.length < r.slots.length) (a : α) :
    (r.push a).Holds (l ++ [a]) := by
  have hpos : 0 < r.slots.length := by omega
  refine ⟨by simp [RingBuf.push, h.count_eq], by simp; omega, ?_, ?_⟩
  · intro _
    rw [push_length]
    exact h.head_lt hpos
  · intro i hi
    rw [push_length] at hi ⊢
    simp only [RingBuf.push, h.count_eq]
    by_cases hend : i = l.length
    · subst hend
      have hlt : (r.head + l.length) % r.slots.length < r.slots.length := Nat.mod_lt _ hpos
      rw [List.getElem?_set_self hlt]
      simp
    · have hne : (r.head + l.length) % r.slots.length ≠ (r.head + i) % r.slots.length := by
        intro heq
        exact hend (place_inj hroom hi heq).symm
      rw [List.getElem?_set_ne hne, h.slot i hi]
      rcases Nat.lt_or_gt_of_ne hend with hlow | hhigh
      · rw [List.getElem?_append_left hlow]
      · rw [List.getElem?_eq_none (by omega : l.length ≤ i), List.getElem?_eq_none]
        simp
        omega

/-! ## Rings that stand for what is read from them -/

def Whole (r : RingBuf α) : Prop := r.Holds r.toList

theorem Holds.whole (h : r.Holds l) : r.Whole := by
  rw [Whole, h.toList_eq]
  exact h

theorem whole_empty (capacity : Nat) : (empty capacity : RingBuf α).Whole := (holds_empty _).whole

@[simp] theorem toList_empty (capacity : Nat) : (empty capacity : RingBuf α).toList = [] := rfl

theorem Whole.count_eq (h : r.Whole) : r.count = r.toList.length := Holds.count_eq h

theorem Whole.get_eq (h : r.Whole) {i : Nat} (hi : i < r.slots.length) : r.get i = r.toList[i]? :=
  Holds.get_eq h hi

theorem Whole.read (h : r.Whole) (a b : Nat) :
    (((List.range r.count).drop a).take b).filterMap r.get = (r.toList.drop a).take b :=
  Holds.read h a b

theorem Whole.push (h : r.Whole) (hroom : r.count < r.slots.length) (a : α) : (r.push a).Whole :=
  (Holds.push h (by rwa [← h.count_eq]) a).whole

theorem Whole.toList_push (h : r.Whole) (hroom : r.count < r.slots.length) (a : α) :
    (r.push a).toList = r.toList ++ [a] :=
  (Holds.push h (by rwa [← h.count_eq]) a).toList_eq

theorem Whole.exists_cons (h : r.Whole) (hpos : 0 < r.count) : ∃ a l, r.toList = a :: l := by
  rw [h.count_eq] at hpos
  exact List.exists_cons_of_length_pos hpos

theorem Whole.pop (h : r.Whole) (hcons : r.toList = a :: l) : r.pop.Whole := by
  rw [Whole, hcons] at h
  exact h.pop.whole

theorem Whole.toList_pop (h : r.Whole) (hcons : r.toList = a :: l) : r.pop.toList = l := by
  rw [Whole, hcons] at h
  exact h.pop.toList_eq

theorem Whole.front_eq (h : r.Whole) (hcons : r.toList = a :: l) : r.front = some a := by
  rw [Whole, hcons] at h
  exact h.front_eq

end RingBuf

end Nilo.Lib
