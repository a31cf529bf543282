import Mathlib.Algebra.GroupWithZero.Nat
import Mathlib.Algebra.BigOperators.Group.List.Basic
import Mathlib.Data.List.Nodup

/-!
# Tables of records under a key

A table is a list of records, each under a key of its own. `edit` changes the
record under one key and `List.filter` takes it out; what a weight sums to over
the table then moves by that record alone (`sum_edit`, `sum_drop`).
-/

namespace Nilo.Lib

variable {α β κ : Type} [DecidableEq κ] {key : α → κ} {k : κ} {f g : α → α} {xs : List α}

/-- Change the record under a key. -/
def edit (key : α → κ) (k : κ) (f : α → α) (xs : List α) : List α :=
  xs.map fun x => if key x = k then f x else x

theorem mem_edit {y : α} :
    y ∈ edit key k f xs ↔ ∃ x ∈ xs, (if key x = k then f x else x) = y := by
  simp [edit]

/-- What holds of every record, and of the changed one after the change, holds after it. -/
theorem forall_mem_edit {P : α → Prop} (h : ∀ x ∈ xs, P x)
    (hf : ∀ x ∈ xs, key x = k → P x → P (f x)) : ∀ y ∈ edit key k f xs, P y := by
  intro y hy
  obtain ⟨x, hx, rfl⟩ := mem_edit.1 hy
  split
  · exact hf x hx ‹_› (h x hx)
  · exact h x hx

theorem length_edit : (edit key k f xs).length = xs.length := by
  simp [edit]

/-- A reading of the records that the change does not touch. -/
theorem map_edit {w : α → β} (h : ∀ x, w (f x) = w x) : (edit key k f xs).map w = xs.map w := by
  rw [edit, List.map_map]
  refine List.map_congr_left ?_
  intro x _
  dsimp only [Function.comp_apply]
  split
  · exact h x
  · rfl

/-- The change carried to a reading of the records. -/
theorem map_edit_comm {w : α → β} {key' : β → κ} {f' : β → β} (hk : ∀ x, key' (w x) = key x)
    (h : ∀ x ∈ xs, key x = k → w (f x) = f' (w x)) :
    (edit key k f xs).map w = edit key' k f' (xs.map w) := by
  rw [edit, edit, List.map_map, List.map_map]
  refine List.map_congr_left ?_
  intro x hx
  dsimp only [Function.comp_apply]
  rw [hk]
  split
  · exact h x hx ‹_›
  · rfl

theorem edit_eq_self (h : ∀ x ∈ xs, key x = k → f x = x) : edit key k f xs = xs := by
  rw [edit]
  conv_rhs => rw [← List.map_id xs]
  refine List.map_congr_left ?_
  intro x hx
  split
  · exact h x hx ‹_›
  · rfl

/-- A count does not grow by a change of a record that was counted if it is. -/
theorem countP_edit_le {p : α → Bool} (h : ∀ x ∈ xs, key x = k → p (f x) = true → p x = true) :
    (edit key k f xs).countP p ≤ xs.countP p := by
  rw [edit, List.countP_map]
  refine List.countP_mono_left ?_
  intro x hx hp
  dsimp only [Function.comp_apply] at hp
  split at hp
  · exact h x hx ‹_› hp
  · exact hp

/-- Two changes under one key are one. -/
theorem edit_edit (h : ∀ x, key (f x) = key x) :
    edit key k g (edit key k f xs) = edit key k (fun x => g (f x)) xs := by
  rw [edit, edit, edit, List.map_map]
  refine List.map_congr_left ?_
  intro x _
  dsimp only [Function.comp_apply]
  by_cases hx : key x = k
  · rw [if_pos hx, if_pos hx, if_pos ((h x).trans hx)]
  · rw [if_neg hx, if_neg hx, if_neg hx]

theorem edit_congr (h : ∀ x ∈ xs, key x = k → f x = g x) : edit key k f xs = edit key k g xs := by
  rw [edit, edit]
  refine List.map_congr_left ?_
  intro x hx
  split
  · exact h x hx ‹_›
  · rfl

omit [DecidableEq κ] in
/-- Two records under one key of a table are one record. -/
theorem eq_of_key (hn : (xs.map key).Nodup) {x y : α} (hx : x ∈ xs) (hy : y ∈ xs)
    (h : key x = key y) : x = y :=
  List.inj_on_of_nodup_map hn hx hy h

omit [DecidableEq κ] in
/-- A search by key finds the one entry that has it. -/
theorem find?_key [BEq κ] [LawfulBEq κ] (hn : (xs.map key).Nodup) {x : α} (hx : x ∈ xs) :
    xs.find? (key · == key x) = some x := by
  cases hfind : xs.find? (key · == key x) with
  | none => exact absurd (List.find?_eq_none.mp hfind x hx) (by simp)
  | some y =>
    have hkey : key y = key x := by simpa using List.find?_some hfind
    rw [eq_of_key hn (List.mem_of_find?_eq_some hfind) hx hkey]

/-- A sum over a table after one record has changed. -/
theorem sum_edit {w : α → Nat} (hn : (xs.map key).Nodup) {x : α} (hx : x ∈ xs) (hk : key x = k) :
    ((edit key k f xs).map w).sum + w x = (xs.map w).sum + w (f x) := by
  induction xs with
  | nil => cases hx
  | cons y ys ih =>
    rw [List.map_cons, List.nodup_cons] at hn
    simp only [edit, List.map_cons, List.sum_cons]
    rcases List.mem_cons.1 hx with rfl | hmem
    · -- the record at the head: none of the others has its key
      have hself : edit key k f ys = ys := by
        refine edit_eq_self ?_
        intro z hz hzk
        exact absurd (List.mem_map.2 ⟨z, hz, hzk.trans hk.symm⟩) hn.1
      rw [edit] at hself
      rw [hself, if_pos hk]
      omega
    · have hne : key y ≠ k := by
        intro hy
        exact hn.1 (List.mem_map.2 ⟨x, hmem, hk.trans hy.symm⟩)
      have := ih hn.2 hmem
      rw [edit] at this
      rw [if_neg hne]
      omega

/-- A sum over a table after one record has been taken out. -/
theorem sum_drop {w : α → Nat} (hn : (xs.map key).Nodup) {x : α} (hx : x ∈ xs) (hk : key x = k) :
    ((xs.filter fun y => key y != k).map w).sum + w x = (xs.map w).sum := by
  induction xs with
  | nil => cases hx
  | cons y ys ih =>
    rw [List.map_cons, List.nodup_cons] at hn
    rcases List.mem_cons.1 hx with rfl | hmem
    · have hself : ys.filter (fun z => key z != k) = ys := by
        refine List.filter_eq_self.2 ?_
        intro z hz
        rw [bne_iff_ne]
        intro hzk
        exact hn.1 (List.mem_map.2 ⟨z, hz, hzk.trans hk.symm⟩)
      rw [List.filter_cons_of_neg (by simp [hk]), hself, List.map_cons, List.sum_cons]
      omega
    · have hne : key y ≠ k := by
        intro hy
        exact hn.1 (List.mem_map.2 ⟨x, hmem, hk.trans hy.symm⟩)
      rw [List.filter_cons_of_pos (by simpa using hne)]
      simp only [List.map_cons, List.sum_cons]
      have := ih hn.2 hmem
      omega

/-- A count over a table, as a sum. -/
theorem countP_eq_sum {p : α → Bool} : xs.countP p = (xs.map fun x => (p x).toNat).sum := by
  induction xs with
  | nil => rfl
  | cons x xs ih =>
    rw [List.countP_cons, ih, List.map_cons, List.sum_cons]
    cases p x <;> simp [Nat.add_comm]

end Nilo.Lib
