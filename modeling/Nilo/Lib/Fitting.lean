import Mathlib.Algebra.GroupWithZero.Nat
import Mathlib.Data.List.Basic
import Mathlib.Tactic.SplitIfs

/-!
# The longest prefix that fits

`fitting w n l` is the longest prefix of `l` whose weights come to no more than `n`: what a list is
cut to by dropping from its end until it fits, and what is kept of a list that grows at its end
under a limit.
-/

namespace Nilo.Lib

variable {α : Type} (w : α → Nat)

def total (l : List α) : Nat := (l.map w).sum

def fitting : Nat → List α → List α
  | _, [] => []
  | n, x :: xs => if w x ≤ n then x :: fitting (n - w x) xs else []

@[simp] theorem total_nil : total w [] = 0 := rfl

@[simp] theorem total_cons (x : α) (xs : List α) : total w (x :: xs) = w x + total w xs := rfl

@[simp] theorem total_append (xs ys : List α) : total w (xs ++ ys) = total w xs + total w ys := by
  simp [total]

@[simp] theorem total_reverse (l : List α) : total w l.reverse = total w l := by
  simp [total, List.sum_reverse]

@[simp] theorem fitting_nil (n : Nat) : fitting w n [] = [] := rfl

theorem fitting_cons (n : Nat) (x : α) (xs : List α) :
    fitting w n (x :: xs) = if w x ≤ n then x :: fitting w (n - w x) xs else [] := rfl

theorem fitting_map {β : Type} (f : β → α) (n : Nat) (l : List β) :
    fitting w n (l.map f) = (fitting (fun x => w (f x)) n l).map f := by
  induction l generalizing n with
  | nil => rfl
  | cons x xs ih =>
    rw [List.map_cons, fitting_cons, fitting_cons]
    split_ifs
    · rw [ih, List.map_cons]
    · rfl

theorem fitting_isPrefix (n : Nat) (l : List α) : fitting w n l <+: l := by
  induction l generalizing n with
  | nil => exact List.prefix_refl _
  | cons x xs ih =>
    rw [fitting_cons]
    split_ifs
    · exact (List.prefix_cons_inj x).mpr (ih _)
    · exact List.nil_prefix

theorem total_fitting_le (n : Nat) (l : List α) : total w (fitting w n l) ≤ n := by
  induction l generalizing n with
  | nil => exact Nat.zero_le n
  | cons x xs ih =>
    rw [fitting_cons]
    split_ifs with hx
    · have := ih (n - w x)
      rw [total_cons]
      omega
    · exact Nat.zero_le n

/-- No longer prefix fits. -/
theorem isPrefix_fitting {n : Nat} {p l : List α} (hp : p <+: l) (h : total w p ≤ n) :
    p <+: fitting w n l := by
  induction l generalizing n p with
  | nil =>
    rw [List.prefix_nil.mp hp]
    exact List.nil_prefix
  | cons x xs ih =>
    cases p with
    | nil => exact List.nil_prefix
    | cons y p =>
      obtain ⟨rfl, hp'⟩ := List.cons_prefix_cons.mp hp
      rw [total_cons] at h
      rw [fitting_cons, if_pos (by omega)]
      exact (List.prefix_cons_inj y).mpr (ih hp' (by omega))

theorem fitting_of_le {n : Nat} {l : List α} (h : total w l ≤ n) : fitting w n l = l :=
  (fitting_isPrefix w n l).eq_of_length_le (isPrefix_fitting w (List.prefix_refl l) h).length_le

theorem total_le_of_fitting {n : Nat} {l : List α} (h : fitting w n l = l) : total w l ≤ n := by
  have := total_fitting_le w n l
  rwa [h] at this

/-- One element more at the end is kept where all of them fit, and changes nothing else. -/
theorem fitting_snoc (n : Nat) (l : List α) (x : α) :
    fitting w n (l ++ [x]) = if total w l + w x ≤ n then l ++ [x] else fitting w n l := by
  split_ifs with h
  · refine fitting_of_le w ?_
    rw [total_append, total_cons, total_nil]
    exact h
  · -- A prefix of the longer list that fits is a prefix of the shorter one.
    have hle : fitting w n (l ++ [x]) <+: l := by
      rcases List.prefix_concat_iff.mp (fitting_isPrefix w n (l ++ [x])) with hall | hl
      · have hfits := total_le_of_fitting w hall
        rw [total_append, total_cons, total_nil] at hfits
        exact absurd hfits h
      · exact hl
    have hone := isPrefix_fitting w hle (total_fitting_le w n _)
    have htwo := isPrefix_fitting w ((fitting_isPrefix w n l).trans (List.prefix_append l [x]))
      (total_fitting_le w n l)
    exact hone.eq_of_length_le htwo.length_le

end Nilo.Lib
