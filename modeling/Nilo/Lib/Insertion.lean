import Mathlib.Data.List.Pairwise
import Mathlib.Data.List.TakeWhile
import Mathlib.Tactic.Tauto

/-!
# Insertion sort by a key

Items are inserted one after another into those in front of them, each behind whatever has its key
already, so items of one key stay in the order they came in (`pairwise_sorted`). Of a sorted list the
items up to a bound are in front (`last_reached`, `first_coming`).
-/

namespace Nilo.Lib.Insertion

variable {α β : Type} (key : α → Int)

/-- One item into the sorted ones, the last of which is kept first. -/
def sink (x : α) : List α → List α
  | [] => [x]
  | last :: rest => if key last > key x then last :: sink x rest else x :: last :: rest

/-- The sort: one item more at a time. -/
def sorted (l : List α) : List α := (l.foldl (fun back x => sink key x back) []).reverse

/-- In front of another: a smaller key, or the same one and in front already. -/
def Before (R : α → α → Prop) (a b : α) : Prop := key a < key b ∨ key a = key b ∧ R a b

variable {key} {R : α → α → Prop} {l : List α} {x y : α} {t : Int}

theorem Before.le (h : Before key R x y) : key x ≤ key y := by
  rcases h with hlt | ⟨heq, -⟩
  · exact Int.le_of_lt hlt
  · exact Int.le_of_eq heq

/-- Two items in front of each other have one key. -/
theorem Before.both (h : Before key R x y) (h' : Before key R y x) : R x y ∧ R y x := by
  have hle := h.le
  have hle' := h'.le
  rcases h with hlt | ⟨-, hxy⟩
  · omega
  rcases h' with hlt | ⟨-, hyx⟩
  · omega
  exact ⟨hxy, hyx⟩

@[simp] theorem mem_sink : y ∈ sink key x l ↔ y = x ∨ y ∈ l := by
  fun_induction sink key x l with
  | case1 => simp
  | case2 last rest hgt ih =>
    rw [List.mem_cons, ih, List.mem_cons]
    exact or_left_comm
  | case3 last rest hle => rw [List.mem_cons]

theorem mem_foldl_sink (l back : List α) :
    y ∈ l.foldl (fun back x => sink key x back) back ↔ y ∈ l ∨ y ∈ back := by
  induction l generalizing back with
  | nil => simp
  | cons x l ih =>
    rw [List.foldl_cons, ih, mem_sink, List.mem_cons]
    tauto

@[simp] theorem mem_sorted : y ∈ sorted key l ↔ y ∈ l := by
  rw [sorted, List.mem_reverse, mem_foldl_sink]
  simp

/-! ## Order -/

theorem pairwise_sink {back : List α} (h : back.Pairwise fun b a => Before key R a b)
    (hx : ∀ a ∈ back, R a x) : (sink key x back).Pairwise fun b a => Before key R a b := by
  induction back with
  | nil => exact List.pairwise_singleton _ _
  | cons last rest ih =>
    obtain ⟨hlast, hrest⟩ := List.pairwise_cons.mp h
    rw [sink]
    by_cases hgt : key last > key x
    · rw [if_pos hgt, List.pairwise_cons]
      refine ⟨fun a ha => ?_, ih hrest fun a ha => hx a (List.mem_cons_of_mem _ ha)⟩
      rcases mem_sink.mp ha with rfl | ha
      · exact .inl hgt
      · exact hlast a ha
    · rw [if_neg hgt, List.pairwise_cons]
      refine ⟨fun a ha => ?_, h⟩
      have hle : key a ≤ key last := by
        rcases List.mem_cons.mp ha with rfl | ha
        · exact Int.le_refl _
        · exact (hlast a ha).le
      rcases Int.lt_or_eq_of_le (Int.le_trans hle (Int.not_lt.mp hgt)) with hlt | heq
      · exact .inl hlt
      · exact .inr ⟨heq, hx a ha⟩

theorem pairwise_foldl_sink {l back : List α} (h : back.Pairwise fun b a => Before key R a b)
    (hl : l.Pairwise R) (hover : ∀ a ∈ back, ∀ b ∈ l, R a b) :
    (l.foldl (fun back x => sink key x back) back).Pairwise fun b a => Before key R a b := by
  induction l generalizing back with
  | nil => exact h
  | cons x l ih =>
    obtain ⟨hx, hl⟩ := List.pairwise_cons.mp hl
    refine ih (pairwise_sink h fun a ha => hover a ha x List.mem_cons_self) hl fun a ha b hb => ?_
    rcases mem_sink.mp ha with rfl | ha
    · exact hx b hb
    · exact hover a ha b (List.mem_cons_of_mem _ hb)

/-- What comes out is sorted by the key, and items of one key are in the order they came in. -/
theorem pairwise_sorted (h : l.Pairwise R) : (sorted key l).Pairwise (Before key R) := by
  rw [sorted, List.pairwise_reverse]
  exact pairwise_foldl_sink List.Pairwise.nil h fun a ha => nomatch ha

/-! ## Items that stand for others -/

theorem map_sink (f : α → β) (k : β → Int) (x : α) (back : List α) :
    (sink (fun a => k (f a)) x back).map f = sink k (f x) (back.map f) := by
  fun_induction sink (fun a => k (f a)) x back with
  | case1 => rfl
  | case2 last rest hgt ih =>
    rw [List.map_cons, List.map_cons, sink, if_pos hgt, ih]
  | case3 last rest hle =>
    rw [List.map_cons, List.map_cons, sink, if_neg hle]

theorem map_sorted (f : α → β) (k : β → Int) (l : List α) :
    (sorted (fun a => k (f a)) l).map f = sorted k (l.map f) := by
  have hfold : ∀ back : List α,
      (l.foldl (fun back x => sink (fun a => k (f a)) x back) back).map f =
        (l.map f).foldl (fun back x => sink k x back) (back.map f) := by
    induction l with
    | nil => exact fun back => rfl
    | cons x l ih =>
      intro back
      rw [List.foldl_cons, List.map_cons, List.foldl_cons, ih, map_sink]
  rw [sorted, sorted, List.map_reverse, hfold]
  rfl

/-! ## Up to a bound -/

/-- Past the first item beyond the bound everything is. -/
theorem lt_of_mem_dropWhile (h : l.Pairwise (Before key R))
    (hy : y ∈ l.dropWhile fun x => key x ≤ t) : t < key y := by
  induction l with
  | nil => cases hy
  | cons x l ih =>
    obtain ⟨hx, hl⟩ := List.pairwise_cons.mp h
    by_cases hle : key x ≤ t
    · rw [List.dropWhile_cons_of_pos (by simpa using hle)] at hy
      exact ih hl hy
    · rw [List.dropWhile_cons_of_neg (by simpa using hle)] at hy
      rcases List.mem_cons.mp hy with rfl | hy
      · exact Int.not_le.mp hle
      · exact Int.lt_of_lt_of_le (Int.not_le.mp hle) (hx y hy).le

theorem mem_takeWhile_or (l : List α) (p : α → Bool) (hy : y ∈ l) :
    y ∈ l.takeWhile p ∨ y ∈ l.dropWhile p := by
  rw [← List.takeWhile_append_dropWhile (p := p) (l := l)] at hy
  exact List.mem_append.mp hy

/-- The last of the items up to the bound is behind every other of them. -/
theorem last_reached (h : l.Pairwise (Before key R))
    (hx : (l.takeWhile fun x => key x ≤ t).getLast? = some x) :
    x ∈ l ∧ key x ≤ t ∧ ∀ y ∈ l, key y ≤ t → y = x ∨ Before key R y x := by
  obtain ⟨front, hfront⟩ := List.getLast?_eq_some_iff.mp hx
  have hmem : x ∈ l.takeWhile fun x => key x ≤ t := by
    rw [hfront]
    exact List.mem_concat_self
  refine ⟨List.takeWhile_subset _ hmem, by simpa using List.mem_takeWhile_imp hmem, fun y hy hle => ?_⟩
  rcases mem_takeWhile_or l (fun x => key x ≤ t) hy with hin | hout
  · have hpair := h.sublist (List.takeWhile_sublist fun x => decide (key x ≤ t))
    rw [hfront] at hin hpair
    rcases List.mem_append.mp hin with hin | hin
    · exact .inr ((List.pairwise_append.mp hpair).2.2 y hin x List.mem_cons_self)
    · exact .inl (List.mem_singleton.mp hin)
  · have hlt := lt_of_mem_dropWhile h hout
    omega

theorem none_reached (hnone : (l.takeWhile fun x => key x ≤ t).getLast? = none)
    (h : l.Pairwise (Before key R)) (hy : y ∈ l) : t < key y := by
  rcases mem_takeWhile_or l (fun x => key x ≤ t) hy with hin | hout
  · rw [List.getLast?_eq_none_iff.mp hnone] at hin
    cases hin
  · exact lt_of_mem_dropWhile h hout

/-- The first of the items beyond the bound has the smallest key of them. -/
theorem first_coming {rest : List α} (h : l.Pairwise (Before key R))
    (hx : (l.dropWhile fun x => key x ≤ t) = x :: rest) :
    x ∈ l ∧ t < key x ∧ ∀ y ∈ l, t < key y → key x ≤ key y := by
  have hmem : x ∈ l.dropWhile fun x => key x ≤ t := by
    rw [hx]
    exact List.mem_cons_self
  refine ⟨List.dropWhile_subset _ hmem, lt_of_mem_dropWhile h hmem, fun y hy hlt => ?_⟩
  rcases mem_takeWhile_or l (fun x => key x ≤ t) hy with hin | hout
  · have hle := List.mem_takeWhile_imp hin
    simp at hle
    omega
  · have hpair := h.sublist (List.dropWhile_sublist fun x => decide (key x ≤ t))
    rw [hx] at hout hpair
    rcases List.mem_cons.mp hout with rfl | hout
    · exact Int.le_refl _
    · exact ((List.pairwise_cons.mp hpair).1 y hout).le

theorem none_coming (hnone : (l.dropWhile fun x => key x ≤ t) = []) (hy : y ∈ l) : key y ≤ t := by
  rcases mem_takeWhile_or l (fun x => key x ≤ t) hy with hin | hout
  · simpa using List.mem_takeWhile_imp hin
  · rw [hnone] at hout
    cases hout

end Nilo.Lib.Insertion
