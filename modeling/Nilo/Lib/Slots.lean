import Mathlib.Data.List.Nodup
import Mathlib.Data.List.Perm.Basic
import Mathlib.Tactic.SplitIfs

/-!
# Tables of a fixed number of slots

A slot may hold something under a name (`f a = some x`) or hold nothing under that
reading (`f a = none`); slots are changed in place. The names held, `List.filterMap f`,
stay as they were, lose one or gain one according to what the new content of the slot
holds, and so stay different from each other (`nodup_set`, `nodup_set_new`).
-/

namespace Nilo.Lib

variable {α β : Type} {f : α → Option β} {l : List α} {i : Nat} {a b : α} {x : β}

theorem split_at (hi : l[i]? = some a) : l = l.take i ++ a :: l.drop (i + 1) := by
  obtain ⟨hlt, rfl⟩ := List.getElem?_eq_some_iff.1 hi
  rw [List.getElem_cons_drop, List.take_append_drop]

theorem set_at (hi : l[i]? = some a) : l.set i b = l.take i ++ b :: l.drop (i + 1) := by
  obtain ⟨hlt, -⟩ := List.getElem?_eq_some_iff.1 hi
  rw [List.set_eq_take_append_cons_drop, if_pos hlt]

/-- What a slot is after one of them was set. -/
theorem of_getElem?_set {j : Nat} (h : (l.set i a)[j]? = some b) :
    j = i ∧ b = a ∨ j ≠ i ∧ l[j]? = some b := by
  rw [List.getElem?_set] at h
  split_ifs at h with hij hlt
  · cases h
    exact .inl ⟨hij.symm, rfl⟩
  · exact .inr ⟨fun heq => hij heq.symm, h⟩

/-- What a slot was before one of them was changed in place. -/
theorem of_getElem?_modify {j : Nat} {g : α → α} (h : (l.modify i g)[j]? = some b) :
    ∃ c, l[j]? = some c ∧ b = if j = i then g c else c := by
  rw [List.getElem?_modify] at h
  cases hj : l[j]? with
  | none =>
    rw [hj] at h
    cases h
  | some c =>
    rw [hj] at h
    cases h
    refine ⟨c, rfl, ?_⟩
    by_cases hij : i = j
    · simp [hij]
    · simp [hij, Ne.symm hij]

theorem modify_set_self {g : α → α} : (l.set i a).modify i g = l.set i (g a) := by
  refine List.ext_getElem? ?_
  intro j
  rw [List.getElem?_modify, List.getElem?_set, List.getElem?_set]
  by_cases hij : i = j
  · subst hij
    by_cases hlt : i < l.length
    · simp [hlt]
    · simp [hlt]
  · simp [hij]

/-- What is counted over all slots moves by what is counted in the one that is set. -/
theorem count_flatMap_set [DecidableEq β] {w : α → List β} (hi : l[i]? = some a) (q : β) :
    ((l.set i b).flatMap w).count q + (w a).count q = (l.flatMap w).count q + (w b).count q := by
  have hl : (l.flatMap w).count q =
      ((l.take i).flatMap w).count q + (w a).count q + ((l.drop (i + 1)).flatMap w).count q := by
    conv_lhs => rw [split_at hi]
    simp [List.flatMap_append, List.count_append]
    omega
  rw [set_at hi, hl]
  simp only [List.flatMap_append, List.flatMap_cons, List.count_append]
  omega

/-- How many slots are so moves by whether the one that is set is. -/
theorem countP_set {p : α → Bool} (hi : l[i]? = some a) :
    (l.set i b).countP p + (p a).toNat = l.countP p + (p b).toNat := by
  have hsplit (x : α) : (l.take i ++ x :: l.drop (i + 1)).countP p =
      (l.take i).countP p + (p x).toNat + (l.drop (i + 1)).countP p := by
    rw [List.countP_append, List.countP_cons]
    cases p x <;> simp
    omega
  have hl : l.countP p = (l.take i ++ a :: l.drop (i + 1)).countP p := congrArg _ (split_at hi)
  rw [set_at hi, hsplit, hl, hsplit]
  omega

/-- A reading of the slots that a change in place does not touch. -/
theorem map_modify_same {γ : Type} {w : α → γ} {g : α → α} (h : ∀ c, w (g c) = w c) :
    (l.modify i g).map w = l.map w := by
  refine List.ext_getElem? ?_
  intro j
  rw [List.getElem?_map, List.getElem?_map, List.getElem?_modify]
  cases l[j]? with
  | none => rfl
  | some c =>
    by_cases hij : i = j
    · simp [hij, h]
    · simp [hij]

/-- A slot that holds the same name as before. -/
theorem filterMap_set_same (hi : l[i]? = some a) (h : f b = f a) :
    (l.set i b).filterMap f = l.filterMap f := by
  rw [set_at hi]
  conv_rhs => rw [split_at hi]
  simp only [List.filterMap_append, List.filterMap_cons, h]

/-- A slot that holds nothing any more. -/
theorem filterMap_set_none (hi : l[i]? = some a) (h : f b = none) :
    ((l.set i b).filterMap f).Sublist (l.filterMap f) := by
  rw [set_at hi]
  conv_rhs => rw [split_at hi]
  rw [List.filterMap_append, List.filterMap_append, List.filterMap_cons_none h]
  refine List.Sublist.append_left ?_ _
  exact (List.sublist_cons_self a _).filterMap f

/-- A slot that held nothing, and holds a new name. -/
theorem filterMap_set_new (hi : l[i]? = some a) (ha : f a = none) (hb : f b = some x) :
    ((l.set i b).filterMap f).Perm (x :: l.filterMap f) := by
  have hl : l.filterMap f = (l.take i).filterMap f ++ (l.drop (i + 1)).filterMap f := by
    conv_lhs => rw [split_at hi]
    rw [List.filterMap_append, List.filterMap_cons_none ha]
  rw [set_at hi, hl, List.filterMap_append, List.filterMap_cons_some hb]
  exact List.perm_middle

/-- Names stay different when a slot keeps its name or loses it. -/
theorem nodup_set (hi : l[i]? = some a) (h : f b = none ∨ f b = f a)
    (hn : (l.filterMap f).Nodup) : ((l.set i b).filterMap f).Nodup := by
  rcases h with h | h
  · exact hn.sublist (filterMap_set_none hi h)
  · rw [filterMap_set_same hi h]
    exact hn

/-- And when a slot takes a name no other has. -/
theorem nodup_set_new (hi : l[i]? = some a) (ha : f a = none) (hb : f b = some x)
    (hx : x ∉ l.filterMap f) (hn : (l.filterMap f).Nodup) : ((l.set i b).filterMap f).Nodup :=
  (filterMap_set_new hi ha hb).nodup_iff.2 (List.nodup_cons.2 ⟨hx, hn⟩)

/-- Besides the slot that is changed, no slot holds the name it held. -/
theorem mem_set_other {t : α} (hi : l[i]? = some a) (ha : f a = some x)
    (hn : (l.filterMap f).Nodup) (ht : t ∈ l.set i b) : t = b ∨ t ∈ l ∧ f t ≠ some x := by
  rw [set_at hi] at ht
  rw [split_at hi, List.filterMap_append, List.filterMap_cons_some ha] at hn
  have hx := (List.nodup_middle.1 hn)
  have hnot : x ∉ (l.take i).filterMap f ++ (l.drop (i + 1)).filterMap f :=
    (List.nodup_cons.1 hx).1
  rcases List.mem_append.1 ht with ht | ht
  · refine .inr ⟨List.mem_of_mem_take ht, fun he => hnot ?_⟩
    exact List.mem_append_left _ (List.mem_filterMap.2 ⟨t, ht, he⟩)
  · rcases List.mem_cons.1 ht with rfl | ht
    · exact .inl rfl
    · refine .inr ⟨List.mem_of_mem_drop ht, fun he => hnot ?_⟩
      exact List.mem_append_right _ (List.mem_filterMap.2 ⟨t, ht, he⟩)

/-- A name is lost only by the slot that held it. -/
theorem mem_set_or (hi : l[i]? = some a) (hx : x ∈ l.filterMap f) :
    x ∈ (l.set i b).filterMap f ∨ f a = some x := by
  rw [split_at hi, List.filterMap_append, List.mem_append] at hx
  rw [set_at hi, List.filterMap_append, List.mem_append]
  rcases hx with hx | hx
  · exact .inl (.inl hx)
  · obtain ⟨y, hy, hfy⟩ := List.mem_filterMap.1 hx
    rcases List.mem_cons.1 hy with rfl | hy
    · exact .inr hfy
    · exact .inl (.inr (List.mem_filterMap.2 ⟨y, List.mem_cons_of_mem _ hy, hfy⟩))

end Nilo.Lib
