import Mathlib.Data.List.Nodup

/-!
# Singly linked lists in a memory

`Seg next p l q`: from the pointer `p`, following `next`, one visits the nodes of `l` and then has
`q` in hand. A list is a segment that ends in `none`. The rules are for putting a node at the end,
for taking one out of the middle, and for the walk that looks for the node ahead of another.
-/

namespace Nilo.Linked

variable {α : Type} {next next' : α → Option α} {p q : Option α} {l r : List α} {a w : α}

def Seg (next : α → Option α) : Option α → List α → Option α → Prop
  | p, [], q => p = q
  | p, a :: l, q => p = some a ∧ Seg next (next a) l q

theorem Seg.congr (h : Seg next p l q) (hsame : ∀ x ∈ l, next' x = next x) : Seg next' p l q := by
  induction l generalizing p with
  | nil => exact h
  | cons x l ih =>
    obtain ⟨hp, hrest⟩ := h
    refine ⟨hp, ?_⟩
    rw [hsame x List.mem_cons_self]
    exact ih hrest fun y hy => hsame y (List.mem_cons_of_mem x hy)

theorem seg_append : Seg next p (l ++ r) q ↔ ∃ m, Seg next p l m ∧ Seg next m r q := by
  induction l generalizing p with
  | nil =>
    constructor
    · intro h
      exact ⟨p, rfl, h⟩
    · rintro ⟨m, rfl, h⟩
      exact h
  | cons x l ih =>
    constructor
    · rintro ⟨hp, hrest⟩
      obtain ⟨m, hl, hr⟩ := ih.mp hrest
      exact ⟨m, ⟨hp, hl⟩, hr⟩
    · rintro ⟨m, ⟨hp, hl⟩, hr⟩
      exact ⟨hp, ih.mpr ⟨m, hl, hr⟩⟩

theorem seg_snoc : Seg next p (l ++ [a]) q ↔ Seg next p l (some a) ∧ next a = q := by
  rw [seg_append]
  constructor
  · rintro ⟨m, hl, rfl, hq⟩
    exact ⟨hl, hq⟩
  · rintro ⟨hl, hq⟩
    exact ⟨some a, hl, rfl, hq⟩

theorem Seg.nil_iff (h : Seg next p l none) : p = none ↔ l = [] := by
  cases l with
  | nil => exact ⟨fun _ => rfl, fun _ => h⟩
  | cons x l =>
    obtain ⟨rfl, _⟩ := h
    simp

/-- A node put at the end: the first of an empty list, or the next of the last. -/
theorem Seg.push {p' : Option α} (h : Seg next p l none) (hnodup : l.Nodup)
    (hfirst : p' = if l = [] then some a else p)
    (hlast : ∀ t, l.getLast? = some t → next' t = some a)
    (hother : ∀ x ∈ l, l.getLast? ≠ some x → next' x = next x) (hend : next' a = none) :
    Seg next' p' (l ++ [a]) none := by
  rw [seg_snoc]
  refine ⟨?_, hend⟩
  rcases List.eq_nil_or_concat l with rfl | ⟨l, t, rfl⟩
  · exact hfirst
  · rw [List.concat_eq_append] at *
    rw [if_neg (by simp)] at hfirst
    subst hfirst
    rw [seg_snoc] at h ⊢
    refine ⟨h.1.congr fun x hx => hother x (List.mem_append_left _ hx) ?_, hlast t (by simp)⟩
    rintro hlast
    rw [List.getLast?_concat, Option.some.injEq] at hlast
    subst hlast
    exact List.disjoint_of_nodup_append hnodup hx List.mem_cons_self

/-- The first node taken off. -/
theorem Seg.tail (h : Seg next p (a :: l) q) : Seg next (next a) l q := h.2

/-- A node taken out: the one ahead of it, or the front of the list, takes over its next. -/
theorem Seg.remove {p' : Option α} (h : Seg next p (l ++ w :: r) q) (hnodup : (l ++ w :: r).Nodup)
    (hfirst : p' = if l = [] then next w else p)
    (hbefore : ∀ b, l.getLast? = some b → next' b = next w)
    (hother : ∀ x ∈ l ++ r, l.getLast? ≠ some x → next' x = next x) : Seg next' p' (l ++ r) q := by
  obtain ⟨m, hl, rfl, hr⟩ := seg_append.mp h
  have hr' : Seg next' (next w) r q := by
    refine hr.congr fun x hx => hother x (List.mem_append_right _ hx) fun hlast => ?_
    have hxl := List.mem_of_getLast? hlast
    exact List.disjoint_of_nodup_append hnodup hxl (List.mem_cons_of_mem w hx)
  rcases List.eq_nil_or_concat l with rfl | ⟨l, b, rfl⟩
  · rw [if_pos rfl] at hfirst
    subst hfirst
    exact hr'
  · rw [List.concat_eq_append] at *
    rw [if_neg (by simp)] at hfirst
    subst hfirst
    refine seg_append.mpr ⟨next w, ?_, hr'⟩
    rw [seg_snoc] at hl ⊢
    have hnodupl := (List.nodup_append.mp hnodup).1
    refine ⟨hl.1.congr fun x hx => hother x (by simp [hx]) ?_, hbefore b (by simp)⟩
    intro hlast
    rw [List.getLast?_concat, Option.some.injEq] at hlast
    subst hlast
    exact List.disjoint_of_nodup_append hnodupl hx List.mem_cons_self

/-- The walk to `w` with the node before it in hand, of at most so many nodes. -/
def before [DecidableEq α] (next : α → Option α) (w : α) :
    Nat → Option α → Option α → Option (Option α)
  | 0, _, _ => none
  | _ + 1, _, none => none
  | n + 1, prev, some node =>
    if node = w then some prev else before next w n (some node) (next node)

theorem before_eq [DecidableEq α] {n : Nat} {prev : Option α} (h : Seg next p (l ++ w :: r) q)
    (hw : w ∉ l) (hn : l.length < n) : before next w n prev p = some (l.getLast?.or prev) := by
  induction l generalizing p n prev with
  | nil =>
    obtain ⟨n, rfl⟩ := Nat.exists_eq_add_of_lt hn
    obtain ⟨rfl, _⟩ := h
    rw [before, if_pos rfl]
    rfl
  | cons x l ih =>
    obtain ⟨n, rfl⟩ : ∃ k, n = k + 1 := ⟨n - 1, by simp only [List.length_cons] at hn; omega⟩
    obtain ⟨rfl, hrest⟩ := h
    have hne : x ≠ w := fun heq => hw (heq ▸ List.mem_cons_self)
    have hlen : l.length < n := by
      rw [List.length_cons] at hn
      omega
    rw [before, if_neg hne, ih hrest (fun hmem => hw (List.mem_cons_of_mem x hmem)) hlen]
    cases hl : l.getLast? with
    | none =>
      rw [List.getLast?_eq_none_iff] at hl
      subst hl
      rfl
    | some y => simp [List.getLast?_cons, hl]

end Nilo.Linked
