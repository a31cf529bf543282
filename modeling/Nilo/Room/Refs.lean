import Nilo.Room.Room
import Nilo.Lib.Slots

/-!
# References to posts

`Trade h h' l l'` says what an operation does to the heap by what it holds before (`l`) and after
(`l'`): the references of every post change by as much as it is held more or less often, no post
changes its contents, and a post is freed once, when its last reference goes. Trades follow one
another (`trans`) and do not see what else is held (`context`).
-/

namespace Nilo.Rooms

open Lib (RingBuf)

namespace Heap

variable {h h' h'' : Heap} {p q : PostId} {l l' l'' : List PostId}

def posts (h : Heap) : List Post := h.map (·.post)

/-- Freed once there is no reference left, and only then. -/
def Tidy (h : Heap) : Prop := ∀ cell ∈ h, cell.freed = if cell.refs = 0 then 1 else 0

theorem size_eq (h : Heap) (p : PostId) : h.size p = (h.posts[p]?).elim 0 Post.size := by
  rw [size, posts, List.getElem?_map]
  cases h[p]? <;> rfl

theorem kind_eq (h : Heap) (p : PostId) : h.kind p = (h.posts[p]?).elim .text Post.kind := by
  rw [kind, posts, List.getElem?_map]
  cases h[p]? <;> rfl

/-- What a post says does not depend on who holds it. -/
theorem size_congr (hposts : h'.posts = h.posts) (p : PostId) : h'.size p = h.size p := by
  rw [size_eq, size_eq, hposts]

theorem exists_cell (hp : 0 < h.refs p) : ∃ cell, h[p]? = some cell ∧ 0 < cell.refs := by
  unfold refs at hp
  split at hp
  · exact absurd hp (by simp)
  · rename_i cell hcell
    exact ⟨cell, hcell, hp⟩

theorem refs_set {cell : Cell} (hp : p < h.length) :
    refs (h.set p cell) q = if q = p then cell.refs else h.refs q := by
  unfold refs
  rw [List.getElem?_set]
  by_cases hqp : q = p
  · subst hqp
    simp [hp]
  · rw [if_neg (fun heq => hqp heq.symm), if_neg hqp]

theorem posts_set {cell cell' : Cell} (hp : h[p]? = some cell) (hpost : cell'.post = cell.post) :
    posts (h.set p cell') = h.posts := by
  obtain ⟨hlt, rfl⟩ := List.getElem?_eq_some_iff.mp hp
  have hsame : (h.posts)[p]? = some cell'.post := by
    rw [posts, List.getElem?_map, hp]
    simp [hpost]
  obtain ⟨hlt', hget⟩ := List.getElem?_eq_some_iff.mp hsame
  rw [posts, List.map_set, ← hget]
  exact List.set_getElem_self hlt'

/-! ## A new post -/

theorem lt_length_of_refs {q : Nat} (hq : 0 < h.refs q) : q < h.length := by
  obtain ⟨cell, hcell, _⟩ := exists_cell hq
  exact (List.getElem?_eq_some_iff.mp hcell).1

theorem getElem?_alloc (h : Heap) (post : Post) (q : Nat) :
    (h.alloc post)[q]? = if q = h.length then some ⟨post, 1, 0⟩ else h[q]? := by
  rw [alloc]
  rcases Nat.lt_trichotomy q h.length with hlt | heq | hgt
  · rw [List.getElem?_append_left hlt, if_neg (by omega)]
  · subst heq
    simp
  · rw [if_neg (by omega), List.getElem?_eq_none (by simp; omega), List.getElem?_eq_none (by omega)]

theorem refs_alloc (h : Heap) (post : Post) (q : Nat) :
    (h.alloc post).refs q = h.refs q + [h.length].count q := by
  rw [refs, getElem?_alloc, refs]
  by_cases hq : q = h.length
  · subst hq
    simp
  · have hne : ¬h.length = q := fun heq => hq heq.symm
    simp [hq, hne]

theorem size_alloc {q : Nat} (hq : 0 < h.refs q) (post : Post) :
    (h.alloc post).size q = h.size q := by
  have hlt := lt_length_of_refs hq
  rw [size, getElem?_alloc, if_neg (by omega), size]

theorem tidy_alloc (ht : h.Tidy) (post : Post) : (h.alloc post).Tidy := by
  intro cell hcell
  rcases List.mem_append.mp hcell with hcell | hcell
  · exact ht cell hcell
  · rw [List.mem_singleton.mp hcell]
    rfl

/-! ## Trades -/

structure Trade (h h' : Heap) (l l' : List PostId) : Prop where
  refs : ∀ q, h'.refs q + l.count q = h.refs q + l'.count q
  posts : h'.posts = h.posts
  tidy : h.Tidy → h'.Tidy

theorem Trade.refl (h : Heap) (l : List PostId) : Trade h h l l :=
  ⟨fun _ => rfl, rfl, fun ht => ht⟩

theorem Trade.trans (h₁ : Trade h h' l l') (h₂ : Trade h' h'' l' l'') : Trade h h'' l l'' := by
  refine ⟨?_, h₂.posts.trans h₁.posts, fun ht => h₂.tidy (h₁.tidy ht)⟩
  intro q
  have hq₁ := h₁.refs q
  have hq₂ := h₂.refs q
  omega

/-- What is held besides. -/
theorem Trade.context (ht : Trade h h' l l') (a b : List PostId) :
    Trade h h' (a ++ l ++ b) (a ++ l' ++ b) := by
  refine ⟨?_, ht.posts, ht.tidy⟩
  intro q
  have hq := ht.refs q
  simp only [List.count_append]
  omega

theorem Trade.perm {m m' : List PostId} (ht : Trade h h' l l') (hl : m.Perm l) (hl' : m'.Perm l') :
    Trade h h' m m' := by
  refine ⟨?_, ht.posts, ht.tidy⟩
  intro q
  rw [hl.count_eq, hl'.count_eq]
  exact ht.refs q

/-- What is held is never more often held than it is counted. -/
def Covers (h : Heap) (l : List PostId) : Prop := ∀ q, l.count q ≤ h.refs q

theorem Covers.trade (hc : h.Covers l) (ht : Trade h h' l l') : h'.Covers l' := by
  intro q
  have hq := ht.refs q
  have hle := hc q
  omega

theorem Covers.pos (hc : h.Covers l) (hp : p ∈ l) : 0 < h.refs p :=
  Nat.lt_of_lt_of_le (List.count_pos_iff.mpr hp) (hc p)

theorem Covers.mono (hc : h.Covers l') (hle : ∀ q, l.count q ≤ l'.count q) : h.Covers l :=
  fun q => Nat.le_trans (hle q) (hc q)

theorem trade_release (hp : 0 < h.refs p) : Trade h (h.release p) [p] [] := by
  obtain ⟨cell, hcell, hpos⟩ := exists_cell hp
  obtain ⟨hlt, hget⟩ := List.getElem?_eq_some_iff.mp hcell
  have hrelease : h.release p = h.set p { cell with
      refs := cell.refs - 1
      freed := if cell.refs = 1 then cell.freed + 1 else cell.freed } := by
    rw [release, hcell]
  have hrefs : h.refs p = cell.refs := by rw [Heap.refs, hcell]
  refine ⟨?_, ?_, ?_⟩
  · intro q
    rw [hrelease, refs_set hlt]
    by_cases hqp : q = p
    · subst hqp
      rw [if_pos rfl, hrefs]
      simp
      omega
    · rw [if_neg hqp, List.count_singleton]
      simp [Ne.symm hqp]
  · rw [hrelease]
    exact posts_set hcell rfl
  · intro ht c hc
    rw [hrelease] at hc
    rcases List.mem_or_eq_of_mem_set hc with hc | rfl
    · exact ht c hc
    · have hcell' := ht cell (List.mem_of_getElem? hcell)
      dsimp only
      split_ifs at hcell' ⊢ <;> omega

theorem trade_addRef (hp : 0 < h.refs p) : Trade h (h.addRef p) [] [p] := by
  obtain ⟨cell, hcell, hpos⟩ := exists_cell hp
  obtain ⟨hlt, hget⟩ := List.getElem?_eq_some_iff.mp hcell
  have hadd : h.addRef p = h.set p { cell with refs := cell.refs + 1 } := by
    rw [addRef, hcell]
  have hrefs : h.refs p = cell.refs := by rw [Heap.refs, hcell]
  refine ⟨?_, ?_, ?_⟩
  · intro q
    rw [hadd, refs_set hlt]
    by_cases hqp : q = p
    · subst hqp
      rw [if_pos rfl, hrefs]
      simp
    · rw [if_neg hqp, List.count_singleton]
      simp [Ne.symm hqp]
  · rw [hadd]
    exact posts_set hcell rfl
  · intro ht c hc
    rw [hadd] at hc
    rcases List.mem_or_eq_of_mem_set hc with hc | rfl
    · exact ht c hc
    · have hcell' := ht cell (List.mem_of_getElem? hcell)
      rw [if_neg (by omega)] at hcell'
      dsimp only
      rw [if_neg (by omega), hcell']

theorem trade_addRefs (ps : List PostId) (hps : ∀ p ∈ ps, 0 < h.refs p) :
    Trade h (ps.foldl addRef h) [] ps := by
  induction ps generalizing h with
  | nil => exact .refl h []
  | cons p ps ih =>
    have hfirst : Trade h (h.addRef p) [] [p] := trade_addRef (hps p (by simp))
    have hrest : Trade (h.addRef p) (ps.foldl addRef (h.addRef p)) [] ps := by
      refine ih ?_
      intro q hq
      have hpos := hps q (List.mem_cons_of_mem p hq)
      have hq := hfirst.refs q
      simp only [List.count_nil] at hq
      omega
    have hafter : Trade (h.addRef p) (ps.foldl addRef (h.addRef p)) [p] (p :: ps) := by
      simpa using hrest.context [p] []
    exact hfirst.trans hafter

end Heap

end Nilo.Rooms
