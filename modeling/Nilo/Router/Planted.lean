import Nilo.Router.Tree
import Mathlib.Data.List.Induction

/-!
# What a planted tree holds

A node is known by the shapes that lead to it from the root. `Planted` says what the tree
holds of a list of routes: no two paths lead to one node, the route of a method found at a
node is the route of that method whose shapes lead there, and along the shapes of every
route there are nodes marked with its method. Planting one more route, of a method and
shapes no other has, keeps it.
-/

namespace Nilo.Routing.Arena

open Text (Bytes)

variable {α : Type} {a : Arena} {routes : List (Route α)} {m : Method} {i j k n : Nat}
  {s t : List Shape} {sh : Shape} {tail : Bool}

/-! ## Paths in the tree -/

/-- The child a segment of this shape leads to. -/
def child (a : Arena) (i : Nat) : Shape → Option Nat
  | .literal text => (a.node i).literal text
  | .param => (a.node i).param

/-- The node these shapes lead to from a node. -/
def walk (a : Arena) : List Shape → Nat → Option Nat
  | [], i => some i
  | sh :: t, i => (child a i sh).bind (walk a t)

theorem walk_append : ∀ {s t : List Shape} {i : Nat},
    walk a (s ++ t) i = (walk a s i).bind (walk a t)
  | [], _, _ => rfl
  | sh :: s, t, i => by
    simp only [List.cons_append, walk]
    cases child a i sh with
    | none => rfl
    | some j => exact walk_append

theorem walk_snoc : walk a (t ++ [sh]) i = (walk a t i).bind fun j => child a j sh := by
  rw [walk_append]
  simp [walk]

theorem walk_snoc_of (h : walk a t 0 = some i) : walk a (t ++ [sh]) 0 = child a i sh := by
  rw [walk_snoc, h]
  rfl

/-- What a node holds of a method: the route that ends there, or the one whose `*` stands
there. -/
def slot (a : Arena) (n : Nat) (tail : Bool) (m : Method) : Option Nat :=
  if tail then (a.node n).rest m else (a.node n).ends m

/-! ## The steps of planting -/

theorem node_edit {f : Node → Node} : (edit a i f).node j =
    if i = j ∧ j < a.length then f (a.node j) else a.node j := by
  unfold node edit
  by_cases hj : j < a.length
  · by_cases hij : i = j <;> simp [hj, hij]
  · simp [hj]

theorem length_edit {f : Node → Node} : (edit a i f).length = a.length := List.length_modify ..

theorem node_push : (a ++ [({} : Node)]).node j = a.node j := by
  unfold node
  rcases Nat.lt_trichotomy j a.length with h | h | h
  · simp [List.getElem?_append_left h]
  · simp [h]
  · have hnone : (a ++ [({} : Node)])[j]? = none := by
      rw [List.getElem?_eq_none_iff]
      simp
      omega
    simp [hnone, Nat.le_of_lt h]

/-- Editing what a node holds leads nowhere else. -/
theorem walk_edit {f : Node → Node}
    (hl : ∀ n, (f n).literals = n.literals) (hp : ∀ n, (f n).param = n.param) :
    ∀ {t : List Shape} {j : Nat}, walk (edit a i f) t j = walk a t j := by
  have hchild : ∀ j sh, child (edit a i f) j sh = child a j sh := by
    intro j sh
    cases sh <;> simp only [child, node_edit, Node.literal] <;> split <;> simp [hl, hp]
  intro t
  induction t with
  | nil => exact rfl
  | cons sh t ih =>
    intro j
    simp only [walk, hchild]
    exact Option.bind_congr fun j _ => ih

/-- A node with one more child. -/
def lead (n : Node) (c : Nat) : Shape → Node
  | .literal text => { n with literals := n.literals ++ [(firstKey text, text, c)] }
  | .param => { n with param := some c }

/-- The tree with a new node, which `sh` leads to from node `i`. -/
def sprout (a : Arena) (i : Nat) (sh : Shape) : Arena :=
  edit (a ++ [({} : Node)]) i fun n => lead n a.length sh

theorem literalChild_eq {text : Bytes} : literalChild a i text =
    match child a i (.literal text) with
    | some c => (c, a)
    | none => (a.length, sprout a i (.literal text)) := rfl

theorem paramChild_eq : paramChild a i =
    match child a i .param with
    | some c => (c, a)
    | none => (a.length, sprout a i .param) := rfl

theorem length_sprout : (sprout a i sh).length = a.length + 1 := by
  rw [sprout, length_edit]
  simp

theorem slot_sprout : slot (sprout a i sh) n tail m = slot a n tail m := by
  unfold slot sprout
  rw [node_edit, node_push]
  split <;> split <;> cases sh <;> rfl

theorem reach_sprout : ((sprout a i sh).node n).reach m = (a.node n).reach m := by
  unfold sprout
  rw [node_edit, node_push]
  split <;> cases sh <;> rfl

/-- A node past the last one leads nowhere. -/
theorem child_out (h : a.length ≤ i) : child a i sh = none := by
  have hnone : a[i]? = none := List.getElem?_eq_none_iff.2 h
  have hnode : a.node i = {} := by simp [node, hnone]
  cases sh <;> simp [child, hnode, Node.literal]

theorem child_sprout (hi : i < a.length) (hno : child a i sh = none) {sh' : Shape} :
    child (sprout a i sh) j sh' = if j = i ∧ sh' = sh then some a.length else child a j sh' := by
  have hnode : (sprout a i sh).node j = if i = j then lead (a.node j) a.length sh else a.node j := by
    unfold sprout
    rw [node_edit, node_push]
    by_cases hij : i = j
    · rw [if_pos ⟨hij, by rw [List.length_append]; omega⟩, if_pos hij]
    · rw [if_neg (fun h => hij h.1), if_neg hij]
  by_cases hij : i = j
  · subst hij
    cases sh with
    | param =>
      cases sh' with
      | param => simp [child, hnode, lead]
      | literal text => simp [child, hnode, lead, Node.literal]
    | literal text =>
      cases sh' with
      | param => simp [child, hnode, lead]
      | literal text' =>
        simp only [child, Node.literal, hnode, if_true, lead, List.find?_append] at hno ⊢
        by_cases htext : text' = text
        · subst htext
          simp only [Option.map_eq_none_iff] at hno
          simp [hno]
        · have hne : ¬ text = text' := fun h => htext h.symm
          simp [htext, hne]
  · have hne : ¬ (j = i ∧ sh' = sh) := fun h => hij h.1.symm
    rw [if_neg hne]
    cases sh' <;> simp [child, hnode, hij]

/-- Every child is a node of the tree. -/
def Closed (a : Arena) : Prop :=
  0 < a.length ∧ ∀ i sh n, child a i sh = some n → n < a.length

theorem Closed.walk_lt (h : Closed a) (hw : walk a t 0 = some n) : n < a.length := by
  induction t using List.reverseRecOn with
  | nil =>
    cases hw
    exact h.1
  | append_singleton t sh =>
    rw [walk_snoc] at hw
    obtain ⟨i, -, hchild⟩ := Option.bind_eq_some_iff.1 hw
    exact h.2 _ _ _ hchild

/-- The new node is on the path to its parent and its own shape, and the paths to the other
nodes are what they were. -/
theorem walk_sprout (hi : i < a.length) (hno : child a i sh = none) :
    walk (sprout a i sh) t 0 = some n ↔
      walk a t 0 = some n ∨ n = a.length ∧ ∃ s, walk a s 0 = some i ∧ t = s ++ [sh] := by
  induction t using List.reverseRecOn generalizing n with
  | nil => simp [walk]
  | append_singleton t sh' ih =>
    rw [walk_snoc, walk_snoc, Option.bind_eq_some_iff, Option.bind_eq_some_iff]
    constructor
    · rintro ⟨j, hj, hchild⟩
      rw [child_sprout hi hno] at hchild
      rcases ih.1 hj with hold | ⟨rfl, -⟩
      · split at hchild
        · rename_i heq
          obtain ⟨rfl, rfl⟩ := heq
          cases hchild
          exact .inr ⟨rfl, t, hold, rfl⟩
        · exact .inl ⟨j, hold, hchild⟩
      · rw [if_neg (fun h => by omega), child_out (Nat.le_refl _)] at hchild
        cases hchild
    · rintro (⟨j, hj, hchild⟩ | ⟨rfl, s, hs, heq⟩)
      · refine ⟨j, ih.2 (.inl hj), ?_⟩
        rw [child_sprout hi hno, if_neg, hchild]
        rintro ⟨rfl, rfl⟩
        rw [hno] at hchild
        cases hchild
      · obtain ⟨rfl, hsh⟩ := List.append_inj' heq rfl
        obtain rfl : sh' = sh := by simpa using hsh
        refine ⟨i, ih.2 (.inl hs), ?_⟩
        rw [child_sprout hi hno, if_pos ⟨rfl, rfl⟩]

/-! ## The invariant -/

/-- The route at an index is the one of this method, these shapes and this end. -/
def Stands (routes : List (Route α)) (m : Method) (t : List Shape) (tail : Bool) (k : Nat) : Prop :=
  ∃ r, routes[k]? = some r ∧ r.method = m ∧ r.shapes = t ∧ r.wildcardTail = tail

structure Planted (a : Arena) (routes : List (Route α)) : Prop where
  closed : Closed a
  /-- No two paths lead to one node. -/
  apart : ∀ {s t n}, walk a s 0 = some n → walk a t 0 = some n → s = t
  /-- A node holds the routes whose shapes lead to it. -/
  holds : ∀ {t n tail m k}, walk a t 0 = some n →
    (slot a n tail m = some k ↔ Stands routes m t tail k)
  /-- Along a route the nodes are marked with its method. -/
  along : ∀ {r t}, r ∈ routes → t <+: r.shapes →
    ∃ n, walk a t 0 = some n ∧ (a.node n).reach r.method = true

/-- A tree part way through planting a route of a method: the shapes gone along so far lead
to node `i`, and the nodes on the way are marked. -/
structure Planting (a : Arena) (routes : List (Route α)) (m : Method) (s : List Shape) (i : Nat) :
    Prop extends Planted a routes where
  here : walk a s 0 = some i
  marked : ∀ {t}, t <+: s → ∃ n, walk a t 0 = some n ∧ (a.node n).reach m = true

theorem planted_root : Planted [({} : Node)] ([] : List (Route α)) := by
  have hchild : ∀ i sh, child [({} : Node)] i sh = none := by
    intro i sh
    cases i <;> cases sh <;> simp [child, node, Node.literal]
  have hwalk : ∀ {t n}, walk [({} : Node)] t 0 = some n → t = [] ∧ n = 0 := by
    intro t n h
    cases t with
    | nil => exact ⟨rfl, (Option.some.inj h).symm⟩
    | cons sh t => simp [walk, hchild] at h
  refine ⟨⟨by simp, ?_⟩, ?_, ?_, by simp⟩
  · intro i sh n h
    rw [hchild] at h
    cases h
  · intro s t n hs ht
    rw [(hwalk hs).1, (hwalk ht).1]
  · intro t n tail m k h
    obtain ⟨-, rfl⟩ := hwalk h
    cases tail <;> simp [slot, node, Stands]

theorem walk_mark : walk (edit a i (·.mark m)) t j = walk a t j :=
  walk_edit (f := (·.mark m)) (fun _ => rfl) (fun _ => rfl)

theorem child_mark : child (edit a i (·.mark m)) j sh = child a j sh := by
  have h : walk (edit a i (·.mark m)) [sh] j = walk a [sh] j := walk_mark
  simpa [walk] using h

theorem slot_mark {m' : Method} : slot (edit a i (·.mark m)) n tail m' = slot a n tail m' := by
  unfold slot
  rw [node_edit]
  split <;> split <;> rfl

theorem reach_mark {m' : Method} : ((edit a i (·.mark m)).node n).reach m' = true ↔
    (a.node n).reach m' = true ∨ i = n ∧ n < a.length ∧ m' = m := by
  rw [node_edit]
  split
  · rename_i h
    by_cases hm : m' = m
    · simp [Node.mark, hm, h]
    · simp [Node.mark, hm]
  · rename_i h
    constructor
    · exact .inl
    · rintro (hr | ⟨hin, hlt, -⟩)
      · exact hr
      · exact absurd ⟨hin, hlt⟩ h

theorem Planted.rooted (h : Planted a routes) : Planted (rooted a) routes := by
  have ha : ¬ a.isEmpty := by
    have := List.ne_nil_of_length_pos h.closed.1
    simpa using this
  rw [Arena.rooted, if_neg ha]
  exact h

/-- A mark takes nothing away. -/
theorem Planted.mark (h : Planted a routes) : Planted (edit a i (·.mark m)) routes where
  closed := by
    refine ⟨by rw [length_edit]; exact h.closed.1, ?_⟩
    intro j sh n hchild
    rw [child_mark] at hchild
    rw [length_edit]
    exact h.closed.2 _ _ _ hchild
  apart hs ht := by
    rw [walk_mark] at hs ht
    exact h.apart hs ht
  holds hw := by
    rw [walk_mark] at hw
    rw [slot_mark]
    exact h.holds hw
  along hr ht := by
    obtain ⟨n, hw, hreach⟩ := h.along hr ht
    exact ⟨n, by rw [walk_mark, hw], reach_mark.2 (.inl hreach)⟩

/-- A node past the last one holds nothing. -/
theorem slot_out (h : a.length ≤ n) : slot a n tail m = none := by
  have hnone : a[n]? = none := List.getElem?_eq_none_iff.2 h
  have hnode : a.node n = {} := by simp [node, hnone]
  cases tail <;> simp [slot, hnode]

/-- A new node takes nothing away either: no route goes through it yet. -/
theorem Planted.sprout (h : Planted a routes) (hw : walk a s 0 = some i)
    (hno : child a i sh = none) : Planted (sprout a i sh) routes := by
  have hi : i < a.length := h.closed.walk_lt hw
  have hnew : ∀ {t n}, walk (Arena.sprout a i sh) t 0 = some n ↔
      walk a t 0 = some n ∨ n = a.length ∧ t = s ++ [sh] := by
    intro t n
    rw [walk_sprout hi hno]
    refine or_congr_right (and_congr_right' ?_)
    constructor
    · rintro ⟨s', hs', rfl⟩
      rw [h.apart hs' hw]
    · rintro rfl
      exact ⟨s, hw, rfl⟩
  refine ⟨⟨by rw [length_sprout]; omega, ?_⟩, ?_, ?_, ?_⟩
  · intro j sh' n hchild
    rw [child_sprout hi hno] at hchild
    rw [length_sprout]
    split at hchild
    · cases hchild
      exact Nat.lt_succ_self _
    · exact Nat.lt_succ_of_lt (h.closed.2 _ _ _ hchild)
  · intro t t' n ht ht'
    rcases hnew.1 ht with ht | ⟨rfl, rfl⟩
    · rcases hnew.1 ht' with ht' | ⟨rfl, -⟩
      · exact h.apart ht ht'
      · exact absurd (h.closed.walk_lt ht) (Nat.lt_irrefl _)
    · rcases hnew.1 ht' with ht' | ⟨-, rfl⟩
      · exact absurd (h.closed.walk_lt ht') (Nat.lt_irrefl _)
      · rfl
  · intro t n tail m k ht
    rw [slot_sprout]
    rcases hnew.1 ht with ht | ⟨rfl, rfl⟩
    · exact h.holds ht
    · rw [slot_out (Nat.le_refl _)]
      refine iff_of_false (by simp) ?_
      rintro ⟨r, hk, -, hshapes, -⟩
      obtain ⟨n, hn, -⟩ := h.along (List.mem_of_getElem? hk) ⟨[], by rw [List.append_nil, hshapes]⟩
      rw [walk_snoc_of hw, hno] at hn
      cases hn
  · intro r t hr ht
    obtain ⟨n, hn, hreach⟩ := h.along hr ht
    exact ⟨n, hnew.2 (.inl hn), by rw [reach_sprout]; exact hreach⟩

/-! ## Planting -/

namespace Planting

/-- Marking the node one shape further along. -/
theorem mark_next (h : Planted a routes) {c : Nat} (hc : walk a (s ++ [sh]) 0 = some c)
    (hmarked : ∀ {t}, t <+: s → ∃ n, walk a t 0 = some n ∧ (a.node n).reach m = true) :
    Planting (edit a c (·.mark m)) routes m (s ++ [sh]) c := by
  refine ⟨h.mark, by rw [walk_mark, hc], ?_⟩
  intro t ht
  rcases List.prefix_concat_iff.1 ht with rfl | ht
  · exact ⟨c, by rw [walk_mark, hc], reach_mark.2 (.inr ⟨rfl, h.closed.walk_lt hc, rfl⟩)⟩
  · obtain ⟨n, hn, hreach⟩ := hmarked ht
    exact ⟨n, by rw [walk_mark, hn], reach_mark.2 (.inl hreach)⟩

/-- One turn of the loop, through a child that is there or a new one. -/
theorem next (h : Planting a routes m s i) {p : Nat × Arena}
    (hp : p = match child a i sh with
      | some c => (c, a)
      | none => (a.length, Arena.sprout a i sh)) :
    Planting (edit p.2 p.1 (·.mark m)) routes m (s ++ [sh]) p.1 := by
  cases hchild : child a i sh with
  | some c =>
    rw [hchild] at hp
    subst hp
    exact mark_next h.toPlanted (by rw [walk_snoc_of h.here, hchild]) h.marked
  | none =>
    rw [hchild] at hp
    subst hp
    have hlt : i < a.length := h.closed.walk_lt h.here
    have hold : ∀ {t n}, walk a t 0 = some n → walk (Arena.sprout a i sh) t 0 = some n :=
      fun hw => (walk_sprout hlt hchild).2 (.inl hw)
    refine mark_next (h.toPlanted.sprout h.here hchild) ?_ ?_
    · exact (walk_sprout hlt hchild).2 (.inr ⟨rfl, s, h.here, rfl⟩)
    · intro t ht
      obtain ⟨n, hn, hreach⟩ := h.marked ht
      exact ⟨n, hold hn, by rw [reach_sprout]; exact hreach⟩

end Planting

/-- A node with a route put in. -/
def put (tail : Bool) (m : Method) (k : Nat) (n : Node) : Node :=
  if tail then { n with rest := Function.update n.rest m (some k) }
  else { n with ends := Function.update n.ends m (some k) }

theorem walk_put : walk (edit a i (put tail m k)) t j = walk a t j := by
  refine walk_edit (f := put tail m k) ?_ ?_
  · intro n
    unfold put
    split <;> rfl
  · intro n
    unfold put
    split <;> rfl

theorem child_put : child (edit a i (put tail m k)) j sh = child a j sh := by
  have h : walk (edit a i (put tail m k)) [sh] j = walk a [sh] j := walk_put
  simpa [walk] using h

theorem reach_put {m' : Method} :
    ((edit a i (put tail m k)).node n).reach m' = (a.node n).reach m' := by
  rw [node_edit]
  split
  · unfold put
    split <;> rfl
  · rfl

theorem slot_put (hi : i < a.length) {tail' : Bool} {m' : Method} :
    slot (edit a i (put tail m k)) n tail' m' =
      if i = n ∧ tail = tail' ∧ m = m' then some k else slot a n tail' m' := by
  unfold slot
  rw [node_edit]
  by_cases hin : i = n
  · subst hin
    by_cases hm : m = m'
    · subst hm
      cases tail <;> cases tail' <;> simp [put, hi]
    · have hm' : m' ≠ m := fun h => hm h.symm
      cases tail <;> cases tail' <;> simp [put, hi, hm, hm']
  · simp [hin]

theorem stands_snoc {r : Route α} : Stands (routes ++ [r]) m t tail k ↔
    Stands routes m t tail k ∨
      k = routes.length ∧ r.method = m ∧ r.shapes = t ∧ r.wildcardTail = tail := by
  unfold Stands
  rcases Nat.lt_trichotomy k routes.length with h | h | h
  · simp [List.getElem?_append_left h, Nat.ne_of_lt h]
  · subst h
    simp
  · have hnone : (routes ++ [r])[k]? = none := by
      rw [List.getElem?_eq_none_iff]
      simp
      omega
    simp [hnone, Nat.le_of_lt h, Nat.ne_of_gt h]

/-- The route put in at the node its shapes lead to. -/
theorem Planting.put {r : Route α} (h : Planting a routes r.method r.shapes i)
    (hfresh : ∀ k, ¬ Stands routes r.method r.shapes r.wildcardTail k) :
    Planted (edit a i (put r.wildcardTail r.method routes.length)) (routes ++ [r]) := by
  have hi : i < a.length := h.closed.walk_lt h.here
  refine ⟨⟨by rw [length_edit]; exact h.closed.1, ?_⟩, ?_, ?_, ?_⟩
  · intro j sh n hchild
    rw [child_put] at hchild
    rw [length_edit]
    exact h.closed.2 _ _ _ hchild
  · intro s t n hs ht
    rw [walk_put] at hs ht
    exact h.apart hs ht
  · intro t n tail m k ht
    rw [walk_put] at ht
    rw [slot_put hi, stands_snoc]
    split
    · rename_i heq
      obtain ⟨rfl, rfl, rfl⟩ := heq
      obtain rfl := h.apart h.here ht
      simp [hfresh, eq_comm]
    · rename_i hne
      rw [h.holds ht]
      refine ⟨.inl, ?_⟩
      rintro (hold | ⟨-, rfl, rfl, rfl⟩)
      · exact hold
      · have : i = n := Option.some.inj (h.here.symm.trans ht)
        exact absurd ⟨this, rfl, rfl⟩ hne
  · intro r' t hr' ht
    simp only [walk_put, reach_put]
    rcases List.mem_append.1 hr' with hr' | hr'
    · exact h.along hr' ht
    · obtain rfl := List.mem_singleton.1 hr'
      exact h.marked ht

/-- The loop of `plant`, over the segments left. -/
theorem plantFrom_planted {r : Route α} {star : Segment} (hstar : star.kind = .wildcard)
    (hfresh : ∀ k, ¬ Stands routes r.method r.shapes r.wildcardTail k) :
    ∀ {segs : List Segment} {s : List Shape} {i : Nat} {a : Arena},
    (∀ seg ∈ segs, seg.kind ≠ .wildcard) → r.shapes = s ++ segs.map Segment.shape →
    Planting a routes r.method s i →
    Planted (plantFrom r.method routes.length (segs ++ if r.wildcardTail then [star] else []) i a)
      (routes ++ [r])
  | [], s, i, a, _, hshapes, h => by
    rw [List.map_nil, List.append_nil] at hshapes
    rw [← hshapes] at h
    have hput := h.put hfresh
    cases ht : r.wildcardTail with
    | false =>
      rw [ht] at hput
      exact hput
    | true =>
      rw [ht] at hput
      simp only [if_true, List.nil_append, plantFrom, hstar]
      exact hput
  | seg :: segs, s, i, a, hkind, hshapes, h => by
    have hrest : ∀ seg' ∈ segs, seg'.kind ≠ .wildcard :=
      fun seg' hseg => hkind seg' (List.mem_cons_of_mem _ hseg)
    have hshapes' : r.shapes = (s ++ [seg.shape]) ++ segs.map Segment.shape := by
      rw [hshapes]
      simp
    simp only [List.cons_append, plantFrom]
    cases hk : seg.kind with
    | wildcard => exact absurd hk (hkind seg List.mem_cons_self)
    | literal =>
      have hsh : seg.shape = .literal seg.text := by simp [Segment.shape, hk]
      rw [hsh] at hshapes'
      exact plantFrom_planted hstar hfresh hrest hshapes' (h.next literalChild_eq)
    | param =>
      have hsh : seg.shape = .param := by simp [Segment.shape, hk]
      rw [hsh] at hshapes'
      exact plantFrom_planted hstar hfresh hrest hshapes' (h.next paramChild_eq)

/-- Planting a route of a method and shapes no other has. -/
theorem plant_planted {r : Route α} (hr : r.WellFormed) (h : Planted (rooted a) routes)
    (hfresh : ∀ k, ¬ Stands routes r.method r.shapes r.wildcardTail k) :
    Planted (plant a r.method r.segments routes.length) (routes ++ [r]) := by
  have hroot : Planting (edit (rooted a) 0 (·.mark r.method)) routes r.method [] 0 := by
    refine ⟨h.mark, rfl, ?_⟩
    intro t ht
    obtain rfl := List.prefix_nil.1 ht
    exact ⟨0, rfl, reach_mark.2 (.inr ⟨rfl, h.closed.1, rfl⟩)⟩
  unfold plant
  rw [hr.split]
  exact plantFrom_planted rfl hfresh hr.fixed_kind rfl hroot

/-! ## What the search finds in it -/

variable {parts : List Bytes} {deep : Bool}

/-- The route at an index is one the search is after: of this method, through the shapes
gone along so far, and fitting the pieces left. -/
def Open (routes : List (Route α)) (m : Method) (deep : Bool) (parts : List Bytes) (s : List Shape)
    (k : Nat) (t : List Shape) (tail : Bool) : Prop :=
  Stands routes m (s ++ t) tail k ∧ Fits t tail parts deep

/-- What the search gives: nothing when there is nothing to find, or the open route of the
least ranks. -/
def Best (routes : List (Route α)) (m : Method) (deep : Bool) (parts : List Bytes) (s : List Shape) :
    Option Nat → Prop
  | none => ∀ k t tail, ¬ Open routes m deep parts s k t tail
  | some k => ∃ t tail, Open routes m deep parts s k t tail ∧
      ∀ k' t' tail', Open routes m deep parts s k' t' tail' →
        UpTo (ranksOf t tail) (ranksOf t' tail')

theorem ranksOf_cons : ranksOf (sh :: t) tail = sh.rank :: ranksOf t tail := rfl

/-- An open route ends here, or its `*` stands here, or a segment leads on. -/
theorem open_cons {part : Bytes} :
    Open routes m deep (part :: parts) s k t tail ↔
      (t = [] ∧ tail = true ∧ Stands routes m s true k) ∨
      ∃ sh t', t = sh :: t' ∧ sh.fits part = true ∧ Open routes m deep parts (s ++ [sh]) k t' tail := by
  cases t with
  | nil =>
    simp only [Open, Fits, List.append_nil, true_and]
    constructor
    · rintro ⟨hs, rfl⟩
      exact .inl ⟨rfl, hs⟩
    · rintro (⟨rfl, hs⟩ | ⟨_, _, h, -⟩)
      · exact ⟨hs, rfl⟩
      · cases h
  | cons sh t =>
    simp only [Open, Fits, List.append_assoc, List.singleton_append]
    constructor
    · rintro ⟨hs, hfits, hrest⟩
      exact .inr ⟨sh, t, rfl, hfits, hs, hrest⟩
    · rintro (⟨h, -⟩ | ⟨sh', t', h, hfits, hs, hrest⟩)
      · cases h
      · cases h
        exact ⟨hs, hfits, hrest⟩

theorem open_nil : Open routes m deep [] s k t tail ↔
    t = [] ∧ (tail = true ∨ deep = false) ∧ Stands routes m s tail k := by
  cases t with
  | nil =>
    simp only [Open, Fits, List.append_nil, true_and]
    exact And.comm
  | cons sh t => simp [Open, Fits]

/-- The way on through a child finds the best of the routes that go that way: it is only
left untried when there is none. -/
theorem Planted.way (h : Planted a routes) (hw : walk a s 0 = some i)
    {f : Nat → Option Nat} (hf : ∀ c, walk a (s ++ [sh]) 0 = some c →
      Best routes m deep parts (s ++ [sh]) (f c)) :
    Best routes m deep parts (s ++ [sh]) ((wayOn a m (child a i sh)).bind f) := by
  have hchild : walk a (s ++ [sh]) 0 = child a i sh := walk_snoc_of hw
  cases hway : wayOn a m (child a i sh) with
  | some c =>
    refine hf c ?_
    rw [hchild]
    exact (Option.filter_eq_some_iff.1 hway).1
  | none =>
    rintro k t tail ⟨⟨r, hk, rfl, hshapes, -⟩, -⟩
    obtain ⟨n, hn, hreach⟩ := h.along (List.mem_of_getElem? hk) ⟨t, hshapes.symm⟩
    rw [hchild] at hn
    rw [hn] at hway
    simp [wayOn, hreach] at hway

theorem ranks_upTo_star {x : Nat} {l : List Nat} (hx : x ≤ 2) :
    UpTo (x :: l) (ranksOf [] true) := by
  refine upTo_cons.2 (.inl ?_)
  simp only [if_true]
  omega

theorem Planted.ends_iff (h : Planted a routes) (hw : walk a s 0 = some i) :
    (a.node i).ends m = some k ↔ Stands routes m s false k := by
  rw [← h.holds hw]
  rfl

theorem Planted.rest_iff (h : Planted a routes) (hw : walk a s 0 = some i) :
    (a.node i).rest m = some k ↔ Stands routes m s true k := by
  rw [← h.holds hw]
  rfl

/-- At the end of the pieces: a route that ends here before one whose `*` stands for
nothing. -/
theorem Planted.best_nil (h : Planted a routes) (hw : walk a s 0 = some i) :
    Best routes m deep [] s ((if deep then none else (a.node i).ends m) <|> (a.node i).rest m) := by
  cases he : (if deep then none else (a.node i).ends m) with
  | some k =>
    have hdeep : deep = false := by
      cases deep with
      | false => rfl
      | true => cases he
    subst hdeep
    refine ⟨[], false, open_nil.2 ⟨rfl, .inr rfl, (h.ends_iff hw).1 he⟩, ?_⟩
    intro k' t' tail' hopen
    obtain ⟨rfl, -, -⟩ := open_nil.1 hopen
    cases tail' with
    | false => exact UpTo.refl _
    | true => exact ranks_upTo_star (by simp)
  | none =>
    have hno : ∀ k, ¬ (deep = false ∧ Stands routes m s false k) := by
      rintro k ⟨rfl, hs⟩
      have hk := (h.ends_iff hw).2 hs
      simp only [Bool.false_eq_true, if_false] at he
      rw [hk] at he
      cases he
    have hopen : ∀ {k t tail}, Open routes m deep [] s k t tail →
        t = [] ∧ tail = true ∧ Stands routes m s true k := by
      intro k t tail hopen
      obtain ⟨ht, htail, hs⟩ := open_nil.1 hopen
      cases tail with
      | true => exact ⟨ht, rfl, hs⟩
      | false => exact absurd ⟨by simpa using htail, hs⟩ (hno k)
    cases hr : (a.node i).rest m with
    | some k =>
      refine ⟨[], true, open_nil.2 ⟨rfl, .inl rfl, (h.rest_iff hw).1 hr⟩, ?_⟩
      intro k' t' tail' ho
      obtain ⟨rfl, rfl, -⟩ := hopen ho
      exact UpTo.refl _
    | none =>
      intro k t tail ho
      obtain ⟨-, -, hs⟩ := hopen ho
      rw [← h.rest_iff hw, hr] at hs
      cases hs

/-- The three ways on from a node, the best of each taken in their order, give the best of
them all. -/
theorem Planted.best_cons (h : Planted a routes) (hw : walk a s 0 = some i) {part : Bytes}
    {lit par : Option Nat} (hlit : Best routes m deep parts (s ++ [.literal part]) lit)
    (hpar : part ≠ [] → Best routes m deep parts (s ++ [.param]) par)
    (hempty : part = [] → par = none) :
    Best routes m deep (part :: parts) s (lit <|> par <|> (a.node i).rest m) := by
  cases lit with
  | some k =>
    obtain ⟨t, tail, ho, hbest⟩ := hlit
    refine ⟨.literal part :: t, tail, open_cons.2 (.inr ⟨_, _, rfl, by simp [Shape.fits], ho⟩), ?_⟩
    intro k' t' tail' ho'
    rcases open_cons.1 ho' with ⟨rfl, rfl, -⟩ | ⟨sh, t', rfl, hfits, hon⟩
    · exact ranks_upTo_star (by simp [Shape.rank])
    · cases sh with
      | literal text =>
        obtain rfl : text = part := by simpa [Shape.fits] using hfits
        exact upTo_cons.2 (.inr ⟨rfl, hbest _ _ _ hon⟩)
      | param => exact upTo_cons.2 (.inl Nat.zero_lt_one)
  | none =>
    -- no route goes on through the literal, so only the parameter and the `*` are left
    have hopen : ∀ {k t tail}, Open routes m deep (part :: parts) s k t tail →
        (t = [] ∧ tail = true ∧ Stands routes m s true k) ∨
        ∃ t', t = .param :: t' ∧ part ≠ [] ∧ Open routes m deep parts (s ++ [.param]) k t' tail := by
      intro k t tail ho
      rcases open_cons.1 ho with hend | ⟨sh, t', rfl, hfits, ho'⟩
      · exact .inl hend
      · cases sh with
        | literal text =>
          obtain rfl : text = part := by simpa [Shape.fits] using hfits
          exact absurd ho' (hlit _ _ _)
        | param => exact .inr ⟨t', rfl, by simpa [Shape.fits] using hfits, ho'⟩
    cases par with
    | some k =>
      have hpart : part ≠ [] := fun hp => by cases hempty hp
      obtain ⟨t, tail, ho, hbest⟩ := hpar hpart
      refine ⟨.param :: t, tail,
        open_cons.2 (.inr ⟨_, _, rfl, by simpa [Shape.fits] using hpart, ho⟩), ?_⟩
      intro k' t' tail' ho'
      rcases hopen ho' with ⟨rfl, rfl, -⟩ | ⟨t', rfl, -, ho'⟩
      · exact ranks_upTo_star (by simp [Shape.rank])
      · exact upTo_cons.2 (.inr ⟨rfl, hbest _ _ _ ho'⟩)
    | none =>
      have hstar : ∀ {k t tail}, Open routes m deep (part :: parts) s k t tail →
          t = [] ∧ tail = true ∧ Stands routes m s true k := by
        intro k t tail ho
        rcases hopen ho with hend | ⟨t', rfl, hpart, ho'⟩
        · exact hend
        · exact absurd ho' (hpar hpart _ _ _)
      cases hr : (a.node i).rest m with
      | some k =>
        refine ⟨[], true, open_cons.2 (.inl ⟨rfl, rfl, (h.rest_iff hw).1 hr⟩), ?_⟩
        intro k' t' tail' ho
        obtain ⟨rfl, rfl, -⟩ := hstar ho
        exact UpTo.refl _
      | none =>
        intro k t tail ho
        obtain ⟨-, -, hs⟩ := hstar ho
        rw [← h.rest_iff hw, hr] at hs
        cases hs

/-- The search gives the best route there is. -/
theorem Planted.best_explore (h : Planted a routes) :
    ∀ {parts : List Bytes} {s : List Shape} {i : Nat}, walk a s 0 = some i →
    Best routes m deep parts s (explore a m deep parts i)
  | [], s, i, hw => h.best_nil hw
  | part :: parts, s, i, hw => by
    have hway : ∀ sh, Best routes m deep parts (s ++ [sh])
        ((wayOn a m (child a i sh)).bind (explore a m deep parts)) :=
      fun sh => h.way hw fun c hc => h.best_explore hc
    refine h.best_cons hw (hway (.literal part)) ?_ ?_
    · intro hpart
      rw [if_pos hpart]
      exact hway .param
    · intro hpart
      rw [if_neg (by simpa using hpart)]
      rfl

end Nilo.Routing.Arena
