import Nilo.Router.Pattern
import Mathlib.Data.List.Basic
import Mathlib.Logic.Function.Basic

/-!
# The tree of segments (`Node`, `plant`, `find` in `http/router.zig`)

Nodes lie in one list and name each other by their places in it. `plant` puts a route in
along its segments; `find` searches literal first, then parameter, then `*`, going back up
when a branch ends. The search of the source is a loop over two small arrays (which node and
which way on, for each level); `explore` is the same search as a recursion over the pieces
of the path, and `find_eq_explore` says the loop ends and finds what the recursion does.
-/

namespace Nilo.Routing

open Text (Bytes)

/-! ## Nodes -/

/-- Four bytes standing for a segment: its length, first, last and middle byte. -/
def firstKey (text : Bytes) : Nat :=
  match text with
  | [] => 0
  | head :: _ =>
    min text.length 0xff * 2 ^ 24 + head.toNat * 2 ^ 16 + (text.getLastD 0).toNat * 2 ^ 8 +
      (text.getD (text.length / 2) 0).toNat

/-- One place in the tree. -/
structure Node where
  /-- The children literal segments lead to: key, text and place of each. -/
  literals : List (Nat × Bytes × Nat) := []
  /-- The child any one segment that is not empty leads to. -/
  param : Option Nat := none
  /-- The route of each method that ends here. -/
  ends : Method → Option Nat := fun _ => none
  /-- The route of each method whose `*` stands here. -/
  rest : Method → Option Nat := fun _ => none
  /-- The methods some route at or below this node answers. -/
  reach : Method → Bool := fun _ => false

namespace Node

/-- The child a literal segment leads to: keys are compared before texts. -/
def literal (n : Node) (text : Bytes) : Option Nat :=
  (n.literals.find? fun e => e.1 = firstKey text && e.2.1 = text).map (·.2.2)

def mark (n : Node) (m : Method) : Node := { n with reach := Function.update n.reach m true }

end Node

/-- The nodes, by their places. -/
abbrev Arena := List Node

namespace Arena

def node (a : Arena) (i : Nat) : Node := a.getD i {}

/-- Change the node at a place. -/
def edit (a : Arena) (i : Nat) (f : Node → Node) : Arena := a.modify i f

/-- `literalChild`. -/
def literalChild (a : Arena) (i : Nat) (text : Bytes) : Nat × Arena :=
  match (a.node i).literal text with
  | some child => (child, a)
  | none =>
    let child := a.length
    (child, edit (a ++ [{}]) i fun n =>
      { n with literals := n.literals ++ [(firstKey text, text, child)] })

/-- `paramChild`. -/
def paramChild (a : Arena) (i : Nat) : Nat × Arena :=
  match (a.node i).param with
  | some child => (child, a)
  | none =>
    let child := a.length
    (child, edit (a ++ [{}]) i fun n => { n with param := some child })

/-! ## Planting a route -/

/-- The loop of `plant`: the segments left, from the node at `i`. -/
def plantFrom (m : Method) (index : Nat) : List Segment → Nat → Arena → Arena
  | [], i, a => edit a i fun n => { n with ends := Function.update n.ends m (some index) }
  | seg :: segs, i, a =>
    match seg.kind with
    | .literal =>
      let (child, a) := a.literalChild i seg.text
      plantFrom m index segs child (edit a child (·.mark m))
    | .param =>
      let (child, a) := a.paramChild i
      plantFrom m index segs child (edit a child (·.mark m))
    | .wildcard => edit a i fun n => { n with rest := Function.update n.rest m (some index) }

/-- The tree with a root: the first route to be planted puts one in. -/
def rooted (a : Arena) : Arena := if a.isEmpty then [{}] else a

def plant (a : Arena) (m : Method) (segs : List Segment) (index : Nat) : Arena :=
  plantFrom m index segs 0 (edit (rooted a) 0 (·.mark m))

/-! ## The search -/

/-- Where the search goes from one turn of its loop. -/
inductive Walk where
  | found (index : Nat)
  | nothing
  /-- The levels, deepest first: the node of each, and which way on it tries next. -/
  | go (levels : List (Nat × Nat))
deriving DecidableEq, Repr

/-- Back to the level above, if there is one. -/
def back : List (Nat × Nat) → Walk
  | [] => .nothing
  | below => .go below

/-- A way on that holds a route of this method. -/
def wayOn (a : Arena) (m : Method) (child : Option Nat) : Option Nat :=
  child.filter fun c => (a.node c).reach m

/-- The third way on: a `*` standing here. -/
def tryRest (a : Arena) (m : Method) (i : Nat) (below : List (Nat × Nat)) : Walk :=
  match (a.node i).rest m with
  | some index => .found index
  | none => back below

/-- The second: the parameter, which an empty piece does not fill. -/
def tryParam (a : Arena) (m : Method) (part : Bytes) (i : Nat) (below : List (Nat × Nat)) : Walk :=
  match if part ≠ [] then wayOn a m (a.node i).param else none with
  | some child => .go ((child, 0) :: (i, 2) :: below)
  | none => tryRest a m i below

/-- The first: the literal this piece names. -/
def tryLiteral (a : Arena) (m : Method) (part : Bytes) (i : Nat) (below : List (Nat × Nat)) :
    Walk :=
  match wayOn a m ((a.node i).literal part) with
  | some child => .go ((child, 0) :: (i, 1) :: below)
  | none => tryParam a m part i below

/-- One turn of the loop of `find`. -/
def findStep (a : Arena) (m : Method) (parts : List Bytes) (deep : Bool) :
    List (Nat × Nat) → Walk
  | [] => .nothing
  | (i, next) :: below =>
    match parts[below.length]? with
    | none =>
      match if deep then none else (a.node i).ends m with
      | some index => .found index
      | none => tryRest a m i below
    | some part =>
      match next with
      | 0 => tryLiteral a m part i below
      | 1 => tryParam a m part i below
      | 2 => tryRest a m i below
      | _ => back below

/-- The loop, for so many turns. -/
def findLoop (a : Arena) (m : Method) (parts : List Bytes) (deep : Bool) :
    Nat → List (Nat × Nat) → Option (Option Nat)
  | 0, _ => none
  | turns + 1, levels =>
    match findStep a m parts deep levels with
    | .found index => some (some index)
    | .nothing => some none
    | .go levels => findLoop a m parts deep turns levels

/-- A bound on the turns the loop takes. -/
def turns (parts : List Bytes) : Nat := 2 ^ (parts.length + 2)

def find (a : Arena) (m : Method) (parts : List Bytes) (deep : Bool) : Option Nat :=
  if a.isEmpty then none else (findLoop a m parts deep (turns parts) [(0, 0)]).getD none

/-! ## The search as a recursion -/

/-- What the search finds from a node, over the pieces left. -/
def explore (a : Arena) (m : Method) (deep : Bool) : List Bytes → Nat → Option Nat
  | [], i => (if deep then none else (a.node i).ends m) <|> (a.node i).rest m
  | part :: parts, i =>
    (wayOn a m ((a.node i).literal part)).bind (explore a m deep parts) <|>
      (if part ≠ [] then wayOn a m (a.node i).param else none).bind (explore a m deep parts) <|>
        (a.node i).rest m

section
variable {a : Arena} {m : Method} {parts : List Bytes} {deep : Bool} {i t : Nat}
  {below : List (Nat × Nat)} {r : Option Nat}

/-- What the loop gives with `k` turns to go once a level has found what it can: that, or
what the levels above find. -/
def settled (a : Arena) (m : Method) (parts : List Bytes) (deep : Bool) (r : Option Nat) (k : Nat) :
    List (Nat × Nat) → Option (Option Nat)
  | [] => some r
  | below => match r with
    | some index => some (some index)
    | none => findLoop a m parts deep k below

/-- From these levels the loop takes `t` turns to settle what the top one finds. -/
def Settles (a : Arena) (m : Method) (parts : List Bytes) (deep : Bool) (top : Nat × Nat)
    (below : List (Nat × Nat)) (r : Option Nat) (t : Nat) : Prop :=
  ∀ k, findLoop a m parts deep (t + k) (top :: below) = settled a m parts deep r k below

/-- A turn that ends at the `*` of its node. -/
theorem settles_rest {top : Nat × Nat}
    (h : findStep a m parts deep (top :: below) = tryRest a m i below) :
    Settles a m parts deep top below ((a.node i).rest m) 1 := by
  intro k
  rw [Nat.add_comm, findLoop, h, tryRest]
  cases hr : (a.node i).rest m with
  | some index => cases below <;> rfl
  | none => cases below <;> rfl

/-- A turn that goes down to a child comes back to its own level, if at all. -/
theorem settles_down {top : Nat × Nat} {child next t' : Nat} {r r' : Option Nat}
    (h : findStep a m parts deep (top :: below) = .go ((child, 0) :: (i, next) :: below))
    (hdown : Settles a m parts deep (child, 0) ((i, next) :: below) r t)
    (hthen : Settles a m parts deep (i, next) below r' t') :
    Settles a m parts deep top below (r <|> r') (1 + t + t') := by
  intro k
  rw [show 1 + t + t' + k = t + (t' + k) + 1 by omega, findLoop, h]
  refine (hdown (t' + k)).trans ?_
  cases r with
  | some index => cases below <;> rfl
  | none => exact hthen k

theorem four_le_two_pow (n : Nat) : 4 ≤ 2 ^ (n + 2) := by
  have := Nat.one_le_two_pow (n := n)
  rw [Nat.pow_add]
  omega

/-- The piece at the depth of a level. -/
theorem part_at {part : Bytes} {rest : List Bytes}
    (h : parts.drop below.length = part :: rest) : parts[below.length]? = some part := by
  rw [← List.head?_drop, h]
  rfl

/-- A node's second and third ways on, from any turn that tries the second. -/
theorem settles_param {top : Nat × Nat} {part : Bytes} {rest : List Bytes}
    (hpart : parts.drop below.length = part :: rest)
    (h : findStep a m parts deep (top :: below) = tryParam a m part i below)
    (ih : ∀ child next, ∃ t ≤ 2 ^ (rest.length + 2) - 3,
      Settles a m parts deep (child, 0) ((i, next) :: below) (explore a m deep rest child) t) :
    ∃ t ≤ 2 ^ (rest.length + 2) - 1, Settles a m parts deep top below
      ((if part ≠ [] then wayOn a m (a.node i).param else none).bind (explore a m deep rest) <|>
        (a.node i).rest m) t := by
  have hrest : Settles a m parts deep (i, 2) below ((a.node i).rest m) 1 := by
    apply settles_rest
    simp only [findStep, part_at hpart]
  have hfour := four_le_two_pow rest.length
  unfold tryParam at h
  cases hway : (if part ≠ [] then wayOn a m (a.node i).param else none) with
  | none =>
    rw [hway] at h
    exact ⟨1, by omega, by simpa using settles_rest h⟩
  | some child =>
    rw [hway] at h
    obtain ⟨t, ht, hdown⟩ := ih child 2
    exact ⟨1 + t + 1, by omega, settles_down h hdown hrest⟩

/-- From a level just reached the loop settles what the recursion finds there. -/
theorem settles_explore : ∀ (rest : List Bytes) (i : Nat) (below : List (Nat × Nat)),
    parts.drop below.length = rest → ∃ t ≤ 2 ^ (rest.length + 2) - 3,
      Settles a m parts deep (i, 0) below (explore a m deep rest i) t
  | [], i, below, hdrop => by
    have hnone : parts[below.length]? = none := by
      rw [List.getElem?_eq_none_iff]
      exact List.drop_eq_nil_iff.1 hdrop
    refine ⟨1, by simp, ?_⟩
    unfold explore
    cases hends : (if deep then none else (a.node i).ends m) with
    | none =>
      have hstep : findStep a m parts deep ((i, 0) :: below) = tryRest a m i below := by
        simp only [findStep, hnone, hends]
      simpa using settles_rest hstep
    | some index =>
      intro k
      rw [Nat.add_comm, findLoop]
      simp only [findStep, hnone, hends]
      cases below <;> rfl
  | part :: rest, i, below, hdrop => by
    have hnext : ∀ level : Nat × Nat, parts.drop (level :: below).length = rest := by
      intro level
      rw [List.length_cons, ← List.drop_drop, hdrop]
      rfl
    have ih : ∀ child next, ∃ t ≤ 2 ^ (rest.length + 2) - 3,
        Settles a m parts deep (child, 0) ((i, next) :: below) (explore a m deep rest child) t :=
      fun child next => settles_explore rest child ((i, next) :: below) (hnext _)
    have hpow : 2 ^ ((part :: rest).length + 2) = 2 * 2 ^ (rest.length + 2) := by
      rw [List.length_cons, show rest.length + 1 + 2 = rest.length + 2 + 1 by omega, Nat.pow_succ']
    have hfour := four_le_two_pow rest.length
    unfold explore
    cases hway : wayOn a m ((a.node i).literal part) with
    | none =>
      have hstep : findStep a m parts deep ((i, 0) :: below) = tryParam a m part i below := by
        simp only [findStep, part_at hdrop, tryLiteral, hway]
      obtain ⟨t, ht, hparam⟩ := settles_param hdrop hstep ih
      exact ⟨t, by omega, by simpa using hparam⟩
    | some child =>
      have hstep : findStep a m parts deep ((i, 0) :: below) =
          .go ((child, 0) :: (i, 1) :: below) := by
        simp only [findStep, part_at hdrop, tryLiteral, hway]
      have hagain : findStep a m parts deep ((i, 1) :: below) = tryParam a m part i below := by
        simp only [findStep, part_at hdrop]
      obtain ⟨t, ht, hdown⟩ := ih child 1
      obtain ⟨t', ht', hthen⟩ := settles_param hdrop hagain ih
      exact ⟨1 + t + t', by omega, settles_down hstep hdown hthen⟩

/-- An empty tree has nothing to find. -/
theorem explore_root : explore [{}] m deep parts 0 = none := by
  cases parts <;> simp [explore, node, wayOn, Node.literal]

/-- The loop ends, and finds what the recursion finds from the root. -/
theorem find_eq_explore : find a m parts deep = explore (rooted a) m deep parts 0 := by
  by_cases ha : a = []
  · subst ha
    exact explore_root.symm
  obtain ⟨t, ht, hsettles⟩ : ∃ t ≤ 2 ^ (parts.length + 2) - 3,
      Settles a m parts deep (0, 0) [] (explore a m deep parts 0) t := settles_explore parts 0 [] rfl
  have hroot : rooted a = a := if_neg (by simpa using ha)
  have hloop := hsettles (turns parts - t)
  have hturns : t + (turns parts - t) = turns parts :=
    Nat.add_sub_of_le (le_trans ht (Nat.sub_le _ _))
  rw [hturns] at hloop
  rw [find, if_neg (by simpa using ha), hloop, hroot]
  rfl

end

end Arena
end Nilo.Routing
