import Nilo.Std.Text

/-!
# Route patterns (`Segment`, `Route`, `split`, `splitPath` in `http/router.zig`)

A pattern is split at its slashes once, when it is registered; a request path is split into
at most `maxSegments` pieces, with a flag for one that has more. `answers` is the code's own
question whether a route answers a split path; `Route.Answers` is the same question of a
whole path of any number of segments, as the pattern reads. `ranks` is what patterns are
compared by, segment by segment: a literal before a parameter before a `*`, and a route that
ends before a `*` that stands for nothing.
-/

namespace Nilo.Routing

open Text (Bytes)

/-- `http1.Method`. -/
inductive Method where
  | get | head | post | put | delete | patch | options | other
deriving DecidableEq, Repr

def maxParams : Nat := 8

def maxSegments : Nat := 16

def slash : UInt8 := 47

/-! ## Splitting -/

/-- A trailing slash is not a different route. -/
def trimSlashes (path : Bytes) : Bytes :=
  let s := if path.head? = some slash then path.tail else path
  if s.getLast? = some slash then s.dropLast else s

/-- The pieces between the slashes (`std.mem.splitScalar`). -/
def pieces (trimmed : Bytes) : List Bytes := trimmed.splitOn slash

/-- A request path split into at most `maxSegments` pieces. `deep` says there were more. -/
structure SplitPath where
  items : List Bytes
  deep : Bool
deriving DecidableEq, Repr

/-- The loop of `splitPath`, over the pieces left and those held. -/
def splitFrom : List Bytes → List Bytes → SplitPath
  | [], out => ⟨out, false⟩
  | part :: rest, out =>
    if out.length = maxSegments then ⟨out, true⟩ else splitFrom rest (out ++ [part])

def splitPath (trimmed : Bytes) : SplitPath := splitFrom (pieces trimmed) []

theorem splitFrom_eq : ∀ {l out : List Bytes}, out.length ≤ maxSegments →
    splitFrom l out = ⟨(out ++ l).take maxSegments, decide (maxSegments < (out ++ l).length)⟩
  | [], out, h => by
    simp [splitFrom, List.take_of_length_le h, h]
  | part :: rest, out, h => by
    unfold splitFrom
    split
    · rename_i hlen
      have : maxSegments < (out ++ part :: rest).length := by simp; omega
      rw [decide_eq_true this, ← hlen, List.take_left']
      rfl
    · rw [splitFrom_eq (by simp; omega)]
      simp

theorem splitPath_eq (trimmed : Bytes) : splitPath trimmed =
    ⟨(pieces trimmed).take maxSegments, decide (maxSegments < (pieces trimmed).length)⟩ := by
  rw [splitPath, splitFrom_eq (Nat.zero_le _), List.nil_append]

/-! ## Segments and routes -/

inductive SegmentKind where
  | literal
  | param
  | wildcard
deriving DecidableEq, Repr

/-- One piece of a pattern between slashes. -/
structure Segment where
  text : Bytes
  kind : SegmentKind
deriving DecidableEq, Repr

/-- The name a `*` is captured under. -/
def wildcard : Bytes := [42]

/-- What one piece of a pattern is. -/
def Segment.of (part : Bytes) : Segment :=
  if part = wildcard then ⟨wildcard, .wildcard⟩
  else if part.head? = some 58 then ⟨part.tail, .param⟩
  else ⟨part, .literal⟩

/-- What a segment asks of a path, whatever a parameter is called. -/
inductive Shape where
  | literal (text : Bytes)
  | param
deriving DecidableEq, Repr

def Shape.fits : Shape → Bytes → Bool
  | .literal text, part => text = part
  | .param, part => part ≠ []

def Segment.shape (s : Segment) : Shape :=
  match s.kind with
  | .literal | .wildcard => .literal s.text
  | .param => .param

/-- A registered route. -/
structure Route (α : Type) where
  method : Method
  /-- Which listeners answer, one bit each. -/
  listeners : Nat
  pattern : Bytes
  handler : α
  segments : List Segment
  /-- The last segment is a `*`. -/
  wildcardTail : Bool

namespace Route

variable {α : Type}

/-- Every segment but a trailing `*`. -/
def fixedSegments (r : Route α) : List Segment :=
  if r.wildcardTail then r.segments.dropLast else r.segments

/-- What the fixed segments ask for. -/
def shapes (r : Route α) : List Shape := r.fixedSegments.map Segment.shape

end Route

/-- Two patterns answer exactly the same paths. -/
def sameShape : List Segment → List Segment → Bool
  | [], [] => true
  | x :: a, y :: b =>
    decide (x.kind = y.kind) && (decide (x.kind ≠ .literal) || decide (x.text = y.text)) &&
      sameShape a b
  | _, _ => false

/-! ## Which paths a route answers -/

namespace Route

variable {α : Type}

/-- The segments line up with the pieces, one each: the loop of `matches`. -/
def lineUp : List Segment → List Bytes → Bool
  | [], _ => true
  | seg :: segs, part :: parts =>
    (if seg.kind = .param then decide (part ≠ []) else decide (seg.text = part)) &&
      lineUp segs parts
  | _ :: _, [] => false

def matchesPath (r : Route α) (parts : List Bytes) : Bool := lineUp r.fixedSegments parts

/-- Whether the route answers a split path, method aside. -/
def answers (r : Route α) (parts : List Bytes) (deep : Bool) : Bool :=
  if deep then r.wildcardTail && r.matchesPath parts
  else if r.wildcardTail then
    if parts.length + 1 < r.segments.length then false else r.matchesPath parts
  else if r.segments.length ≠ parts.length then false
  else r.matchesPath parts

end Route

/-- The shapes take the pieces one by one, and a `*` after them whatever is left: the last
piece, or `more` than the pieces hold. -/
def Fits : List Shape → (tail : Bool) → List Bytes → (more : Bool) → Prop
  | [], tail, [], more => tail = true ∨ more = false
  | [], tail, _ :: _, _ => tail = true
  | sh :: t, tail, part :: parts, more => sh.fits part = true ∧ Fits t tail parts more
  | _ :: _, _, [], _ => False

section
variable {sh : Shape} {t : List Shape} {tail more : Bool} {part : Bytes} {parts : List Bytes}

@[simp] theorem fits_nil_nil : Fits [] tail [] more ↔ tail = true ∨ more = false := Iff.rfl

@[simp] theorem fits_nil_cons : Fits [] tail (part :: parts) more ↔ tail = true := Iff.rfl

@[simp] theorem fits_cons_cons :
    Fits (sh :: t) tail (part :: parts) more ↔ sh.fits part = true ∧ Fits t tail parts more := Iff.rfl

@[simp] theorem not_fits_cons_nil : ¬ Fits (sh :: t) tail [] more := id

end

/-- The route answers a path of these segments, however many. -/
def Route.Answers {α : Type} (r : Route α) (path : List Bytes) : Prop :=
  Fits r.shapes r.wildcardTail path false

/-- What a segment counts for when patterns are compared. -/
def Shape.rank : Shape → Nat
  | .literal _ => 0
  | .param => 1

/-- The ranks of a pattern, segment by segment: a literal, a parameter, the end, a `*`. -/
def ranksOf (shapes : List Shape) (tail : Bool) : List Nat :=
  shapes.map Shape.rank ++ [if tail then 3 else 2]

def Route.ranks {α : Type} (r : Route α) : List Nat := ranksOf r.shapes r.wildcardTail

/-- The first of two patterns, by the first segment they differ in. -/
def Before (l l' : List Nat) : Prop := List.Lex (· < ·) l l'

/-- The first of two patterns, or one of two that rank alike. -/
def UpTo (l l' : List Nat) : Prop := ¬ Before l' l

theorem UpTo.refl (l : List Nat) : UpTo l l := List.lex_irrefl Nat.lt_irrefl l

theorem upTo_cons {x y : Nat} {l l' : List Nat} :
    UpTo (x :: l) (y :: l') ↔ x < y ∨ x = y ∧ UpTo l l' := by
  unfold UpTo Before
  rw [List.cons_lex_cons_iff]
  constructor
  · intro h
    rcases Nat.lt_trichotomy x y with hlt | heq | hgt
    · exact .inl hlt
    · exact .inr ⟨heq, fun hl => h (.inr ⟨heq.symm, hl⟩)⟩
    · exact absurd (.inl hgt) h
  · rintro (hlt | ⟨rfl, hl⟩) (hgt | ⟨heq, hl'⟩)
    · omega
    · omega
    · omega
    · exact hl hl'

theorem UpTo.antisymm : ∀ {l l' : List Nat}, UpTo l l' → UpTo l' l → l = l'
  | [], [], _, _ => rfl
  | [], _ :: _, _, h => absurd .nil h
  | _ :: _, [], h, _ => absurd .nil h
  | x :: l, y :: l', h, h' => by
    rcases upTo_cons.1 h with hlt | ⟨rfl, hl⟩
    · rcases upTo_cons.1 h' with hgt | ⟨heq, -⟩ <;> omega
    · rcases upTo_cons.1 h' with hgt | ⟨-, hl'⟩
      · omega
      · rw [UpTo.antisymm hl hl']

theorem Before.upTo {l l' : List Nat} (h : Before l l') : UpTo l l' := by
  intro h'
  exact List.lex_asymm (fun hxy hyx => Nat.lt_asymm hxy hyx) h h'

/-- The parameters a route is to be handed: the segments at the places of its parameters,
and the rest of the path for a `*`. -/
def Route.params {α : Type} (r : Route α) (path : List Bytes) : List (Bytes × Bytes) :=
  ((r.fixedSegments.zip path).filter (·.1.kind = .param)).map (fun p => (p.1.text, p.2)) ++
    if r.wildcardTail then [(wildcard, [slash].intercalate (path.drop r.fixedSegments.length))]
    else []

section
variable {α : Type} {r : Route α} {t : List Shape} {tail : Bool} {path parts : List Bytes}

/-- A path cut at the deepest a pattern can reach asks the same of it. -/
theorem fits_take : ∀ {t : List Shape} {path : List Bytes} {n : Nat},
    t.length + tail.toNat ≤ n →
    (Fits t tail (path.take n) (decide (n < path.length)) ↔ Fits t tail path false)
  | [], [], n, h => by simp
  | [], part :: path, 0, h => by
    cases tail with
    | false => simp
    | true => simp at h
  | [], part :: path, n + 1, h => by simp
  | sh :: t, [], n, h => by simp
  | sh :: t, part :: path, 0, h => by simp at h
  | sh :: t, part :: path, n + 1, h => by
    have ih : Fits t tail (path.take n) (decide (n < path.length)) ↔ Fits t tail path false :=
      fits_take (by simp at h; omega)
    simp only [List.take_succ_cons, fits_cons_cons, List.length_cons, Nat.add_lt_add_iff_right, ih]

theorem lineUp_iff : ∀ {segs : List Segment} {parts : List Bytes},
    (∀ s ∈ segs, s.kind ≠ .wildcard) →
    (Route.lineUp segs parts = true ↔ Fits (segs.map Segment.shape) true parts false)
  | [], parts, _ => by cases parts <;> simp [Route.lineUp]
  | seg :: segs, [], _ => by simp [Route.lineUp]
  | seg :: segs, part :: parts, h => by
    have ih : Route.lineUp segs parts = true ↔ Fits (segs.map Segment.shape) true parts false :=
      lineUp_iff fun s hs => h s (List.mem_cons_of_mem _ hs)
    have hk := h seg List.mem_cons_self
    simp only [Route.lineUp, Bool.and_eq_true, ih, List.map_cons, fits_cons_cons]
    refine and_congr_left' ?_
    unfold Segment.shape
    cases hkind : seg.kind with
    | literal => simp [Shape.fits]
    | param => simp [Shape.fits]
    | wildcard => exact absurd hkind hk

/-- A `*` does not ask how much is left. -/
theorem fits_tail : ∀ {t : List Shape} {parts : List Bytes} {more : Bool},
    Fits t true parts more ↔ Fits t true parts false
  | [], [], _ => by simp
  | [], _ :: _, _ => Iff.rfl
  | _ :: _, [], _ => Iff.rfl
  | _ :: _, _ :: _, _ => and_congr_right' fits_tail

/-- Without one there has to be a piece for each segment and no more. -/
theorem fits_fixed : ∀ {t : List Shape} {parts : List Bytes} {more : Bool},
    Fits t false parts more ↔ more = false ∧ t.length = parts.length ∧ Fits t true parts false
  | [], [], _ => by simp
  | [], _ :: _, _ => by simp
  | _ :: _, [], _ => by simp
  | sh :: t, part :: parts, more => by
    have ih : Fits t false parts more ↔ more = false ∧ t.length = parts.length ∧ Fits t true parts false :=
      fits_fixed
    rw [fits_cons_cons, fits_cons_cons, ih, List.length_cons, List.length_cons, Nat.add_right_cancel_iff]
    tauto

theorem fits_length : ∀ {t : List Shape} {parts : List Bytes} {more : Bool},
    Fits t tail parts more → t.length ≤ parts.length
  | [], _, _, _ => Nat.zero_le _
  | _ :: _, [], _, h => h.elim
  | _ :: _, _ :: _, _, h => Nat.succ_le_succ (fits_length h.2)

end

/-! ## Patterns a router accepts -/

/-- What `validatePattern` and the checks of `addNamed` leave: no more segments and captures
than there is room for, and a `*` only at the end. -/
def accepted (segments : List Segment) : Bool :=
  decide (segments.length ≤ maxSegments) &&
    decide (segments.countP (·.kind ≠ .literal) ≤ maxParams) &&
      segments.dropLast.all (·.kind ≠ .wildcard)

/-- The last segment is a `*`. -/
def endsInWildcard (segments : List Segment) : Bool :=
  match segments.getLast? with
  | some s => s.kind = .wildcard
  | none => false

/-- A route as `addNamed` makes it of an accepted pattern. -/
structure Route.WellFormed {α : Type} (r : Route α) : Prop where
  accepted : accepted r.segments = true
  tail : r.wildcardTail = endsInWildcard r.segments

namespace Route.WellFormed

variable {α : Type} {r : Route α} {parts path : List Bytes} {deep : Bool}

/-- The segments are the fixed ones, and the `*`. -/
theorem split (h : r.WellFormed) : r.segments = r.fixedSegments ++
    if r.wildcardTail then [⟨(r.segments.getLast?.map (·.text)).getD [], .wildcard⟩] else [] := by
  unfold fixedSegments
  cases ht : r.wildcardTail with
  | false => simp
  | true =>
    have hends := h.tail
    rw [ht, endsInWildcard] at hends
    cases hl : r.segments.getLast? with
    | none =>
      rw [hl] at hends
      cases hends
    | some s =>
      rw [hl] at hends
      have hk : s.kind = .wildcard := by simpa using hends.symm
      have hs : (⟨s.text, .wildcard⟩ : Segment) = s := by rw [← hk]
      obtain ⟨l, hl'⟩ := List.getLast?_eq_some_iff.1 hl
      simp [hl', hs]

theorem fixed_kind (h : r.WellFormed) : ∀ s ∈ r.fixedSegments, s.kind ≠ .wildcard := by
  have hdrop : ∀ s ∈ r.segments.dropLast, s.kind ≠ .wildcard := by
    have := h.accepted
    simp only [Nilo.Routing.accepted, Bool.and_eq_true, List.all_eq_true, decide_eq_true_eq] at this
    exact this.2
  intro s hs
  unfold fixedSegments at hs
  split at hs
  · exact hdrop s hs
  · rename_i ht
    have hends := h.tail
    rw [Bool.eq_false_iff.2 ht, endsInWildcard] at hends
    rcases List.eq_nil_or_concat r.segments with hnil | ⟨l, x, hl⟩
    · rw [hnil] at hs
      cases hs
    · rw [hl] at hs hends
      rw [List.concat_eq_append] at hs hends
      rcases List.mem_append.1 hs with hs | hs
      · exact hdrop s (by rw [hl]; simpa using hs)
      · obtain rfl := List.mem_singleton.1 hs
        simpa using hends.symm

theorem length_fixed (h : r.WellFormed) :
    r.shapes.length + r.wildcardTail.toNat = r.segments.length := by
  conv_rhs => rw [h.split]
  unfold Route.shapes
  cases r.wildcardTail <;> simp

theorem length_le (h : r.WellFormed) : r.shapes.length + r.wildcardTail.toNat ≤ maxSegments := by
  rw [h.length_fixed]
  have := h.accepted
  simp only [Nilo.Routing.accepted, Bool.and_eq_true, decide_eq_true_eq] at this
  exact this.1.1

/-- The code's question of a split path is the pattern's of the whole one. -/
theorem answers_iff (h : r.WellFormed) : r.answers parts deep = true ↔
    Fits r.shapes r.wildcardTail parts deep := by
  have hline : r.matchesPath parts = true ↔ Fits r.shapes true parts false :=
    lineUp_iff h.fixed_kind
  have hlen := h.length_fixed
  unfold answers
  cases ht : r.wildcardTail with
  | false =>
    rw [ht] at hlen
    simp only [Bool.toNat_false, Nat.add_zero] at hlen
    rw [fits_fixed]
    cases deep with
    | true => simp
    | false =>
      by_cases hl : r.segments.length = parts.length
      · simp [hl, hlen, hline]
      · simp [hl, hlen]
  | true =>
    rw [ht] at hlen
    simp only [Bool.toNat_true] at hlen
    rw [fits_tail]
    cases deep with
    | true => simp [hline]
    | false =>
      by_cases hl : parts.length + 1 < r.segments.length
      · have hno : ¬ Fits r.shapes true parts false := by
          intro hf
          have := fits_length hf
          omega
        simp [hl, hno]
      · simp [hl, hline]

/-- And so is the question of a request path, split as it is. -/
theorem fits_splitPath (h : r.WellFormed) {trimmed : Bytes} :
    Fits r.shapes r.wildcardTail (splitPath trimmed).items (splitPath trimmed).deep ↔
      r.Answers (pieces trimmed) := by
  rw [splitPath_eq]
  exact fits_take h.length_le

end Route.WellFormed

end Nilo.Routing
