import Nilo.Router.Match

/-!
# What a pattern may be (`validatePattern` in `http/router.zig`)

The checks made of a pattern while compiling. What they leave is accepted when the route is
registered (`accepted_of_validatePattern`), and each of its segments is a name behind a colon, a text
without one, or the `*` at the end (`Sound`).
-/

namespace Nilo.Routing

open Text (Bytes)

def colon : UInt8 := 58

/-- A walk over the segments of a pattern, with the names taken and whether there was a `*`. -/
def validateFrom : List Bytes → List Bytes → Bool → Option (List Bytes)
  | [], names, _ => some names
  | seg :: rest, names, wildcardSeen =>
    if wildcardSeen then none
    else if seg = wildcard then validateFrom rest (names ++ [wildcard]) true
    else if seg.contains 42 then none
    else if seg.contains 123 || seg.contains 125 then none
    else if seg.head? = some colon then
      if seg.length = 1 then none
      else if names.contains seg.tail then none
      else validateFrom rest (names ++ [seg.tail]) false
    else if seg.contains colon then none
    else validateFrom rest names false

def validatePattern (pattern : Bytes) : Bool :=
  pattern.head? = some slash &&
    match validateFrom (pieces (trimSlashes pattern)) [] false with
    | none => false
    | some names =>
      (pieces (trimSlashes pattern)).length ≤ maxSegments && names.length ≤ maxParams

/-- A segment that is not a `*`: a name, or a text that no name is looked for in. -/
def Sound (seg : Bytes) : Prop :=
  (∃ name, name ≠ [] ∧ seg = colon :: name ∧ 42 ∉ name) ∨ colon ∉ seg ∧ 42 ∉ seg

/-- What the walk leaves of a pattern. -/
structure Left (segs names out : List Bytes) (wildcardSeen : Bool) : Prop where
  sound : ∀ seg ∈ segs, seg = wildcard ∨ Sound seg
  last : wildcardSeen = true → segs = []
  inner : (segs.map Segment.of).dropLast.all (·.kind ≠ .wildcard) = true
  count : out.length = names.length + (segs.map Segment.of).countP (·.kind ≠ .literal)

variable {segs names out : List Bytes} {seg pattern : Bytes} {wildcardSeen : Bool}

theorem Sound.not_wildcard (h : Sound seg) : 42 ∉ seg := by
  rcases h with ⟨name, -, rfl, hname⟩ | ⟨-, h⟩
  · exact List.not_mem_cons_of_ne_of_not_mem (by decide) hname
  · exact h

theorem Sound.kind (h : Sound seg) : (Segment.of seg).kind ≠ .wildcard := by
  have hne : seg ≠ wildcard := by
    rintro rfl
    exact h.not_wildcard (List.mem_singleton.mpr rfl)
  rw [Segment.of, if_neg hne]
  split_ifs
  · exact SegmentKind.noConfusion
  · exact SegmentKind.noConfusion

theorem of_name {name : Bytes} : Segment.of (colon :: name) = ⟨name, .param⟩ := by
  have hne : colon :: name ≠ wildcard := by
    intro h
    exact absurd (List.head_eq_of_cons_eq h) (by decide)
  rw [Segment.of, if_neg hne]
  rfl

theorem of_text (h : colon ∉ seg) (hw : 42 ∉ seg) : Segment.of seg = ⟨seg, .literal⟩ := by
  have hne : seg ≠ wildcard := by
    rintro rfl
    exact hw (List.mem_singleton.mpr rfl)
  have hhead : seg.head? ≠ some 58 := fun hhead => h (List.mem_of_mem_head? hhead)
  rw [Segment.of, if_neg hne, if_neg hhead]

/-- One more segment that is not the `*`. -/
theorem Left.cons {names' : List Bytes} (h : Left segs names' out wildcardSeen) (hseg : Sound seg)
    (hcount : names'.length = names.length + if (Segment.of seg).kind ≠ .literal then 1 else 0) :
    Left (seg :: segs) names out false where
  sound := by
    intro s hs
    rcases List.mem_cons.mp hs with rfl | hs
    · exact .inr hseg
    · exact h.sound s hs
  last := nofun
  inner := by
    cases segs with
    | nil => rfl
    | cons next rest =>
      rw [List.map_cons, List.map_cons, List.dropLast_cons_cons, List.all_cons]
      exact Bool.and_eq_true_iff.mpr ⟨decide_eq_true hseg.kind, h.inner⟩
  count := by
    rw [h.count, hcount, List.map_cons, List.countP_cons]
    simp only [decide_eq_true_eq]
    omega

theorem validateFrom_left (h : validateFrom segs names wildcardSeen = some out) :
    Left segs names out wildcardSeen := by
  induction segs generalizing names wildcardSeen with
  | nil =>
    cases h
    exact ⟨nofun, fun _ => rfl, rfl, rfl⟩
  | cons seg rest ih =>
    rw [validateFrom] at h
    split_ifs at h with hseen hwild hstar hbrace hcolon hone htaken hmid
    · -- the `*`: nothing comes after it
      obtain rfl := (ih h).last rfl
      cases h
      subst hwild
      exact ⟨fun s hs => .inl (List.mem_singleton.mp hs), fun hs => absurd hs hseen, rfl,
        List.length_append⟩
    · obtain rfl := Bool.eq_false_iff.mpr hseen
      rw [List.contains_iff_mem] at hstar
      obtain ⟨name, rfl⟩ := List.head?_eq_some_iff.mp hcolon
      have hname : name ≠ [] := by
        rintro rfl
        exact hone rfl
      refine (ih h).cons (.inl ⟨name, hname, rfl, fun hmem => hstar (List.mem_cons_of_mem _ hmem)⟩) ?_
      rw [of_name]
      exact List.length_append
    · obtain rfl := Bool.eq_false_iff.mpr hseen
      rw [List.contains_iff_mem] at hstar hmid
      refine (ih h).cons (.inr ⟨hmid, hstar⟩) ?_
      rw [of_text hmid hstar]
      rfl

theorem validatePattern_left (h : validatePattern pattern = true) :
    ∃ names, Left (pieces (trimSlashes pattern)) [] names false ∧ pattern.head? = some slash ∧
      (pieces (trimSlashes pattern)).length ≤ maxSegments ∧ names.length ≤ maxParams := by
  obtain ⟨hhead, hrest⟩ := Bool.and_eq_true_iff.mp h
  cases hwalk : validateFrom (pieces (trimSlashes pattern)) [] false with
  | none =>
    rw [hwalk] at hrest
    cases hrest
  | some names =>
    rw [hwalk] at hrest
    obtain ⟨hsegments, hparams⟩ := Bool.and_eq_true_iff.mp hrest
    exact ⟨names, validateFrom_left hwalk, of_decide_eq_true hhead, of_decide_eq_true hsegments,
      of_decide_eq_true hparams⟩

theorem accepted_of_validatePattern (h : validatePattern pattern = true) :
    pattern.head? = some slash ∧ accepted (segmentsOf pattern) = true := by
  obtain ⟨names, hleft, hhead, hsegments, hparams⟩ := validatePattern_left h
  refine ⟨hhead, ?_⟩
  have hcount := hleft.count
  rw [List.length_nil, Nat.zero_add] at hcount
  rw [accepted, Bool.and_eq_true, Bool.and_eq_true, decide_eq_true_eq, decide_eq_true_eq]
  refine ⟨⟨?_, ?_⟩, hleft.inner⟩
  · rw [segmentsOf, List.length_map]
    exact hsegments
  · rw [segmentsOf, ← hcount]
    exact hparams

theorem sound_of_validatePattern (h : validatePattern pattern = true) :
    ∀ seg ∈ segmentsIn pattern, seg = wildcard ∨ Sound seg := by
  obtain ⟨_, hleft, -, -, -⟩ := validatePattern_left h
  exact hleft.sound

end Nilo.Routing
