import Nilo.Jwt.Gate
import Nilo.Lib.Slots

/-!
# A key set that rotates under its readers (`jwt/keyring.zig`)

Any number of `verify` and `load` calls over one ring, a step for each atomic access. A `verify`
counts itself in `crossing`, loads the pointer, counts itself on the set, and leaves `crossing`;
then it reads, and last it takes itself off the set. A `load` publishes its set, waits for
`crossing` to be nought and then for the old set's count, empties the memo and frees the old set.

Sets are never reused here: a pointer is the place of its set in `sets`, and `freed` counts how often
that one was freed. The counts are as wide as they need to be: each is of threads.

`Pinned` is what every interleaving keeps. A `load` that has seen `crossing` at nought leaves nobody
between the pointer and the pin of its old set, and nobody can come there again, because the pointer
is to another; so the count it then waits for is of all who will ever read the set (`run_freed`).
-/

namespace Nilo.Jwt

open Text (Bytes)
open Lib

/-! ## The ring -/

/-- One published set. -/
structure KeySet where
  keys : Keys
  readers : Nat
  freed : Nat
  /-- The tokens whose signature a call has checked under these keys. -/
  passed : List Bytes

/-- A set nobody has read yet. -/
def KeySet.fresh (keys : Keys) : KeySet := ⟨keys, 0, 0, []⟩

/-- Where a `verify` of the ring is. -/
inductive Stage (Claims : Type) where
  | start
  | crossing
  | loaded (s : Nat)
  | pinned (s : Nat)
  /-- Inside `token.verify`; `done` before the pin is given back. -/
  | inside (s : Nat) (phase : Phase Claims)
  | returned (result : Except Error Claims)

/-- Where a `load` is. -/
inductive Swap where
  | start (keys : Keys)
  /-- Waits for `crossing`. -/
  | swapped (old : Nat)
  /-- Waits for the readers of the old set. -/
  | crossed (old : Nat)
  | drained (old : Nat)
  /-- The memo is empty. -/
  | cleared (old : Nat)
  | finished
deriving Repr

inductive Caller (Claims : Type) where
  | verify (token : Bytes) (opts : Options) (stage : Stage Claims)
  | load (swap : Swap)

structure Ring (Claims : Type) where
  sets : List KeySet
  current : Nat
  crossing : Nat
  memo : Option Memo
  callers : List (Caller Claims)
  /-- What was handed to the memo since it was last emptied, and under which set. -/
  handed : List (Nat × Bytes)

inductive Move where
  | verify (token : Bytes) (opts : Options)
  /-- The document was read. -/
  | load (keys : Keys)
  | go (i : Nat)
deriving Repr

variable {Claims : Type} (c : Crypto) (js : Json Claims)

namespace Ring

def setOf (r : Ring Claims) (s : Nat) : KeySet := r.sets[s]?.getD (KeySet.fresh ⟨[]⟩)

def stand (r : Ring Claims) (i : Nat) (caller : Caller Claims) : Ring Claims :=
  { r with callers := r.callers.set i caller }

def onSet (r : Ring Claims) (s : Nat) (f : KeySet → KeySet) : Ring Claims :=
  { r with sets := r.sets.modify s f }

/-- What a step inside `token.verify` leaves behind besides the call's own place. -/
def noted (r : Ring Claims) (s : Nat) (token : Bytes) (phase later : Phase Claims) : Ring Claims :=
  match phase, later with
  | .missed _, .passed _ => r.onSet s fun set => { set with passed := token :: set.passed }
  | .passed _, _ =>
    match r.memo with
    | some m =>
      { r with memo := some (m.remember (digestOf token)), handed := (s, token) :: r.handed }
    | none => r
  | _, _ => r

def goVerify (r : Ring Claims) (i : Nat) (token : Bytes) (opts : Options) :
    Stage Claims → Option (Ring Claims)
  | .start => some ({ r with crossing := r.crossing + 1 }.stand i (.verify token opts .crossing))
  | .crossing => some (r.stand i (.verify token opts (.loaded r.current)))
  | .loaded s =>
    some ((r.onSet s fun set => { set with readers := set.readers + 1 }).stand i
      (.verify token opts (.pinned s)))
  | .pinned s =>
    some ({ r with crossing := r.crossing - 1 }.stand i (.verify token opts (.inside s .entered)))
  | .inside s (.done result) =>
    some ((r.onSet s fun set => { set with readers := set.readers - 1 }).stand i
      (.verify token opts (.returned result)))
  | .inside s phase =>
    (phase.next c js (r.setOf s).keys r.memo (r.setOf s).passed token opts).map fun later =>
      (r.noted s token phase later).stand i (.verify token opts (.inside s later))
  | .returned _ => none

def goLoad (r : Ring Claims) (i : Nat) : Swap → Option (Ring Claims)
  | .start keys =>
    some ({ r with sets := r.sets ++ [KeySet.fresh keys], current := r.sets.length }.stand i
      (.load (.swapped r.current)))
  | .swapped old => if r.crossing = 0 then some (r.stand i (.load (.crossed old))) else some r
  | .crossed old =>
    if (r.setOf old).readers = 0 then some (r.stand i (.load (.drained old))) else some r
  | .drained old =>
    some ({ r with memo := r.memo.map Memo.clear, handed := [] }.stand i (.load (.cleared old)))
  | .cleared old =>
    some ((r.onSet old fun set => { set with freed := set.freed + 1 }).stand i (.load .finished))
  | .finished => none

def act (r : Ring Claims) : Move → Option (Ring Claims)
  | .verify token opts => some { r with callers := r.callers ++ [.verify token opts .start] }
  | .load keys => some { r with callers := r.callers ++ [.load (.start keys)] }
  | .go i =>
    match r.callers[i]? with
    | some (.verify token opts stage) => r.goVerify c js i token opts stage
    | some (.load swap) => r.goLoad i swap
    | none => none

def run (r : Ring Claims) (moves : List Move) : Option (Ring Claims) :=
  moves.foldlM (fun r m => r.act c js m) r

end Ring

/-- A ring holding no keys. -/
def Ring.init (memo : Option (Nat × (Nat → Digest))) : Ring Claims :=
  ⟨[.fresh ⟨[]⟩], 0, 0, memo.map fun m => Memo.init m.1 m.2, [], []⟩

/-! ## What a caller holds -/

namespace Caller

/-- Counted in `crossing`. -/
def crosses : Caller Claims → Bool
  | .verify _ _ .crossing | .verify _ _ (.loaded _) | .verify _ _ (.pinned _) => true
  | _ => false

/-- Between loading the pointer to `s` and leaving `crossing`. -/
def arriving (s : Nat) : Caller Claims → Bool
  | .verify _ _ (.loaded t) | .verify _ _ (.pinned t) => t = s
  | _ => false

/-- Reading `s`. -/
def reading (s : Nat) : Caller Claims → Bool
  | .verify _ _ (.inside t _) => t = s
  | _ => false

/-- Counted in the readers of `s`. -/
def pins (s : Nat) : Caller Claims → Bool
  | .verify _ _ (.pinned t) | .verify _ _ (.inside t _) => t = s
  | _ => false

/-- About to free `s`. -/
def frees (s : Nat) : Caller Claims → Bool
  | .load (.swapped t) | .load (.crossed t) | .load (.drained t) | .load (.cleared t) => t = s
  | _ => false

/-- Has seen `crossing` at nought. -/
def sawCrossing (s : Nat) : Caller Claims → Bool
  | .load (.crossed t) | .load (.drained t) | .load (.cleared t) => t = s
  | _ => false

/-- Has seen the readers of `s` at nought. -/
def sawReaders (s : Nat) : Caller Claims → Bool
  | .load (.drained t) | .load (.cleared t) => t = s
  | _ => false

/-- The pointer to `s` is in this caller's hand. -/
def holds (s : Nat) (caller : Caller Claims) : Bool := caller.arriving s || caller.reading s

def isDone : Caller Claims → Bool
  | .verify _ _ (.returned _) | .load .finished => true
  | _ => false

end Caller

/-! ## What every interleaving keeps -/

/-- Whether the set was replaced. -/
def Ring.replaced (r : Ring Claims) (s : Nat) : Bool := s < r.sets.length && s != r.current

/-- The counts are of the callers who are in them; a set that was replaced is in the hands of one
`load` or was freed once; and where a `load` has seen a count at nought, nobody it counts is left. -/
structure Pinned (r : Ring Claims) : Prop where
  current : r.current < r.sets.length
  crossing : r.crossing = r.callers.countP Caller.crosses
  readers : ∀ s, (r.setOf s).readers = r.callers.countP (Caller.pins s)
  owner : ∀ s, (r.setOf s).freed + r.callers.countP (Caller.frees s) = (r.replaced s).toNat
  bound : ∀ s, ∀ v ∈ r.callers, v.holds s = true → s < r.sets.length
  arrived : ∀ s, ∀ l ∈ r.callers, l.sawCrossing s = true → ∀ v ∈ r.callers, v.arriving s = false
  left : ∀ s, ∀ l ∈ r.callers, l.sawReaders s = true → ∀ v ∈ r.callers, v.reading s = false
  gone : ∀ s, 0 < (r.setOf s).freed → ∀ v ∈ r.callers, v.holds s = false

section Sets

variable {r : Ring Claims} {s t : Nat} {f : KeySet → KeySet}

theorem setOf_onSet (hs : s < r.sets.length) :
    (r.onSet s f).setOf t = if t = s then f (r.setOf t) else r.setOf t := by
  rw [Ring.setOf, Ring.onSet, List.getElem?_modify]
  by_cases hts : t = s
  · subst hts
    simp [Ring.setOf, List.getElem?_eq_getElem hs]
  · simp [hts, Ne.symm hts, Ring.setOf]

theorem length_onSet : (r.onSet s f).sets.length = r.sets.length := List.length_modify ..

end Sets

section Step

variable {r r' : Ring Claims} {i : Nat} {a b : Caller Claims}

/-- One caller takes a step that the counts follow. -/
structure Follows (r r' : Ring Claims) (a b : Caller Claims) : Prop where
  current : r'.current < r'.sets.length
  grows : r.sets.length ≤ r'.sets.length
  crossing : r'.crossing + a.crosses.toNat = r.crossing + b.crosses.toNat
  readers : ∀ s, (r'.setOf s).readers + (a.pins s).toNat = (r.setOf s).readers + (b.pins s).toNat
  owner : ∀ s, (r'.setOf s).freed + (b.frees s).toNat + (r.replaced s).toNat =
    (r.setOf s).freed + (a.frees s).toNat + (r'.replaced s).toNat
  bound : ∀ s, b.holds s = true → s < r'.sets.length
  sawCrossing : ∀ s, b.sawCrossing s = true →
    a.sawCrossing s = true ∨ ∀ v ∈ r.callers, v.arriving s = false
  arriving : ∀ s, b.arriving s = true →
    a.arriving s = true ∨ ∀ l ∈ r.callers, l.sawCrossing s = false
  sawReaders : ∀ s, b.sawReaders s = true →
    a.sawReaders s = true ∨ ∀ v ∈ r.callers, v.reading s = false
  reading : ∀ s, b.reading s = true →
    a.reading s = true ∨ ∀ l ∈ r.callers, l.sawReaders s = false
  freed : ∀ s, 0 < (r'.setOf s).freed →
    0 < (r.setOf s).freed ∨ ∀ v ∈ r.callers, v.holds s = false
  holds : ∀ s, b.holds s = true → (r'.setOf s).freed = 0

theorem Caller.frees_of_sawCrossing {l : Caller Claims} {s : Nat} (h : l.sawCrossing s = true) :
    l.frees s = true := by
  cases l with
  | verify token opts stage => cases h
  | load swap =>
    cases swap with
    | start keys => cases h
    | swapped old => cases h
    | crossed old => exact h
    | drained old => exact h
    | cleared old => exact h
    | finished => cases h

theorem Caller.sawCrossing_of_sawReaders {l : Caller Claims} {s : Nat}
    (h : l.sawReaders s = true) : l.sawCrossing s = true := by
  cases l with
  | verify token opts stage => cases h
  | load swap =>
    cases swap with
    | start keys => cases h
    | swapped old => cases h
    | crossed old => cases h
    | drained old => exact h
    | cleared old => exact h
    | finished => cases h

theorem Caller.crosses_of_arriving {v : Caller Claims} {s : Nat} (h : v.arriving s = true) :
    v.crosses = true := by
  cases v with
  | load swap => cases h
  | verify token opts stage =>
    cases stage with
    | loaded t => rfl
    | pinned t => rfl
    | start => cases h
    | crossing => cases h
    | inside t phase => cases h
    | returned result => cases h

theorem Caller.pins_of_reading {v : Caller Claims} {s : Nat} (h : v.reading s = true) :
    v.pins s = true := by
  cases v with
  | load swap => cases h
  | verify token opts stage =>
    cases stage with
    | inside t phase => exact h
    | start => cases h
    | crossing => cases h
    | loaded t => cases h
    | pinned t => cases h
    | returned result => cases h

theorem Caller.holds_of_pins {v : Caller Claims} {s : Nat} (h : v.pins s = true) :
    v.holds s = true := by
  cases v with
  | load swap => cases h
  | verify token opts stage =>
    cases stage with
    | pinned t => exact Bool.or_eq_true_iff.mpr (.inl h)
    | inside t phase => exact Bool.or_eq_true_iff.mpr (.inr h)
    | start => cases h
    | crossing => cases h
    | loaded t => cases h
    | returned result => cases h

theorem Caller.not_both {s : Nat} (h : b.sawCrossing s = true) : b.arriving s = false := by
  cases b with
  | verify token opts stage => cases h
  | load swap => rfl

theorem Caller.not_both_readers {s : Nat} (h : b.sawReaders s = true) : b.reading s = false := by
  cases b with
  | verify token opts stage => cases h
  | load swap => rfl

theorem Pinned.follow (h : Pinned r) (hi : r.callers[i]? = some a)
    (hcallers : r'.callers = r.callers.set i b) (hf : Follows r r' a b) : Pinned r' := by
  have ha : a ∈ r.callers := List.mem_of_getElem? hi
  have hmem {v : Caller Claims} (hv : v ∈ r'.callers) : v ∈ r.callers ∨ v = b := by
    rw [hcallers] at hv
    exact List.mem_or_eq_of_mem_set hv
  refine ⟨hf.current, ?_, fun s => ?_, fun s => ?_, fun s v hv hhold => ?_,
    fun s l hl hsaw v hv => ?_, fun s l hl hsaw v hv => ?_, fun s hfreed v hv => ?_⟩
  · have hcount := countP_set (b := b) (p := Caller.crosses) hi
    have hbefore := h.crossing
    have hstep := hf.crossing
    rw [hcallers]
    omega
  · have hcount := countP_set (b := b) (p := Caller.pins s) hi
    have hbefore := h.readers s
    have hstep := hf.readers s
    rw [hcallers]
    omega
  · have hcount := countP_set (b := b) (p := Caller.frees s) hi
    have hbefore := h.owner s
    have hstep := hf.owner s
    rw [hcallers]
    omega
  · rcases hmem hv with hin | rfl
    · exact (h.bound s v hin hhold).trans_le hf.grows
    · exact hf.bound s hhold
  · rcases hmem hl with hlin | rfl
    · rcases hmem hv with hvin | rfl
      · exact h.arrived s l hlin hsaw v hvin
      · by_contra harr
        rcases hf.arriving s (eq_true_of_ne_false harr) with hbefore | hnone
        · exact absurd (h.arrived s l hlin hsaw a ha) (ne_false_of_eq_true hbefore)
        · exact absurd hsaw (ne_true_of_eq_false (hnone l hlin))
    · rcases hmem hv with hvin | rfl
      · rcases hf.sawCrossing s hsaw with hbefore | hnone
        · exact h.arrived s a ha hbefore v hvin
        · exact hnone v hvin
      · exact Caller.not_both hsaw
  · rcases hmem hl with hlin | rfl
    · rcases hmem hv with hvin | rfl
      · exact h.left s l hlin hsaw v hvin
      · by_contra hread
        rcases hf.reading s (eq_true_of_ne_false hread) with hbefore | hnone
        · exact absurd (h.left s l hlin hsaw a ha) (ne_false_of_eq_true hbefore)
        · exact absurd hsaw (ne_true_of_eq_false (hnone l hlin))
    · rcases hmem hv with hvin | rfl
      · rcases hf.sawReaders s hsaw with hbefore | hnone
        · exact h.left s a ha hbefore v hvin
        · exact hnone v hvin
      · exact Caller.not_both_readers hsaw
  · rcases hmem hv with hin | rfl
    · rcases hf.freed s hfreed with hbefore | hnone
      · exact h.gone s hbefore v hin
      · exact hnone v hin
    · by_contra hhold
      have hzero := hf.holds s (eq_true_of_ne_false hhold)
      omega

end Step

/-! ## The steps -/

section Steps

variable {c : Crypto} {js : Json Claims}
variable {r r' : Ring Claims} {i : Nat} {token : Bytes} {opts : Options}

/-- A step that leaves the sets, the pointer and `crossing` as they are. -/
theorem Follows.still {a b : Caller Claims} (h : Pinned r)
    (hsets : ∀ s, (r'.setOf s).readers = (r.setOf s).readers ∧
      (r'.setOf s).freed = (r.setOf s).freed)
    (hlength : r'.sets.length = r.sets.length) (hcurrent : r'.current = r.current)
    (hcrossing : r'.crossing = r.crossing) (hcrosses : b.crosses = a.crosses)
    (hpins : ∀ s, b.pins s = a.pins s) (hfrees : ∀ s, b.frees s = a.frees s)
    (hholds : ∀ s, b.holds s = true → s < r.sets.length ∧ (r.setOf s).freed = 0)
    (hsaw : ∀ s, b.sawCrossing s = true →
      a.sawCrossing s = true ∨ ∀ v ∈ r.callers, v.arriving s = false)
    (harriving : ∀ s, b.arriving s = true →
      a.arriving s = true ∨ ∀ l ∈ r.callers, l.sawCrossing s = false)
    (hleft : ∀ s, b.sawReaders s = true →
      a.sawReaders s = true ∨ ∀ v ∈ r.callers, v.reading s = false)
    (hreading : ∀ s, b.reading s = true →
      a.reading s = true ∨ ∀ l ∈ r.callers, l.sawReaders s = false) :
    Follows r r' a b where
  current := by
    rw [hcurrent, hlength]
    exact h.current
  grows := hlength.ge
  crossing := by rw [hcrossing, hcrosses]
  readers s := by rw [(hsets s).1, hpins s]
  owner s := by
    have hreplaced : r'.replaced s = r.replaced s := by
      rw [Ring.replaced, Ring.replaced, hlength, hcurrent]
    rw [(hsets s).2, hfrees s, hreplaced]
  bound s hs := by
    rw [hlength]
    exact (hholds s hs).1
  sawCrossing := hsaw
  arriving := harriving
  sawReaders := hleft
  reading := hreading
  freed s hs := by
    rw [(hsets s).2] at hs
    exact .inl hs
  holds s hs := by
    rw [(hsets s).2]
    exact (hholds s hs).2

/-- A step that counts a reader of `s`, or stops counting it. -/
theorem Follows.recount {s : Nat} {f : KeySet → KeySet} {a b : Caller Claims} (h : Pinned r)
    (hs : s < r.sets.length) (hf : ∀ set, (f set).freed = set.freed)
    (hreaders : (f (r.setOf s)).readers + (a.pins s).toNat =
      (r.setOf s).readers + (b.pins s).toNat)
    (hothers : ∀ t, t ≠ s → b.pins t = a.pins t) (hcrosses : b.crosses = a.crosses)
    (hfrees : ∀ t, b.frees t = a.frees t) (hunfreed : (r.setOf s).freed = 0)
    (hholds : ∀ t, b.holds t = true → t = s) (harriving : ∀ t, b.arriving t = true → a.arriving t = true)
    (hreading : ∀ t, b.reading t = true → a.reading t = true)
    (hsaw : ∀ t, b.sawCrossing t = false) : Follows r ((r.onSet s f).stand i b) a b where
  current := by
    change r.current < (r.onSet s f).sets.length
    rw [length_onSet]
    exact h.current
  grows := length_onSet.ge
  crossing := by
    change r.crossing + _ = _
    rw [hcrosses]
  readers t := by
    change ((r.onSet s f).setOf t).readers + _ = _
    rw [setOf_onSet hs]
    split
    · rename_i hts
      subst hts
      exact hreaders
    · rename_i hts
      rw [hothers t hts]
  owner t := by
    have hreplaced : ((r.onSet s f).stand i b).replaced t = r.replaced t := by
      change (decide (t < (r.onSet s f).sets.length) && t != r.current) = _
      rw [length_onSet]
      rfl
    have hfreed : (((r.onSet s f).stand i b).setOf t).freed = (r.setOf t).freed := by
      change ((r.onSet s f).setOf t).freed = _
      rw [setOf_onSet hs]
      split
      · exact hf _
      · rfl
    rw [hreplaced, hfreed, hfrees t]
  bound t ht := by
    change t < (r.onSet s f).sets.length
    rw [length_onSet, hholds t ht]
    exact hs
  sawCrossing t ht := by
    rw [hsaw t] at ht
    cases ht
  arriving t ht := .inl (harriving t ht)
  sawReaders t ht := by
    have hcross := Caller.sawCrossing_of_sawReaders ht
    rw [hsaw t] at hcross
    cases hcross
  reading t ht := .inl (hreading t ht)
  freed t ht := by
    change 0 < ((r.onSet s f).setOf t).freed at ht
    rw [setOf_onSet hs] at ht
    split at ht
    · rw [hf] at ht
      exact .inl ht
    · exact .inl ht
  holds t ht := by
    obtain rfl := hholds t ht
    change ((r.onSet t f).setOf t).freed = 0
    rw [setOf_onSet hs, if_pos rfl, hf]
    exact hunfreed

theorem Pinned.unfreed (h : Pinned r) {v : Caller Claims} (hv : v ∈ r.callers) {s : Nat}
    (hs : v.holds s = true) : (r.setOf s).freed = 0 := by
  by_contra hne
  exact absurd hs (ne_true_of_eq_false (h.gone s (Nat.pos_of_ne_zero hne) v hv))

theorem replaced_current (r : Ring Claims) : r.replaced r.current = false := by
  simp [Ring.replaced]

theorem Pinned.current_unfreed (h : Pinned r) : (r.setOf r.current).freed = 0 := by
  have howner := h.owner r.current
  rw [replaced_current, Bool.toNat_false] at howner
  omega

/-- Nobody is about to free the current set. -/
theorem Pinned.current_kept (h : Pinned r) {l : Caller Claims} (hl : l ∈ r.callers) :
    l.frees r.current = false := by
  have howner := h.owner r.current
  rw [replaced_current, Bool.toNat_false] at howner
  have hcount : r.callers.countP (Caller.frees r.current) = 0 := by omega
  exact eq_false_of_ne_true (List.countP_eq_zero.mp hcount l hl)

/-- Who holds a set is in its place: the rest of the ring does not tell. -/
theorem Pinned.held (h : Pinned r) {v : Caller Claims} (hv : v ∈ r.callers) {s : Nat}
    (hs : v.holds s = true) : s < r.sets.length ∧ (r.setOf s).freed = 0 :=
  ⟨h.bound s v hv hs, h.unfreed hv hs⟩

theorem noted_frame (s : Nat) (phase later : Phase Claims) (t : Nat) (hs : s < r.sets.length) :
    ((r.noted s token phase later).setOf t).readers = (r.setOf t).readers ∧
      ((r.noted s token phase later).setOf t).freed = (r.setOf t).freed := by
  rw [Ring.noted.eq_def]
  split
  · rw [setOf_onSet hs]
    split <;> exact ⟨rfl, rfl⟩
  · split <;> exact ⟨rfl, rfl⟩
  · exact ⟨rfl, rfl⟩

theorem noted_same (r : Ring Claims) (token : Bytes) (s : Nat) (phase later : Phase Claims) :
    (r.noted s token phase later).sets.length = r.sets.length ∧
      (r.noted s token phase later).current = r.current ∧
      (r.noted s token phase later).crossing = r.crossing ∧
      (r.noted s token phase later).callers = r.callers := by
  rw [Ring.noted.eq_def]
  split
  · exact ⟨length_onSet, rfl, rfl, rfl⟩
  · split <;> exact ⟨rfl, rfl, rfl, rfl⟩
  · exact ⟨rfl, rfl, rfl, rfl⟩

theorem goVerify_inside {s : Nat} {phase : Phase Claims} (hphase : ∀ result, phase ≠ .done result) :
    r.goVerify c js i token opts (.inside s phase) =
      (phase.next c js (r.setOf s).keys r.memo (r.setOf s).passed token opts).map fun later =>
        (r.noted s token phase later).stand i (.verify token opts (.inside s later)) := by
  cases phase with
  | done result => exact absurd rfl (hphase result)
  | entered => rfl
  | missed f => rfl
  | passed f => rfl
  | ready f since => rfl

/-- A step inside `token.verify`. -/
theorem Pinned.inside (h : Pinned r) {s : Nat} {phase : Phase Claims} (later : Phase Claims)
    (hi : r.callers[i]? = some (.verify token opts (.inside s phase))) :
    Pinned ((r.noted s token phase later).stand i (.verify token opts (.inside s later))) := by
  have hmem := List.mem_of_getElem? hi
  have hheld := h.held hmem (s := s) (by simp [Caller.holds, Caller.reading])
  obtain ⟨hlength, hcurrent, hcrossing, hcallers⟩ :=
    noted_same r token s phase later
  refine h.follow hi (b := .verify token opts (.inside s later)) ?_
    (.still h (fun t => noted_frame s phase later t hheld.1) hlength hcurrent
    hcrossing rfl (fun t => rfl) (fun t => rfl) ?_ (fun t ht => (by cases ht))
    (fun t ht => (by cases ht)) (fun t ht => (by cases ht)) (fun t ht => .inl ht))
  · rw [Ring.stand, hcallers]
  · intro t ht
    obtain rfl : s = t := by simpa [Caller.holds, Caller.arriving, Caller.reading] using ht
    exact hheld

theorem Pinned.goVerify (h : Pinned r) {stage : Stage Claims}
    (hi : r.callers[i]? = some (.verify token opts stage))
    (hgo : r.goVerify c js i token opts stage = some r') : Pinned r' := by
  have hmem := List.mem_of_getElem? hi
  cases stage with
  | start =>
    obtain rfl := Option.some.inj hgo
    exact h.follow hi rfl
      { current := h.current, grows := le_rfl, crossing := rfl, readers := fun s => rfl,
        owner := fun s => rfl, bound := fun s hs => (by cases hs),
        sawCrossing := fun s hs => (by cases hs), arriving := fun s hs => (by cases hs),
        sawReaders := fun s hs => (by cases hs), reading := fun s hs => (by cases hs),
        freed := fun s hs => .inl hs, holds := fun s hs => (by cases hs) }
  | crossing =>
    obtain rfl := Option.some.inj hgo
    -- The pointer is to a set nobody is about to free.
    refine h.follow hi rfl (.still h (fun s => ⟨rfl, rfl⟩) rfl rfl rfl rfl (fun s => rfl)
      (fun s => rfl) ?_ (fun s hs => (by cases hs)) ?_ (fun s hs => (by cases hs))
      (fun s hs => (by cases hs)))
    · intro s hs
      obtain rfl : r.current = s := by simpa [Caller.holds, Caller.arriving, Caller.reading] using hs
      exact ⟨h.current, h.current_unfreed⟩
    · intro s hs
      obtain rfl : r.current = s := by simpa [Caller.arriving] using hs
      refine .inr fun l hl => ?_
      by_contra hsaw
      have hfrees := Caller.frees_of_sawCrossing (eq_true_of_ne_false hsaw)
      rw [h.current_kept hl] at hfrees
      cases hfrees
  | loaded s =>
    obtain rfl := Option.some.inj hgo
    have hheld := h.held hmem (s := s) (by simp [Caller.holds, Caller.arriving])
    refine h.follow hi rfl (.recount h hheld.1 (fun set => rfl) ?_ ?_ rfl (fun t => rfl) hheld.2 ?_
      (fun t ht => ht) (fun t ht => (by cases ht)) (fun t => rfl))
    · simp [Caller.pins]
    · intro t ht
      simp [Caller.pins, Ne.symm ht]
    · intro t ht
      simpa [Caller.holds, Caller.arriving, Caller.reading, eq_comm] using ht
  | pinned s =>
    obtain rfl := Option.some.inj hgo
    have hheld := h.held hmem (s := s) (by simp [Caller.holds, Caller.arriving])
    have hpos : 0 < r.crossing := by
      rw [h.crossing]
      exact List.countP_pos_iff.mpr ⟨_, hmem, rfl⟩
    exact h.follow hi rfl
      { current := h.current, grows := le_rfl
        crossing := by
          change r.crossing - 1 + 1 = r.crossing + 0
          omega
        readers := fun t => rfl, owner := fun t => rfl
        bound := fun t ht => by
          obtain rfl : s = t := by simpa [Caller.holds, Caller.arriving, Caller.reading] using ht
          exact hheld.1
        sawCrossing := fun t ht => (by cases ht), arriving := fun t ht => (by cases ht)
        sawReaders := fun t ht => (by cases ht)
        reading := fun t ht => .inr fun l hl => by
          -- Whoever has seen the readers has seen `crossing` before, and this caller was in it.
          by_contra hsaw
          have hcross := Caller.sawCrossing_of_sawReaders (eq_true_of_ne_false hsaw)
          have harr := h.arrived t l hl hcross _ hmem
          exact absurd (ht : decide (s = t) = true) (ne_true_of_eq_false harr)
        freed := fun t ht => .inl ht
        holds := fun t ht => by
          obtain rfl : s = t := by simpa [Caller.holds, Caller.arriving, Caller.reading] using ht
          exact hheld.2 }
  | inside s phase =>
    have hheld := h.held hmem (s := s) (by simp [Caller.holds, Caller.reading])
    by_cases hdone : ∃ result, phase = .done result
    · obtain ⟨result, rfl⟩ := hdone
      obtain rfl := Option.some.inj hgo
      have hpos : 0 < (r.setOf s).readers := by
        rw [h.readers s]
        exact List.countP_pos_iff.mpr ⟨_, hmem, by simp [Caller.pins]⟩
      refine h.follow hi rfl (.recount h hheld.1 (fun set => rfl) ?_ ?_ rfl (fun t => rfl) hheld.2 ?_
        (fun t ht => (by cases ht)) (fun t ht => (by cases ht)) (fun t => rfl))
      · simp [Caller.pins]
        omega
      · intro t ht
        simp [Caller.pins, Ne.symm ht]
      · intro t ht
        cases ht
    · rw [goVerify_inside (not_exists.mp hdone)] at hgo
      obtain ⟨later, _, rfl⟩ := Option.map_eq_some_iff.mp hgo
      exact h.inside _ hi
  | returned result => cases hgo

theorem setOf_append (keys : Keys) (s : Nat) :
    (({ r with sets := r.sets ++ [KeySet.fresh keys], current := r.sets.length } :
      Ring Claims).setOf s).readers = (r.setOf s).readers ∧
    (({ r with sets := r.sets ++ [KeySet.fresh keys], current := r.sets.length } :
      Ring Claims).setOf s).freed = (r.setOf s).freed := by
  simp only [Ring.setOf]
  rcases Nat.lt_trichotomy s r.sets.length with hlt | rfl | hgt
  · rw [List.getElem?_append_left hlt]
    exact ⟨rfl, rfl⟩
  · simp [KeySet.fresh]
  · rw [List.getElem?_eq_none (by simp; omega), List.getElem?_eq_none (by omega)]
    exact ⟨rfl, rfl⟩

theorem Pinned.swap (h : Pinned r) {keys : Keys}
    (hi : r.callers[i]? = some (.load (.start keys))) :
    Pinned ({ r with sets := r.sets ++ [KeySet.fresh keys], current := r.sets.length }.stand i
      (.load (.swapped r.current))) := by
  have hset := setOf_append (r := r) keys
  have hlength : (r.sets ++ [KeySet.fresh keys]).length = r.sets.length + 1 := by simp
  refine h.follow hi rfl
    { current := ?_, grows := ?_, crossing := rfl, readers := fun s => (hset s).1
      owner := fun s => ?_, bound := fun s hs => (by cases hs)
      sawCrossing := fun s hs => (by cases hs), arriving := fun s hs => (by cases hs)
      sawReaders := fun s hs => (by cases hs), reading := fun s hs => (by cases hs)
      freed := fun s hs => .inl ((hset s).2 ▸ hs), holds := fun s hs => (by cases hs) }
  · change r.sets.length < (r.sets ++ [KeySet.fresh keys]).length
    omega
  · change _ ≤ (r.sets ++ [KeySet.fresh keys]).length
    omega
  · refine (congrArg (· + (decide (r.current = s)).toNat + (r.replaced s).toNat)
      (hset s).2).trans ?_
    change _ = (r.setOf s).freed + 0 +
      (decide (s < (r.sets ++ [KeySet.fresh keys]).length) && s != r.sets.length).toNat
    -- The set that was current is replaced, and the new one is not.
    have hcurrent := h.current
    have hreplaced : (decide (s < (r.sets ++ [KeySet.fresh keys]).length) && s != r.sets.length) =
        (r.replaced s || decide (r.current = s)) := by
      rw [Bool.eq_iff_iff, Ring.replaced, hlength]
      simp
      omega
    rw [hreplaced]
    by_cases heq : r.current = s
    · subst heq
      simp [replaced_current]
    · simp [heq]

/-- A set that somebody is about to free is there. -/
theorem Pinned.freeing_lt (h : Pinned r) {l : Caller Claims} (hl : l ∈ r.callers) {s : Nat}
    (hs : l.frees s = true) : s < r.sets.length := by
  have howner := h.owner s
  have hcount : 0 < r.callers.countP (Caller.frees s) := List.countP_pos_iff.mpr ⟨l, hl, hs⟩
  have hreplaced : r.replaced s = true := by
    by_contra hnot
    rw [eq_false_of_ne_true hnot, Bool.toNat_false] at howner
    omega
  rw [Ring.replaced, Bool.and_eq_true] at hreplaced
  exact of_decide_eq_true hreplaced.1

theorem Pinned.freeStep (h : Pinned r) {old : Nat}
    (hi : r.callers[i]? = some (.load (.cleared old))) (hold : old < r.sets.length) :
    Pinned ((r.onSet old fun set => { set with freed := set.freed + 1 }).stand i
      (.load .finished)) := by
  have hmem := List.mem_of_getElem? hi
  have hset (s : Nat) := setOf_onSet (r := r) (t := s)
    (f := fun set => { set with freed := set.freed + 1 }) hold
  refine h.follow hi rfl
    { current := ?_, grows := length_onSet.ge, crossing := rfl, readers := fun s => ?_
      owner := fun s => ?_, bound := fun s hs => (by cases hs)
      sawCrossing := fun s hs => (by cases hs), arriving := fun s hs => (by cases hs)
      sawReaders := fun s hs => (by cases hs), reading := fun s hs => (by cases hs)
      freed := fun s hs => ?_, holds := fun s hs => (by cases hs) }
  · change r.current < (r.onSet old _).sets.length
    rw [length_onSet]
    exact h.current
  · change ((r.onSet old _).setOf s).readers + 0 = _ + 0
    rw [hset s]
    split <;> rfl
  · have hreplaced : (((r.onSet old fun set => { set with freed := set.freed + 1 }).stand i
        (.load .finished)).replaced s) = r.replaced s := by
      change (decide (s < (r.onSet old _).sets.length) && s != r.current) = _
      rw [length_onSet]
      rfl
    rw [hreplaced]
    change ((r.onSet old _).setOf s).freed + 0 + _ = _ + (decide (old = s)).toNat + _
    rw [hset s]
    by_cases heq : s = old
    · subst heq
      simp
    · simp [heq, Ne.symm heq]
  · change 0 < ((r.onSet old _).setOf s).freed at hs
    rw [hset s] at hs
    split at hs
    · rename_i heq
      subst heq
      -- Nobody is left who holds the set.
      refine .inr fun v hv => ?_
      have hsaw : (.load (.cleared s) : Caller Claims).sawCrossing s = true := by
        simp [Caller.sawCrossing]
      have hread : (.load (.cleared s) : Caller Claims).sawReaders s = true := by
        simp [Caller.sawReaders]
      rw [Caller.holds, h.arrived s _ hmem hsaw v hv, h.left s _ hmem hread v hv]
      rfl
    · exact .inl hs

theorem Pinned.goLoad (h : Pinned r) {swap : Swap} (hi : r.callers[i]? = some (.load swap))
    (hgo : r.goLoad i swap = some r') : Pinned r' := by
  have hmem := List.mem_of_getElem? hi
  cases swap with
  | start keys =>
    obtain rfl := Option.some.inj hgo
    exact h.swap hi
  | swapped old =>
    rw [Ring.goLoad] at hgo
    split at hgo
    · rename_i hzero
      obtain rfl := Option.some.inj hgo
      refine h.follow hi rfl (.still h (fun s => ⟨rfl, rfl⟩) rfl rfl rfl rfl (fun s => rfl)
        (fun s => rfl) (fun s hs => (by cases hs)) ?_ (fun s hs => (by cases hs))
        (fun s hs => (by cases hs)) (fun s hs => (by cases hs)))
      -- `crossing` is at nought: nobody is between the pointer and the pin of any set.
      intro s _
      refine .inr fun v hv => ?_
      rw [h.crossing] at hzero
      have hnot := List.countP_eq_zero.mp hzero v hv
      by_contra harr
      exact hnot (Caller.crosses_of_arriving (eq_true_of_ne_false harr))
    · obtain rfl := Option.some.inj hgo
      exact h
  | crossed old =>
    rw [Ring.goLoad] at hgo
    split at hgo
    · rename_i hzero
      obtain rfl := Option.some.inj hgo
      refine h.follow hi rfl (.still h (fun s => ⟨rfl, rfl⟩) rfl rfl rfl rfl (fun s => rfl)
        (fun s => rfl) (fun s hs => (by cases hs)) (fun s hs => .inl hs) (fun s hs => (by cases hs))
        ?_ (fun s hs => (by cases hs)))
      intro s hs
      obtain rfl : old = s := by simpa [Caller.sawReaders] using hs
      refine .inr fun v hv => ?_
      rw [h.readers old] at hzero
      have hnot := List.countP_eq_zero.mp hzero v hv
      by_contra hread
      exact hnot (Caller.pins_of_reading (eq_true_of_ne_false hread))
    · obtain rfl := Option.some.inj hgo
      exact h
  | drained old =>
    obtain rfl := Option.some.inj hgo
    exact h.follow hi rfl (.still h (fun s => ⟨rfl, rfl⟩) rfl rfl rfl rfl (fun s => rfl)
      (fun s => rfl) (fun s hs => (by cases hs)) (fun s hs => .inl hs) (fun s hs => (by cases hs))
      (fun s hs => .inl hs) (fun s hs => (by cases hs)))
  | cleared old =>
    obtain rfl := Option.some.inj hgo
    exact h.freeStep hi (h.freeing_lt hmem (by simp [Caller.frees]))
  | finished => cases hgo

/-- A caller that has only come. -/
theorem Pinned.enter (h : Pinned r) {b : Caller Claims} (hcrosses : b.crosses = false)
    (hpins : ∀ s, b.pins s = false) (hfrees : ∀ s, b.frees s = false)
    (hholds : ∀ s, b.holds s = false) :
    Pinned { r with callers := r.callers ++ [b] } := by
  have hsaw (s : Nat) : b.sawCrossing s = false := by
    by_contra hsaw
    have hfree := Caller.frees_of_sawCrossing (eq_true_of_ne_false hsaw)
    rw [hfrees s] at hfree
    cases hfree
  have hleft (s : Nat) : b.sawReaders s = false := by
    by_contra hread
    have hcross := Caller.sawCrossing_of_sawReaders (eq_true_of_ne_false hread)
    rw [hsaw s] at hcross
    cases hcross
  have hboth (s : Nat) : b.arriving s = false ∧ b.reading s = false :=
    Bool.or_eq_false_iff.mp (hholds s)
  have hmem {v : Caller Claims} (hv : v ∈ r.callers ++ [b]) : v ∈ r.callers ∨ v = b := by
    simpa using hv
  refine ⟨h.current, ?_, fun s => ?_, fun s => ?_, fun s v hv hs => ?_, fun s l hl hs v hv => ?_,
    fun s l hl hs v hv => ?_, fun s hs v hv => ?_⟩
  · simpa [List.countP_append, hcrosses] using h.crossing
  · rw [List.countP_append, List.countP_singleton, hpins s]
    exact h.readers s
  · rw [List.countP_append, List.countP_singleton, hfrees s]
    exact h.owner s
  · rcases hmem hv with hin | rfl
    · exact h.bound s v hin hs
    · rw [hholds s] at hs
      cases hs
  · rcases hmem hl with hlin | rfl
    · rcases hmem hv with hvin | rfl
      · exact h.arrived s l hlin hs v hvin
      · exact (hboth s).1
    · rw [hsaw s] at hs
      cases hs
  · rcases hmem hl with hlin | rfl
    · rcases hmem hv with hvin | rfl
      · exact h.left s l hlin hs v hvin
      · exact (hboth s).2
    · rw [hleft s] at hs
      cases hs
  · rcases hmem hv with hin | rfl
    · exact h.gone s hs v hin
    · exact hholds s

theorem Pinned.act (h : Pinned r) {m : Move} (hact : r.act c js m = some r') : Pinned r' := by
  cases m with
  | verify token opts =>
    obtain rfl := Option.some.inj hact
    exact h.enter rfl (fun s => rfl) (fun s => rfl) (fun s => rfl)
  | load keys =>
    obtain rfl := Option.some.inj hact
    exact h.enter rfl (fun s => rfl) (fun s => rfl) (fun s => rfl)
  | go i =>
    rw [Ring.act] at hact
    split at hact
    · rename_i hi
      exact h.goVerify hi hact
    · rename_i hi
      exact h.goLoad hi hact
    · cases hact

theorem Pinned.run (h : Pinned r) {moves : List Move} (hrun : r.run c js moves = some r') :
    Pinned r' := by
  induction moves generalizing r with
  | nil =>
    obtain rfl := Option.some.inj hrun
    exact h
  | cons m rest ih =>
    obtain ⟨mid, hact, hrest⟩ := Option.bind_eq_some_iff.mp hrun
    exact ih (h.act hact) hrest

theorem pinned_init (memo : Option (Nat × (Nat → Digest))) :
    Pinned (Ring.init memo : Ring Claims) where
  current := Nat.one_pos
  crossing := rfl
  readers s := by
    rcases s with _ | s <;> rfl
  owner s := by
    rcases s with _ | s <;> rfl
  bound s v hv := by cases hv
  arrived s l hl := by cases hl
  left s l hl := by cases hl
  gone s hs v hv := by cases hv

end Steps

/-! ## Every call comes to its end -/

def Phase.remaining : Phase Claims → Nat
  | .entered => 5
  | .missed _ => 4
  | .passed _ => 3
  | .ready _ _ => 2
  | .done _ => 1

/-- The steps a caller has before it, at most. -/
def Caller.remaining : Caller Claims → Nat
  | .verify _ _ .start => 9
  | .verify _ _ .crossing => 8
  | .verify _ _ (.loaded _) => 7
  | .verify _ _ (.pinned _) => 6
  | .verify _ _ (.inside _ phase) => phase.remaining
  | .verify _ _ (.returned _) => 0
  | .load (.start _) => 5
  | .load (.swapped _) => 4
  | .load (.crossed _) => 3
  | .load (.drained _) => 2
  | .load (.cleared _) => 1
  | .load .finished => 0

def Ring.remaining (r : Ring Claims) : Nat := (r.callers.map Caller.remaining).sum

section Ends

variable {c : Crypto} {js : Json Claims}
variable {r : Ring Claims} {i : Nat} {token : Bytes} {opts : Options}

theorem Phase.next_remaining (c : Crypto) (js : Json Claims) (token : Bytes) (opts : Options)
    (keys : Keys) (memo : Option Memo) (since : List Bytes) {phase : Phase Claims} (h : ∀ result, phase ≠ .done result) :
    ∃ later, phase.next c js keys memo since token opts = some later ∧
      later.remaining < phase.remaining := by
  cases phase with
  | done result => exact absurd rfl (h result)
  | entered =>
    rw [Phase.next]
    split
    · exact ⟨_, rfl, by simp [Phase.remaining]⟩
    · split
      · exact ⟨_, rfl, by simp [Phase.remaining]⟩
      · exact ⟨_, rfl, by simp [Phase.remaining]⟩
  | missed f =>
    rw [Phase.next]
    split
    · exact ⟨_, rfl, by simp [Phase.remaining]⟩
    · exact ⟨_, rfl, by simp [Phase.remaining]⟩
  | passed f => exact ⟨_, rfl, by simp [Phase.remaining]⟩
  | ready f since => exact ⟨_, rfl, by simp [Phase.remaining]⟩

/-- A `verify` never waits. -/
theorem goVerify_some (c : Crypto) (js : Json Claims) (r : Ring Claims) (i : Nat) (token : Bytes)
    (opts : Options) {stage : Stage Claims} (h : ∀ result, stage ≠ .returned result) :
    ∃ r' later, r.goVerify c js i token opts stage = some r' ∧
      r'.callers = r.callers.set i later ∧
      later.remaining < (Caller.verify token opts stage).remaining := by
  cases stage with
  | start => exact ⟨_, _, rfl, rfl, by simp [Caller.remaining]⟩
  | crossing => exact ⟨_, _, rfl, rfl, by simp [Caller.remaining]⟩
  | loaded s => exact ⟨_, _, rfl, rfl, by simp [Caller.remaining]⟩
  | pinned s => exact ⟨_, _, rfl, rfl, by simp [Caller.remaining, Phase.remaining]⟩
  | returned result => exact absurd rfl (h result)
  | inside s phase =>
    by_cases hdone : ∃ result, phase = .done result
    · obtain ⟨result, rfl⟩ := hdone
      exact ⟨_, _, rfl, rfl, by simp [Caller.remaining, Phase.remaining]⟩
    · obtain ⟨later, hnext, hlt⟩ := Phase.next_remaining c js token opts (r.setOf s).keys r.memo
        (r.setOf s).passed (not_exists.mp hdone)
      refine ⟨(r.noted s token phase later).stand i (.verify token opts (.inside s later)),
        .verify token opts (.inside s later), ?_, ?_, hlt⟩
      · rw [goVerify_inside (not_exists.mp hdone), hnext]
        rfl
      · rw [Ring.stand, (noted_same r token s phase later).2.2.2]

/-- A `load` does not wait where nobody is left to wait for. -/
theorem goLoad_some {swap : Swap} (hcrossing : r.crossing = 0)
    (hreaders : ∀ s, (r.setOf s).readers = 0) (h : swap ≠ .finished) :
    ∃ r' later, r.goLoad i swap = some r' ∧ r'.callers = r.callers.set i later ∧
      later.remaining < (.load swap : Caller Claims).remaining := by
  cases swap with
  | start keys => exact ⟨_, _, rfl, rfl, by simp [Caller.remaining]⟩
  | swapped old =>
    exact ⟨_, _, if_pos hcrossing, rfl, by simp [Caller.remaining]⟩
  | crossed old =>
    exact ⟨_, _, if_pos (hreaders old), rfl, by simp [Caller.remaining]⟩
  | drained old => exact ⟨_, _, rfl, rfl, by simp [Caller.remaining]⟩
  | cleared old => exact ⟨_, _, rfl, rfl, by simp [Caller.remaining]⟩
  | finished => exact absurd rfl h

theorem remaining_set {r' : Ring Claims} {a later : Caller Claims} (hi : r.callers[i]? = some a)
    (hcallers : r'.callers = r.callers.set i later) (hlt : later.remaining < a.remaining) :
    r'.remaining < r.remaining := by
  have hsplit (x : Caller Claims) :
      ((r.callers.take i ++ x :: r.callers.drop (i + 1)).map Caller.remaining).sum =
        ((r.callers.take i).map Caller.remaining).sum + x.remaining +
          ((r.callers.drop (i + 1)).map Caller.remaining).sum := by
    simp
    omega
  have hbefore := congrArg (fun l => (l.map Caller.remaining).sum) (split_at hi)
  simp only [hsplit] at hbefore
  rw [Ring.remaining, Ring.remaining, hcallers, set_at hi, hsplit, hbefore]
  omega

/-- Somebody can go on, until all have ended. -/
theorem Pinned.goes (h : Pinned r) (c : Crypto) (js : Json Claims) :
    (∀ v ∈ r.callers, v.isDone = true) ∨
    ∃ i r', r.act c js (.go i) = some r' ∧ r'.remaining < r.remaining ∧
      r'.callers.length = r.callers.length := by
  by_cases hverify : ∃ (i : Nat) (token : Bytes) (opts : Options) (stage : Stage Claims),
      r.callers[i]? = some (.verify token opts stage) ∧ ∀ result, stage ≠ .returned result
  · obtain ⟨i, token, opts, stage, hi, hstage⟩ := hverify
    obtain ⟨r', later, hgo, hcallers, hlt⟩ :=
      goVerify_some c js r i token opts hstage
    refine .inr ⟨i, r', ?_, remaining_set hi hcallers hlt, by rw [hcallers, List.length_set]⟩
    rw [Ring.act, hi]
    exact hgo
  · -- Every `verify` has returned, so the counts are at nought.
    have hreturned {v : Caller Claims} (hv : v ∈ r.callers) {token : Bytes} {opts : Options}
        {stage : Stage Claims} (heq : v = .verify token opts stage) :
        ∃ result, stage = .returned result := by
      obtain ⟨i, hi⟩ := List.mem_iff_getElem?.mp hv
      by_contra hnot
      exact hverify ⟨i, token, opts, stage, heq ▸ hi, not_exists.mp hnot⟩
    have hcrossing : r.crossing = 0 := by
      rw [h.crossing]
      refine List.countP_eq_zero.mpr fun v hv hcross => ?_
      cases v with
      | load swap => cases hcross
      | verify token opts stage =>
        obtain ⟨result, rfl⟩ := hreturned hv rfl
        cases hcross
    have hreaders (s : Nat) : (r.setOf s).readers = 0 := by
      rw [h.readers s]
      refine List.countP_eq_zero.mpr fun v hv hpins => ?_
      cases v with
      | load swap => cases hpins
      | verify token opts stage =>
        obtain ⟨result, rfl⟩ := hreturned hv rfl
        cases hpins
    by_cases hload : ∃ (i : Nat) (swap : Swap), r.callers[i]? = some (.load swap) ∧ swap ≠ .finished
    · obtain ⟨i, swap, hi, hswap⟩ := hload
      obtain ⟨r', later, hgo, hcallers, hlt⟩ := goLoad_some (i := i) hcrossing hreaders hswap
      refine .inr ⟨i, r', ?_, remaining_set hi hcallers hlt, by rw [hcallers, List.length_set]⟩
      rw [Ring.act, hi]
      exact hgo
    · refine .inl fun v hv => ?_
      cases v with
      | verify token opts stage =>
        obtain ⟨result, rfl⟩ := hreturned hv rfl
        rfl
      | load swap =>
        obtain ⟨i, hi⟩ := List.mem_iff_getElem?.mp hv
        by_contra hnot
        refine hload ⟨i, swap, hi, ?_⟩
        rintro rfl
        exact hnot rfl

/-- From any state all calls can come to their end, with no call besides them. -/
theorem Pinned.ends (h : Pinned r) (c : Crypto) (js : Json Claims) :
    ∃ moves r', (∀ m ∈ moves, ∃ i, m = .go i) ∧
    r.run c js moves = some r' ∧ ∀ v ∈ r'.callers, v.isDone = true := by
  induction hn : r.remaining using Nat.strong_induction_on generalizing r with
  | _ n ih =>
    rcases h.goes c js with hdone | ⟨i, mid, hact, hlt, _⟩
    · exact ⟨[], r, by simp, rfl, hdone⟩
    · obtain ⟨moves, r', hmoves, hrun, hends⟩ := ih mid.remaining (hn ▸ hlt) (h.act hact) rfl
      refine ⟨.go i :: moves, r', ?_, ?_, hends⟩
      · intro m hm
        rcases List.mem_cons.mp hm with rfl | hin
        · exact ⟨i, rfl⟩
        · exact hmoves m hin
      · rw [Ring.run, List.foldlM_cons, hact]
        exact hrun

/-- Where all calls have ended, a set that was replaced was freed. -/
theorem Pinned.all_freed (h : Pinned r) (hdone : ∀ v ∈ r.callers, v.isDone = true) {s : Nat}
    (hs : r.replaced s = true) : (r.setOf s).freed = 1 := by
  have howner := h.owner s
  have hcount : r.callers.countP (Caller.frees s) = 0 := by
    refine List.countP_eq_zero.mpr fun v hv hfrees => ?_
    have hend := hdone v hv
    cases v with
    | verify token opts stage => cases hfrees
    | load swap =>
      cases swap with
      | finished => cases hfrees
      | start keys => cases hend
      | swapped old => cases hend
      | crossed old => cases hend
      | drained old => cases hend
      | cleared old => cases hend
  rw [hs, Bool.toNat_true] at howner
  omega

end Ends

/-! ## Every interleaving -/

/-- In every interleaving of calls on a ring:

* a set whose pointer a `verify` has loaded, or that a `load` still waits for, is not freed;
* the current set is not freed;
* a set that was replaced is in the hands of one `load`, or was freed, once;
* and the calls can go on until all have ended, when every set that was replaced was freed, once. -/
theorem run_freed {c : Crypto} {js : Json Claims} (memo : Option (Nat × (Nat → Digest)))
    (moves : List Move) {r : Ring Claims} (hrun : (Ring.init memo).run c js moves = some r) :
    (∀ v ∈ r.callers, ∀ s, (v.holds s || v.pins s || v.frees s) = true → (r.setOf s).freed = 0) ∧
      (r.setOf r.current).freed = 0 ∧
      (∀ s, r.replaced s = true →
        (r.setOf s).freed + r.callers.countP (Caller.frees s) = 1) ∧
      ∃ more r', (∀ m ∈ more, ∃ i, m = .go i) ∧ r.run c js more = some r' ∧
        (∀ v ∈ r'.callers, v.isDone = true) ∧
        ∀ s, r'.replaced s = true → (r'.setOf s).freed = 1 := by
  have hinv := (pinned_init memo).run hrun
  refine ⟨fun v hv s hs => ?_, hinv.current_unfreed, fun s hs => ?_, ?_⟩
  · rw [Bool.or_eq_true, Bool.or_eq_true] at hs
    rcases hs with (hs | hs) | hs
    · exact hinv.unfreed hv hs
    · exact hinv.unfreed hv (Caller.holds_of_pins hs)
    · have howner := hinv.owner s
      have hcount : 0 < r.callers.countP (Caller.frees s) := List.countP_pos_iff.mpr ⟨v, hv, hs⟩
      have hle : (r.replaced s).toNat ≤ 1 := Bool.toNat_le _
      omega
  · have howner := hinv.owner s
    rw [hs, Bool.toNat_true] at howner
    exact howner
  · obtain ⟨more, r', hmore, hgo, hdone⟩ := hinv.ends c js
    exact ⟨more, r', hmore, hgo, hdone, fun s hs => (hinv.run hgo).all_freed hdone hs⟩

/-- A `load` swaps while a `verify` has the old pointer and has not counted itself yet. -/
def crossed : List Move :=
  [.verify exampleToken ⟨.unchecked, .unchecked, 0, 0⟩, .go 0, .go 0, .load exampleKeys, .go 1, .go 1,
    .go 0, .go 0, .go 1, .go 1]

theorem run_freed_crossed : ∃ r : Ring Unit,
    (Ring.init none).run exampleCrypto exampleJson crossed = some r ∧
      ∃ v ∈ r.callers, v.holds 0 = true ∧ r.replaced 0 = true ∧ (r.setOf 0).freed = 0 := by
  have hrun : ((Ring.init none).run exampleCrypto exampleJson crossed).map
      (fun r => (r.callers.any (Caller.holds 0), r.replaced 0)) = some (true, true) := by
    decide
  obtain ⟨r, hr, heq⟩ := Option.map_eq_some_iff.mp hrun
  simp only [Prod.mk.injEq] at heq
  obtain ⟨v, hv, hholds⟩ := List.any_eq_true.mp heq.1
  refine ⟨r, hr, v, hv, hholds, heq.2, ?_⟩
  exact (run_freed none crossed hr).1 v hv 0 (by simp [hholds])

end Nilo.Jwt
