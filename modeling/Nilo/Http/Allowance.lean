import Mathlib.Algebra.Group.Nat.Defs
import Mathlib.Data.List.Basic
import Mathlib.Data.List.Count

/-!
# The allowance of an address (`chargeWith`, `take`, `Slot` in `http/allowance.zig`)

A bucket is a few slots of one word each, read and swapped atomically by calls that run at
once. A call reads the clock when it starts, looks for its address among the ways of its
bucket, and either counts itself against the slot it finds or takes the oldest way over. Each
load and each swap is a step of its own here; `World.run` is any interleaving of them, with
the clock going on and other addresses writing the other ways.

The window a slot counts is kept modulo `2 ^ 16`, so a call that read the clock in an earlier
window than the slot is in takes the slot for a very old one. `orderly` is that no swap is made by
such a call.
-/

namespace Nilo.Allowance

/-! ## One charge -/

/-- One address's state, in one word. -/
structure Slot where
  /-- Requests counted in `window`. -/
  cur : Nat
  /-- Requests counted in the window before it. -/
  prev : Nat
  /-- Which window `cur` counts, modulo `2 ^ 16`. -/
  window : Nat
  /-- Whose slot this is; zero is empty. -/
  fp : Nat
deriving DecidableEq, Repr

/-- What every call of one allowance is made with. -/
structure Options where
  perWindow : Nat
  windowNs : Nat
deriving DecidableEq, Repr

/-- The wrapping subtraction of two windows. -/
def age (window was : Nat) : Nat := (window + 2 ^ 16 - was) % 2 ^ 16

/-- The arithmetic of `take`: the slot to swap in and what is left of the allowance, or
nothing when there is no room. -/
def takeOne (o : Options) (was : Slot) (window into : Nat) : Option (Slot × Nat) :=
  let old := age window was.window
  let cur := if old = 0 then was.cur else 0
  let prev := if old = 0 then was.prev else if old = 1 then was.cur else 0
  let carried := prev * (o.windowNs - into) / o.windowNs
  if o.perWindow ≤ carried + cur then none
  else some (⟨cur + 1, prev, window, was.fp⟩, o.perWindow - (carried + (cur + 1)))

/-! ## A call -/

/-- What a charge decided. -/
structure Verdict where
  allowed : Bool
  remaining : Option Nat
deriving DecidableEq, Repr

/-- Where a call stands: the next thing it does to the bucket. -/
inductive Phase where
  /-- Load way `i`, with the oldest way seen so far. -/
  | scan (i oldest oldestAge : Nat)
  /-- Load the way it found itself in again. -/
  | found (i : Nat)
  /-- Swap what `take` worked out. -/
  | swap (i : Nat) (was fresh : Slot) (left : Nat)
  /-- Load the way to take over. -/
  | insert (i : Nat)
  /-- Swap a fresh slot in. -/
  | place (i : Nat) (was fresh : Slot)
  | done (verdict : Verdict)
deriving DecidableEq, Repr

/-- A call in progress. -/
structure Call where
  /-- The window its clock reading was in. -/
  index : Nat
  into : Nat
  tries : Nat
  ours : Bool
  phase : Phase
deriving DecidableEq, Repr

namespace Call

/-- The window as the slot keeps it. -/
def window (c : Call) : Nat := c.index % 2 ^ 16

/-- A call that starts when the clock says `now`. -/
def start (o : Options) (now : Nat) : Call :=
  ⟨now / o.windowNs, now % o.windowNs, 0, false, .scan 0 0 0⟩

/-- On to the next try, or out of tries: whose contention it was decides. -/
def again (c : Call) : Call :=
  if c.tries + 1 < 4 then { c with tries := c.tries + 1, phase := .scan 0 0 0 }
  else { c with tries := c.tries + 1, phase := .done ⟨!c.ours, none⟩ }

def finish (c : Call) (v : Verdict) : Call := { c with phase := .done v }

/-- Load one way of the bucket, looking for this address and for the oldest. -/
def scan (fp : Nat) (bucket : List Slot) (c : Call) (i oldest oldestAge : Nat) : Call :=
  match bucket[i]? with
  | none => { c with phase := .insert oldest }
  | some was =>
    if was.fp = fp then { c with ours := true, phase := .found i }
    else
      let old := age c.window was.window
      let pick :=
        if was.fp = 0 then (i, 2 ^ 16 - 1)
        else if old > oldestAge then (i, old)
        else (oldest, oldestAge)
      if i + 1 < bucket.length then { c with phase := .scan (i + 1) pick.1 pick.2 }
      else { c with phase := .insert pick.1 }

/-- One step of a call: it may change one way of the bucket. A swap may fail though nothing
changed (`cmpxchgWeak`). -/
def step (o : Options) (fp : Nat) (bucket : List Slot) (c : Call) (spurious : Bool) :
    Call × List Slot :=
  match c.phase with
  | .scan i oldest oldestAge => (c.scan fp bucket i oldest oldestAge, bucket)
  | .found i =>
    match bucket[i]? with
    | none => (c, bucket)
    | some was =>
      if was.fp ≠ fp then (c.again, bucket)
      else match takeOne o was c.window c.into with
        | none => (c.finish ⟨false, some 0⟩, bucket)
        | some (fresh, left) => ({ c with phase := .swap i was fresh left }, bucket)
  | .swap i was fresh left =>
    if spurious = false ∧ bucket[i]? = some was then
      (c.finish ⟨true, some left⟩, bucket.set i fresh)
    else (c.again, bucket)
  | .insert i =>
    match bucket[i]? with
    | none => (c, bucket)
    | some was =>
      if was.fp = fp then (c.again, bucket)
      else ({ c with phase := .place i was ⟨1, 0, c.window, fp⟩ }, bucket)
  | .place i was fresh =>
    if spurious = false ∧ bucket[i]? = some was then
      (c.finish ⟨true, some (o.perWindow - 1)⟩, bucket.set i fresh)
    else (c.again, bucket)
  | .done _ => (c, bucket)

end Call

/-! ## Any interleaving -/

/-- A bucket, the calls of one client that run on it, the clock, and the windows its requests
were let through in. -/
structure World where
  bucket : List Slot
  calls : List Call
  now : Nat
  admitted : List Nat
deriving DecidableEq, Repr

/-- What happens next. -/
inductive Act where
  | tick (d : Nat)
  | arrive
  | step (k : Nat) (spurious : Bool)
  /-- Another address writes one of its own ways. -/
  | other (i : Nat) (slot : Slot)
deriving DecidableEq, Repr

/-- A call is let through at this step. -/
def lets (before after : Call) : Bool :=
  match before.phase, after.phase with
  | .done _, _ => false
  | _, .done v => v.allowed
  | _, _ => false

namespace World

/-- One step of the world. The client `fp` keeps way `own`: nobody else writes it, and nobody
else has its fingerprint. -/
def act (o : Options) (fp own : Nat) (w : World) : Act → World
  | .tick d => { w with now := w.now + d }
  | .arrive => { w with calls := w.calls ++ [Call.start o w.now] }
  | .step k spurious =>
    match w.calls[k]? with
    | none => w
    | some c =>
      let (c', bucket) := c.step o fp w.bucket spurious
      { w with
        bucket := bucket
        calls := w.calls.set k c'
        admitted := if lets c c' then c.index :: w.admitted else w.admitted }
  | .other i slot =>
    if i ≠ own ∧ slot.fp ≠ fp then { w with bucket := w.bucket.set i slot } else w

def run (o : Options) (fp own : Nat) (w : World) (acts : List Act) : World :=
  acts.foldl (act o fp own) w

end World

/-! ## What is promised -/

variable {o : Options} {fp own : Nat} {w : World}

/-- A client that has its slot, before any of its calls: way `own` has its fingerprint and no
other way does, and the slot counts a window the clock has come to. -/
structure Begins (o : Options) (fp own : Nat) (w : World) : Prop where
  calls : w.calls = []
  admitted : w.admitted = []
  others : ∀ i slot, i ≠ own → w.bucket[i]? = some slot → slot.fp ≠ fp
  slot : ∃ slot top, w.bucket[own]? = some slot ∧ slot.fp = fp ∧ slot.window = top % 2 ^ 16 ∧
    top ≤ w.now / o.windowNs

/-- No more requests were let through in one window than the allowance says, and those let
through in the newest are counted in the slot. -/
structure Within (o : Options) (own : Nat) (w : World) : Prop where
  admitted : ∀ v, w.admitted.count v ≤ o.perWindow
  kept : ∀ slot v, w.bucket[own]? = some slot → v ∈ w.admitted → (∀ u ∈ w.admitted, u ≤ v) →
    slot.window = v % 2 ^ 16 ∧ w.admitted.count v ≤ slot.cur

/-- A swap that succeeds is made by a call whose clock reading is in no earlier window than
any charge already taken. -/
def punctual (w : World) : Act → Bool
  | .step k false =>
    match w.calls[k]? with
    | none => true
    | some c =>
      match c.phase with
      | .swap i was _ _ => decide (w.bucket[i]? ≠ some was) || w.admitted.all (· ≤ c.index)
      | _ => true
  | _ => true

/-- Every step of a run is. -/
def orderly (o : Options) (fp own : Nat) : List Act → World → Bool
  | [], _ => true
  | a :: acts, w => punctual w a && orderly o fp own acts (w.act o fp own a)

theorem punctual_swap {k i left : Nat} {c : Call} {was fresh : Slot}
    (h : punctual w (.step k false) = true) (hk : w.calls[k]? = some c)
    (hphase : c.phase = .swap i was fresh left) (hi : w.bucket[i]? = some was) :
    ∀ v ∈ w.admitted, v ≤ c.index := by
  simp only [punctual, hk, hphase, hi, ne_eq, not_true_eq_false, decide_false, Bool.false_or,
    List.all_eq_true, decide_eq_true_eq] at h
  exact h

/-! ## The invariant -/

/-- A call of a client that has its slot never gets past it. -/
def Phase.Fits (o : Options) (own : Nat) (c : Call) : Phase → Prop
  | .scan i _ _ => i ≤ own ∧ (c.tries ≠ 0 → c.ours = true)
  | .found i => i = own ∧ c.ours = true
  | .swap i was fresh left => i = own ∧ c.ours = true ∧
      takeOne o was c.window c.into = some (fresh, left)
  | .insert _ => False
  | .place _ _ _ => False
  | .done _ => True

/-- The windows requests were let through in, against the slot. -/
structure Counted (o : Options) (slot : Slot) (top : Nat) (admitted : List Nat) : Prop where
  window : slot.window = top % 2 ^ 16
  newest : ∀ v ∈ admitted, v ≤ top
  count : admitted.count top ≤ slot.cur
  within : ∀ v, admitted.count v ≤ o.perWindow

structure Inv (o : Options) (fp own : Nat) (t₀ : Nat) (w : World) : Prop where
  others : ∀ i slot, i ≠ own → w.bucket[i]? = some slot → slot.fp ≠ fp
  slot : ∃ slot top, w.bucket[own]? = some slot ∧ slot.fp = fp ∧ t₀ ≤ top ∧
    (top ∈ w.admitted ∨ top = t₀) ∧ Counted o slot top w.admitted
  calls : ∀ c ∈ w.calls, c.phase.Fits o own c ∧ t₀ ≤ c.index
  clock : t₀ ≤ w.now / o.windowNs
  since : ∀ v ∈ w.admitted, t₀ ≤ v

theorem Begins.inv (h : Begins o fp own w) : ∃ t₀, Inv o fp own t₀ w := by
  obtain ⟨slot, top, hslot, hfp, hwindow, htop⟩ := h.slot
  refine ⟨top, h.others, ⟨slot, top, hslot, hfp, Nat.le_refl _, .inr rfl, ?_⟩, ?_, htop, ?_⟩
  · refine ⟨hwindow, ?_, ?_, ?_⟩ <;> simp [h.admitted]
  · simp [h.calls]
  · simp [h.admitted]

theorem Inv.within {t₀ : Nat} (h : Inv o fp own t₀ w) : Within o own w := by
  obtain ⟨slot, top, hslot, -, -, htop, hcount⟩ := h.slot
  refine ⟨hcount.within, ?_⟩
  intro slot' v hslot' hv hnewest
  rw [hslot] at hslot'
  cases hslot'
  have heq : v = top := by
    refine Nat.le_antisymm (hcount.newest v hv) ?_
    rcases htop with htop | rfl
    · exact hnewest top htop
    · exact h.since v hv
  subst heq
  exact ⟨hcount.window, hcount.count⟩

/-! ## One step -/

variable {t₀ : Nat}

theorem takeOne_some {was fresh : Slot} {window into left : Nat}
    (h : takeOne o was window into = some (fresh, left)) :
    fresh.window = window ∧ fresh.fp = was.fp ∧ fresh.cur ≤ o.perWindow ∧
      fresh.cur = (if age window was.window = 0 then was.cur else 0) + 1 := by
  simp only [takeOne, Option.ite_none_left_eq_some, Option.some.injEq, Prod.mk.injEq] at h
  obtain ⟨hroom, rfl, -⟩ := h
  exact ⟨rfl, rfl, Nat.lt_of_le_of_lt (Nat.le_add_left _ _) (Nat.lt_of_not_le hroom), rfl⟩

/-- A charge that is not behind the slot is counted on top of those of its window. -/
theorem Counted.take {slot fresh : Slot} {top index into left : Nat} {admitted : List Nat}
    (h : Counted o slot top admitted) (hindex : top ≤ index)
    (htake : takeOne o slot (index % 2 ^ 16) into = some (fresh, left)) :
    Counted o fresh index (index :: admitted) ∧ fresh.fp = slot.fp := by
  obtain ⟨hwindow, hfp, hroom, hcur⟩ := takeOne_some htake
  have hcount : admitted.count index + 1 ≤ fresh.cur := by
    rw [hcur]
    rcases Nat.eq_or_lt_of_le hindex with rfl | hlt
    · have hage : age (top % 2 ^ 16) slot.window = 0 := by
        rw [h.window, age]
        omega
      rw [if_pos hage]
      exact Nat.succ_le_succ h.count
    · have hnone : admitted.count index = 0 := by
        refine List.count_eq_zero.2 fun hmem => ?_
        have := h.newest index hmem
        omega
      rw [hnone]
      omega
  refine ⟨⟨hwindow, ?_, ?_, ?_⟩, hfp⟩
  · intro v hv
    rcases List.mem_cons.1 hv with rfl | hv
    · exact Nat.le_refl _
    · exact Nat.le_trans (h.newest v hv) hindex
  · rw [List.count_cons_self]
    exact hcount
  · intro v
    by_cases hv : v = index
    · subst hv
      rw [List.count_cons_self]
      omega
    · rw [List.count_cons_of_ne (fun he => hv he.symm)]
      exact h.within v

/-- A call that tries again, or has no tries left, is one that knows its slot: it is not let
through. -/
theorem again_fits {c : Call} (hours : c.ours = true) :
    c.again.phase.Fits o own c.again ∧ c.again.index = c.index ∧
      ∀ v, c.again.phase = .done v → v.allowed = false := by
  unfold Call.again
  split_ifs
  · exact ⟨⟨Nat.zero_le _, fun _ => hours⟩, rfl, by simp⟩
  · refine ⟨trivial, rfl, ?_⟩
    intro v hv
    cases hv
    simp [hours]

/-- What a step of a call does to a client that has its slot: nothing, or a charge. -/
inductive Moves (o : Options) (own : Nat) (bucket : List Slot) (c : Call) (spurious : Bool) :
    Call × List Slot → Prop
  | quiet (c' : Call) : c'.phase.Fits o own c' → c'.index = c.index → lets c c' = false →
    Moves o own bucket c spurious (c', bucket)
  | charge (c' : Call) (was fresh : Slot) (left : Nat) : c'.phase.Fits o own c' →
    c'.index = c.index → lets c c' = true → spurious = false → bucket[own]? = some was →
    takeOne o was c.window c.into = some (fresh, left) → c.phase = .swap own was fresh left →
    Moves o own bucket c spurious (c', bucket.set own fresh)

theorem lets_false_of {c c' : Call} (h : ∀ v, c'.phase = .done v → v.allowed = false) :
    lets c c' = false := by
  unfold lets
  split
  · rfl
  · rename_i v hv _
    exact h v hv
  · rfl

theorem step_moves {c : Call} {spurious : Bool} {slot : Slot}
    (hother : ∀ i s, i ≠ own → w.bucket[i]? = some s → s.fp ≠ fp)
    (hslot : w.bucket[own]? = some slot) (hfp : slot.fp = fp) (hc : c.phase.Fits o own c) :
    Moves o own w.bucket c spurious (c.step o fp w.bucket spurious) := by
  unfold Call.step
  cases hphase : c.phase with
  | scan i oldest oldestAge =>
    rw [hphase] at hc
    obtain ⟨hi, hours⟩ := hc
    have hlt : i < w.bucket.length := by
      have := (List.getElem?_eq_some_iff.1 hslot).1
      omega
    have hget := List.getElem?_eq_getElem hlt
    simp only [Call.scan, hget]
    by_cases hmine : w.bucket[i].fp = fp
    · have hown : i = own := by
        by_contra hne
        exact hother i _ hne hget hmine
      rw [if_pos hmine]
      exact .quiet _ ⟨hown, rfl⟩ rfl (lets_false_of (by simp))
    · have hne : i ≠ own := by
        rintro rfl
        rw [hget] at hslot
        cases hslot
        exact hmine hfp
      have hmore : i + 1 < w.bucket.length := by
        have := (List.getElem?_eq_some_iff.1 hslot).1
        omega
      rw [if_neg hmine, if_pos hmore]
      exact .quiet _ ⟨by omega, hours⟩ rfl (lets_false_of (by simp))
  | found i =>
    rw [hphase] at hc
    obtain ⟨rfl, hours⟩ := hc
    simp only [hslot, hfp, ne_eq, not_true_eq_false, if_false]
    cases htake : takeOne o slot c.window c.into with
    | none => exact .quiet _ trivial rfl (lets_false_of (by simp [Call.finish]))
    | some p => exact .quiet _ ⟨rfl, hours, htake⟩ rfl (lets_false_of (by simp))
  | swap i was fresh left =>
    rw [hphase] at hc
    obtain ⟨rfl, hours, htake⟩ := hc
    simp only
    split_ifs with hswap
    · exact .charge _ was fresh left trivial rfl (by simp [lets, hphase, Call.finish]) hswap.1
        hswap.2 htake hphase
    · obtain ⟨hfits, hindex, hdone⟩ := again_fits hours
      exact .quiet _ hfits hindex (lets_false_of hdone)
  | insert i =>
    rw [hphase] at hc
    exact hc.elim
  | place i was fresh =>
    rw [hphase] at hc
    exact hc.elim
  | done v =>
    refine .quiet c (by rw [hphase]; trivial) rfl ?_
    simp [lets, hphase]

/-- One step of the world keeps the invariant, unless a call behind the slot swaps. -/
theorem Inv.act (h : Inv o fp own t₀ w) {a : Act} (hp : punctual w a = true) :
    Inv o fp own t₀ (w.act o fp own a) := by
  obtain ⟨slot, top, hslot, hfp, ht₀, htop, hcount⟩ := h.slot
  cases a with
  | tick d =>
    refine ⟨h.others, h.slot, h.calls, ?_, h.since⟩
    exact Nat.le_trans h.clock (Nat.div_le_div_right (Nat.le_add_right _ _))
  | arrive =>
    refine ⟨h.others, h.slot, ?_, h.clock, h.since⟩
    intro c hc
    rcases List.mem_append.1 hc with hc | hc
    · exact h.calls c hc
    · obtain rfl := List.mem_singleton.1 hc
      exact ⟨⟨Nat.zero_le _, fun hne => absurd rfl hne⟩, h.clock⟩
  | other i s =>
    simp only [World.act]
    split_ifs with hi
    · have hne : i ≠ own := hi.1
      refine ⟨?_, ⟨slot, top, ?_, hfp, ht₀, htop, hcount⟩, h.calls, h.clock, h.since⟩
      · intro j s' hj hs'
        simp only [List.getElem?_set] at hs'
        split_ifs at hs' with hij
        · cases hs'
          exact hi.2
        · exact h.others j s' hj hs'
      · rw [List.getElem?_set_ne hne]
        exact hslot
    · exact h
  | step k spurious =>
    simp only [World.act]
    cases hk : w.calls[k]? with
    | none => exact h
    | some c =>
      obtain ⟨hfits, hsince⟩ := h.calls c (List.mem_of_getElem? hk)
      have hmoves : Moves o own w.bucket c spurious (c.step o fp w.bucket spurious) :=
        step_moves h.others hslot hfp hfits
      have hcalls : ∀ {c' : Call}, c'.phase.Fits o own c' → c'.index = c.index →
          ∀ d ∈ w.calls.set k c', d.phase.Fits o own d ∧ t₀ ≤ d.index := by
        intro c' hc' hindex d hd
        rcases List.mem_or_eq_of_mem_set hd with hd | rfl
        · exact h.calls d hd
        · exact ⟨hc', by rw [hindex]; exact hsince⟩
      simp only
      generalize c.step o fp w.bucket spurious = r at hmoves ⊢
      cases hmoves with
      | quiet c' hc' hindex hlets =>
        simp only [hlets, Bool.false_eq_true, if_false]
        exact ⟨h.others, h.slot, hcalls hc' hindex, h.clock, h.since⟩
      | charge c' was fresh left hc' hindex hlets hspurious hwas htake hphase =>
        subst hspurious
        simp only [hlets, if_true]
        rw [hslot] at hwas
        cases hwas
        have hbehind : top ≤ c.index := by
          rcases htop with htop | rfl
          · exact punctual_swap hp hk hphase hslot top htop
          · exact hsince
        obtain ⟨hcount', hfp'⟩ := hcount.take hbehind htake
        have hlt := (List.getElem?_eq_some_iff.1 hslot).1
        refine ⟨?_, ⟨fresh, c.index, ?_, hfp'.trans hfp, hsince, .inl List.mem_cons_self, hcount'⟩,
          hcalls hc' hindex, h.clock, ?_⟩
        · intro j s hj hs
          rw [List.getElem?_set_ne (fun he => hj he.symm)] at hs
          exact h.others j s hj hs
        · rw [List.getElem?_set_self hlt]
        · intro v hv
          rcases List.mem_cons.1 hv with rfl | hv
          · exact hsince
          · exact h.since v hv

theorem Inv.run : ∀ {acts : List Act} {w : World}, Inv o fp own t₀ w →
    orderly o fp own acts w = true →
    Inv o fp own t₀ (w.run o fp own acts)
  | [], _, h, _ => h
  | a :: acts, w, h, hp => by
    unfold World.run
    rw [List.foldl_cons]
    obtain ⟨hact, hrest⟩ := Bool.and_eq_true_iff.1 hp
    exact (h.act hact).run hrest

/-! ## Whole runs -/

/-- Whatever the interleaving, a client that keeps its slot is let through no more often in a
window than its allowance says, and what was let through in the newest window is counted, as
long as no swap is made by a call that is behind. -/
theorem run_within {acts : List Act} (h : Begins o fp own w) 
    (hp : orderly o fp own acts w = true) :
    Within o own (w.run o fp own acts) := by
  obtain ⟨t₀, hinv⟩ := h.inv
  exact (hinv.run hp).within

/-- One request in a window of ten nanoseconds. -/
def single : Options := ⟨1, 10⟩

/-- A client whose slot is empty of charges, in the first window. -/
def fresh : World := ⟨[⟨0, 0, 0, 7⟩], [], 0, []⟩

/-- The steps of one call that finds its slot at once. -/
def whole (k : Nat) : List Act := [.step k false, .step k false, .step k false]

/-- A call starts in the first window and is held up; one of the second window is let through;
the first swaps; another of the second window is let through. -/
def heldUp : List Act :=
  [.arrive, .tick 19, .arrive] ++ whole 1 ++ whole 0 ++ [.arrive] ++ whole 2

theorem fresh_begins : Begins single 7 0 fresh := by
  refine ⟨rfl, rfl, ?_, ⟨0, 0, 0, 7⟩, 0, rfl, rfl, rfl, Nat.zero_le _⟩
  intro i slot hi hslot
  cases i with
  | zero => exact absurd rfl hi
  | succ i => simp [fresh] at hslot

/-- Two requests in a window that allows one. -/
theorem not_within_heldUp : Begins single 7 0 fresh ∧
    ¬ Within single 0 (fresh.run single 7 0 heldUp) := by
  refine ⟨fresh_begins, ?_⟩
  intro hw
  have htwice : (fresh.run single 7 0 heldUp).admitted.count 1 = 2 := by decide
  have hle := hw.admitted 1
  rw [htwice] at hle
  exact absurd hle (by decide)

/-- The same calls, none held up: the second of its window is refused. -/
def inTurn : List Act :=
  [.arrive] ++ whole 0 ++ [.tick 19, .arrive] ++ whole 1 ++ [.arrive] ++ whole 2

theorem run_within_inTurn : Within single 0 (fresh.run single 7 0 inTurn) :=
  run_within fresh_begins (by decide)

end Nilo.Allowance
