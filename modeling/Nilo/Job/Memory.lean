import Nilo.Lib.Slots
import Nilo.Std.Text

/-!
# The queue in this process (`job/memory.zig`)

A fixed number of slots, each free or holding a row: queued, running under a lease, or
dead. Every operation is one hold of the queue's lock and edits slots in place. A row is
under the number it was given when it was pushed; the calls of a worker about a row it
holds are fenced on the number of attempts its claim counted.

An operation answers beside the queue it leaves, so that what a refusal leaves behind is
something to prove. Times are microseconds, counters are natural numbers (a count past its
width traps in the source), and a text is its bytes: an empty unique key is no key.
-/

namespace Nilo.Job

open Text (Bytes)

/-! ## The contract (`job/contract.zig`) -/

abbrev Id := Nat

/-- `max_kind`, `max_unique` and `max_error`. -/
def maxName : Nat := 64

/-- The name of a kind: `Jobs` refuses a longer one while compiling. -/
abbrev Kind := { name : Bytes // name.length ≤ maxName }

inductive Priority where
  | high
  | normal
  | low
deriving DecidableEq, Repr

/-- The number behind a priority: the smallest first. -/
def Priority.rank : Priority → Nat
  | .high => 0
  | .normal => 1
  | .low => 2

/-- What a push says beyond the payload. -/
structure Enqueue where
  runAt : Int
  unique : Option Bytes := none
  priority : Priority := .normal
deriving DecidableEq, Repr

/-- One row a worker has taken. -/
structure Claimed where
  id : Id
  kind : Kind
  payload : Bytes
  attempts : Nat
  runAt : Int
deriving DecidableEq, Repr

inductive Error where
  | queueFull
  | payloadTooLarge
  | uniqueTooLong
  | emptyUniqueKey
  | scheduled
  | outOfMemory
deriving DecidableEq, Repr

/-! ## Slots -/

inductive State where
  | free
  | queued
  | running
  | dead
deriving DecidableEq, Repr

structure Slot where
  state : State := .free
  id : Id := 0
  runAt : Int := 0
  leaseUntil : Int := 0
  priority : Priority := .normal
  /-- When it died. -/
  finishedAt : Int := 0
  attempts : Nat := 0
  payload : Bytes := []
  kind : Kind := ⟨[], Nat.zero_le _⟩
  /-- Empty where the row holds no key. -/
  unique : Bytes := []
  err : Bytes := []
deriving DecidableEq, Repr

namespace Slot

/-- The row waits to be run, or is being run. -/
def live (s : Slot) : Bool := s.state = .queued || s.state = .running

def uniqueIs (s : Slot) (u : Bytes) : Bool := s.unique ≠ [] && s.unique = u

def setError (s : Slot) (e : Bytes) : Slot := { s with err := e.take maxName }

/-- The row in the slot, by its number. -/
def idOf (s : Slot) : Option Id := if s.state = .free then none else some s.id

/-- The key a queued or running row holds. -/
def keyOf (s : Slot) : Option (Kind × Bytes) :=
  if s.live ∧ s.unique ≠ [] then some (s.kind, s.unique) else none

/-- The row may be claimed: it is due, or its lease is over. -/
def due (s : Slot) (now : Int) : Bool :=
  match s.state with
  | .queued => s.runAt ≤ now
  | .running => s.leaseUntil ≤ now
  | _ => false

/-- A claim takes this row rather than the other. -/
def better (s cur : Slot) : Bool :=
  s.priority.rank < cur.priority.rank ||
    (s.priority = cur.priority && s.runAt < cur.runAt)

/-- A worker that knows these kinds may claim the row. -/
def claimable (s : Slot) (kinds : List Kind) (now : Int) : Bool :=
  s.due now && kinds.contains s.kind

/-- The order rows are claimed in: the most urgent first, and among equals the one that has
been due longest. -/
def ahead (s t : Slot) : Prop :=
  s.priority.rank < t.priority.rank ∨ s.priority.rank = t.priority.rank ∧ s.runAt ≤ t.runAt

end Slot

structure Memory where
  slots : List Slot
  maxPayload : Nat
  nextId : Id := 1
deriving DecidableEq, Repr

namespace Memory

/-- `open`, for as many slots as the budget pays for. -/
def opened (count maxPayload : Nat) : Memory :=
  { slots := List.replicate (max count 1) {}, maxPayload }

/-! ## The operations -/

/-- What `push` finds in the slots. -/
inductive Found where
  /-- A queued or running row holds the key. -/
  | taken
  /-- The first slot that is free, if any is. -/
  | free (i : Option Nat)
deriving DecidableEq, Repr

/-- The loop of `push`: the slots from `i` on, with the first free one before them. -/
def scan (kind : Kind) (unique : Option Bytes) : List Slot → Nat → Option Nat → Found
  | [], _, free => .free free
  | s :: rest, i, free =>
    match s.state with
    | .free => scan kind unique rest (i + 1) (free.or (some i))
    | .queued | .running =>
      match unique with
      | some u =>
        if s.kind = kind && s.uniqueIs u then .taken else scan kind unique rest (i + 1) free
      | none => scan kind unique rest (i + 1) free
    | .dead => scan kind unique rest (i + 1) free

/-- What is wrong with what was handed to `push`. -/
def refusal (m : Memory) (payload : Bytes) (enq : Enqueue) : Option Error :=
  if m.maxPayload < payload.length then some .payloadTooLarge
  else match enq.unique with
    | some u =>
      if u.length = 0 then some .emptyUniqueKey
      else if maxName < u.length then some .uniqueTooLong
      else none
    | none => none

def push (m : Memory) (kind : Kind) (payload : Bytes) (enq : Enqueue) :
    Except Error (Option Id) × Memory :=
  match m.refusal payload enq with
  | some e => (.error e, m)
  | none =>
    match scan kind enq.unique m.slots 0 none with
    | .taken => (.ok none, m)
    | .free none => (.error .queueFull, m)
    | .free (some i) =>
      let row : Slot :=
        { state := .queued, id := m.nextId, runAt := enq.runAt, priority := enq.priority
          kind, unique := enq.unique.getD [], payload }
      (.ok (some m.nextId), { m with slots := m.slots.set i row, nextId := m.nextId + 1 })

/-- The better of the row found so far and the one in slot `i`. -/
def keepBetter (best : Option (Nat × Slot)) (i : Nat) (s : Slot) : Nat × Slot :=
  match best with
  | some (b, cur) => if s.better cur then (i, s) else (b, cur)
  | none => (i, s)

/-- The loop of `claim`: the best row among the slots from `i` on and the one found so far. -/
def pick (kinds : List Kind) (now : Int) : List Slot → Nat → Option (Nat × Slot) →
    Option (Nat × Slot)
  | [], _, best => best
  | s :: rest, i, best =>
    if s.claimable kinds now then pick kinds now rest (i + 1) (some (keepBetter best i s))
    else pick kinds now rest (i + 1) best

/-- A row in the hands of the worker that claims it. -/
def taken (s : Slot) (leaseUntil : Int) : Slot :=
  { s with state := .running, leaseUntil, attempts := s.attempts + 1 }

/-- `claim`, with whether the arena has room for the copy. -/
def claim (m : Memory) (room : Bool) (kinds : List Kind) (now leaseUntil : Int) :
    Except Error (Option Claimed) × Memory :=
  if !room then (.error .outOfMemory, m)
  else match pick kinds now m.slots 0 none with
    | none => (.ok none, m)
    | some (i, s) =>
      (.ok (some ⟨s.id, s.kind, s.payload, s.attempts + 1, s.runAt⟩),
        { m with slots := m.slots.set i (taken s leaseUntil) })

def find (m : Memory) (id : Id) : Option Nat :=
  m.slots.findIdx? fun s => s.state ≠ .free && s.id = id

/-- The row, if it is still the claim that `attempts` names. -/
def held (m : Memory) (id : Id) (attempts : Nat) : Option (Nat × Slot) := do
  let i ← m.find id
  let s ← m.slots[i]?
  if s.state ≠ .running || s.attempts ≠ attempts then none else some (i, s)

/-- The calls about a held row: what each makes of it, or nothing and `false`. -/
def fenced (m : Memory) (id : Id) (attempts : Nat) (f : Slot → Slot) : Bool × Memory :=
  match m.held id attempts with
  | none => (false, m)
  | some (i, s) => (true, { m with slots := m.slots.set i (f s) })

def done (m : Memory) (id : Id) (attempts : Nat) : Bool × Memory :=
  m.fenced id attempts fun _ => {}

def retry (m : Memory) (id : Id) (attempts : Nat) (runAt : Int) (err : Bytes) : Bool × Memory :=
  m.fenced id attempts fun s =>
    { s with state := .queued, runAt, leaseUntil := 0 }.setError err

def dead (m : Memory) (id : Id) (attempts : Nat) (err : Bytes) (now : Int) : Bool × Memory :=
  m.fenced id attempts fun s =>
    { s with state := .dead, finishedAt := now, leaseUntil := 0, unique := [] }.setError err

def unkey (m : Memory) (id : Id) (attempts : Nat) : Bool × Memory :=
  m.fenced id attempts fun s => { s with unique := [] }

def release (m : Memory) (id : Id) (attempts : Nat) : Bool × Memory :=
  m.fenced id attempts fun s =>
    { s with state := .queued, leaseUntil := 0, attempts := s.attempts - 1 }

/-- Queue a dead row again, from the first attempt. -/
def retryDead (m : Memory) (id : Id) (now : Int) (scheduledKinds : List Kind) :
    Except Error Bool × Memory :=
  match m.find id with
  | none => (.ok false, m)
  | some i =>
    match m.slots[i]? with
    | none => (.ok false, m)
    | some s =>
      if s.state ≠ .dead then (.ok false, m)
      else if scheduledKinds.contains s.kind then (.error .scheduled, m)
      else
        (.ok true, { m with
          slots := m.slots.set i { s with state := .queued, runAt := now, attempts := 0, err := [] } })

/-- The row is dead, and was before the moment asked for. -/
def swept (before : Int) (s : Slot) : Bool := s.state = .dead && s.finishedAt < before

def sweepDead (m : Memory) (before : Int) : Nat × Memory :=
  (m.slots.countP (swept before),
    { m with slots := m.slots.map fun s => if swept before s then {} else s })

/-- Take a queued row out before it runs. -/
def cancel (m : Memory) (id : Id) : Bool × Memory :=
  match m.find id with
  | none => (false, m)
  | some i =>
    match m.slots[i]? with
    | none => (false, m)
    | some s =>
      if s.state ≠ .queued then (false, m)
      else (true, { m with slots := m.slots.set i { s with state := .free } })

/-! ## What each operation does -/

variable {m : Memory} {kind : Kind} {unique : Option Bytes} {kinds : List Kind} {now : Int}

theorem getElem?_find {id : Id} {i : Nat} (h : m.find id = some i) :
    ∃ s, m.slots[i]? = some s ∧ s.state ≠ .free ∧ s.id = id := by
  obtain ⟨hlt, hp, -⟩ := List.findIdx?_eq_some_iff_getElem.1 h
  refine ⟨m.slots[i], List.getElem?_eq_getElem hlt, ?_⟩
  simpa using hp

theorem held_eq {id : Id} {attempts i : Nat} {s : Slot} (h : m.held id attempts = some (i, s)) :
    m.slots[i]? = some s ∧ s.state = .running ∧ s.id = id ∧ s.attempts = attempts := by
  unfold held at h
  obtain ⟨j, hj, h⟩ := Option.bind_eq_some_iff.1 h
  obtain ⟨t, ht, h⟩ := Option.bind_eq_some_iff.1 h
  obtain ⟨t', ht', -, hid⟩ := getElem?_find hj
  split at h
  · cases h
  · rename_i hno
    obtain ⟨rfl, rfl⟩ := Prod.mk.inj (Option.some.inj h)
    obtain rfl := Option.some.inj (ht.symm.trans ht')
    simp only [Bool.or_eq_true, decide_eq_true_eq, not_or, not_not] at hno
    exact ⟨ht, hno.1, hid, hno.2⟩

/-- A call about a row changes the one its claim still holds, or nothing. -/
theorem fenced_cases (m : Memory) (id : Id) (attempts : Nat) (f : Slot → Slot) :
    m.fenced id attempts f = (false, m) ∨
    ∃ i s, m.slots[i]? = some s ∧ s.state = .running ∧ s.id = id ∧ s.attempts = attempts ∧
      m.fenced id attempts f = (true, { m with slots := m.slots.set i (f s) }) := by
  unfold fenced
  cases hh : m.held id attempts with
  | none => exact .inl rfl
  | some p =>
    obtain ⟨hi, hst, hid, ha⟩ := held_eq hh
    exact .inr ⟨p.1, p.2, hi, hst, hid, ha, rfl⟩

theorem cancel_cases (m : Memory) (id : Id) :
    m.cancel id = (false, m) ∨
    ∃ i s, m.slots[i]? = some s ∧ s.state = .queued ∧ s.id = id ∧
      m.cancel id = (true, { m with slots := m.slots.set i { s with state := .free } }) := by
  unfold cancel
  cases hf : m.find id with
  | none => exact .inl rfl
  | some i =>
    obtain ⟨s, hi, -, hid⟩ := getElem?_find hf
    simp only [hi]
    by_cases hq : s.state = .queued
    · refine .inr ⟨i, s, hi, hq, hid, ?_⟩
      rw [if_neg (not_not.2 hq)]
    · rw [if_pos hq]
      exact .inl rfl

theorem retryDead_cases (m : Memory) (id : Id) (now : Int) (scheduled : List Kind) :
    (m.retryDead id now scheduled).2 = m ∧ (m.retryDead id now scheduled).1 ≠ .ok true ∨
    ∃ i s, m.slots[i]? = some s ∧ s.state = .dead ∧ s.id = id ∧ scheduled.contains s.kind = false ∧
      m.retryDead id now scheduled = (.ok true, { m with
        slots := m.slots.set i
          { s with state := .queued, runAt := now, attempts := 0, err := [] } }) := by
  unfold retryDead
  cases hf : m.find id with
  | none => exact .inl ⟨rfl, nofun⟩
  | some i =>
    obtain ⟨s, hi, -, hid⟩ := getElem?_find hf
    simp only [hi]
    by_cases hd : s.state = .dead
    · rw [if_neg (not_not.2 hd)]
      cases hk : scheduled.contains s.kind with
      | true => exact .inl ⟨rfl, nofun⟩
      | false => exact .inr ⟨i, s, hi, hd, hid, hk, rfl⟩
    · rw [if_pos hd]
      exact .inl ⟨rfl, nofun⟩

/-! ## The loops -/

/-- The loop of `push` says the key is taken just when a queued or running row holds it. -/
theorem scan_taken {u : Bytes} (hu : u ≠ []) : ∀ {l : List Slot} {i : Nat} {free : Option Nat},
    scan kind (some u) l i free = .taken ↔ (kind, u) ∈ l.filterMap Slot.keyOf
  | [], _, _ => by simp [scan]
  | s :: rest, i, free => by
    have hrec : ∀ i free, scan kind (some u) rest i free = .taken ↔
        (kind, u) ∈ rest.filterMap Slot.keyOf := fun _ _ => scan_taken hu
    unfold scan
    cases hs : s.state with
    | free | dead =>
      have hnone : s.keyOf = none := by simp [Slot.keyOf, Slot.live, hs]
      rw [List.filterMap_cons_none hnone]
      exact hrec _ _
    | queued | running =>
      have hlive : s.live = true := by simp [Slot.live, hs]
      dsimp only
      by_cases hk : s.kind = kind ∧ s.unique = u
      · obtain ⟨rfl, rfl⟩ := hk
        have hkey : s.keyOf = some (s.kind, s.unique) := by simp [Slot.keyOf, hlive, hu]
        rw [List.filterMap_cons_some hkey]
        simp [Slot.uniqueIs, hu]
      · have hno : (decide (s.kind = kind) && s.uniqueIs u) = false := by
          simp only [Slot.uniqueIs, Bool.and_eq_false_iff, decide_eq_false_iff_not]
          tauto
        rw [hno, if_neg (by decide), hrec]
        unfold Slot.keyOf
        rw [List.filterMap_cons]
        split
        · exact Iff.rfl
        · rename_i p hp
          split at hp
          · obtain rfl := Option.some.inj hp
            rw [List.mem_cons]
            refine ⟨.inr, fun h => h.resolve_left fun he => hk ?_⟩
            exact ⟨(Prod.mk.inj he).1.symm, (Prod.mk.inj he).2.symm⟩
          · cases hp

/-- The slot it finds is free. -/
theorem scan_free : ∀ {l p : List Slot} {free : Option Nat} {i : Nat},
    (∀ j, free = some j → ∃ s, (p ++ l)[j]? = some s ∧ s.state = .free) →
    scan kind unique l p.length free = .free (some i) →
    ∃ s, (p ++ l)[i]? = some s ∧ s.state = .free
  | [], p, free, i, hf, h => by
    simp only [scan, Found.free.injEq] at h
    exact hf i h
  | s :: rest, p, free, i, hf, h => by
    have hsplit : p ++ s :: rest = (p ++ [s]) ++ rest := by simp
    have hlen : (p ++ [s]).length = p.length + 1 := by simp
    have hrec : ∀ free', (∀ j, free' = some j → ∃ t, (p ++ s :: rest)[j]? = some t ∧
        t.state = .free) → scan kind unique rest (p.length + 1) free' = .free (some i) →
        ∃ t, (p ++ s :: rest)[i]? = some t ∧ t.state = .free := by
      intro free' hf' h'
      rw [hsplit] at hf' ⊢
      rw [← hlen] at h'
      exact scan_free hf' h'
    unfold scan at h
    cases hs : s.state with
    | free =>
      rw [hs] at h
      refine hrec _ ?_ h
      intro j hj
      cases free with
      | none =>
        obtain rfl := Option.some.inj hj
        exact ⟨s, by simp, hs⟩
      | some k => exact hf j hj
    | dead =>
      rw [hs] at h
      exact hrec _ hf h
    | queued | running =>
      rw [hs] at h
      cases unique with
      | none => exact hrec _ hf h
      | some u =>
        dsimp only at h
        split at h
        · cases h
        · exact hrec _ hf h

/-- With no key to look for, nothing is taken. -/
theorem scan_none : ∀ {l : List Slot} {i : Nat} {free : Option Nat},
    scan kind none l i free ≠ .taken
  | [], _, _ => by simp [scan]
  | s :: rest, i, free => by
    unfold scan
    cases s.state <;> exact scan_none

/-- A push is refused, finds its key held, or takes a free slot for a new number. -/
theorem push_cases (m : Memory) (kind : Kind) (payload : Bytes) (enq : Enqueue) :
    (∃ e, m.push kind payload enq = (.error e, m)) ∨
    (m.push kind payload enq = (.ok none, m) ∧
      ∃ u, enq.unique = some u ∧ (kind, u) ∈ m.slots.filterMap Slot.keyOf) ∨
    ∃ i s, ∃ row : Slot, m.slots[i]? = some s ∧ s.state = .free ∧
      row.state = .queued ∧ row.id = m.nextId ∧ row.attempts = 0 ∧ row.kind = kind ∧
      row.unique = enq.unique.getD [] ∧
      (∀ u, enq.unique = some u → u ≠ [] ∧ (kind, u) ∉ m.slots.filterMap Slot.keyOf) ∧
      m.push kind payload enq =
        (.ok (some m.nextId), { m with slots := m.slots.set i row, nextId := m.nextId + 1 }) := by
  unfold push
  cases hr : m.refusal payload enq with
  | some e => exact .inl ⟨e, rfl⟩
  | none =>
    have hne : ∀ u, enq.unique = some u → u ≠ [] := by
      intro u hu hnil
      unfold refusal at hr
      rw [hu, hnil] at hr
      split at hr <;> simp at hr
    cases hs : scan kind enq.unique m.slots 0 none with
    | taken =>
      refine .inr (.inl ⟨rfl, ?_⟩)
      cases hu : enq.unique with
      | none =>
        rw [hu] at hs
        exact absurd hs scan_none
      | some u =>
        rw [hu] at hs
        exact ⟨u, rfl, (scan_taken (hne u hu)).1 hs⟩
    | free o =>
      cases o with
      | none => exact .inl ⟨.queueFull, rfl⟩
      | some i =>
        obtain ⟨s, hi, hfree⟩ : ∃ s, m.slots[i]? = some s ∧ s.state = .free := by
          refine scan_free (p := []) ?_ hs
          intro j hj
          cases hj
        refine .inr (.inr ⟨i, s, _, hi, hfree, rfl, rfl, rfl, rfl, rfl, fun u hu => ?_, rfl⟩)
        refine ⟨hne u hu, fun hmem => ?_⟩
        rw [hu] at hs
        rw [(scan_taken (hne u hu)).2 hmem] at hs
        cases hs

end Memory

theorem Priority.rank_inj {p q : Priority} (h : p.rank = q.rank) : p = q := by
  cases p <;> cases q <;> first | rfl | cases h

namespace Slot

variable {s t r : Slot}

theorem live_of_claimable {kinds : List Kind} {now : Int} (h : s.claimable kinds now = true) :
    s.live = true := by
  unfold claimable due at h
  unfold live
  cases hst : s.state <;> simp_all

theorem ne_free_of_live (h : s.live = true) : s.state ≠ .free := by
  intro hf
  simp [live, hf] at h

/-- Two queued or running rows of a kind with the same key hold it alike. -/
theorem keyOf_eq_of_live (hs : s.live = true) (ht : t.live = true) (hk : s.kind = t.kind)
    (hu : s.unique = t.unique) : s.keyOf = t.keyOf := by
  simp only [keyOf, hs, ht, hk, hu]

theorem better_iff : s.better t = true ↔
    s.priority.rank < t.priority.rank ∨ s.priority.rank = t.priority.rank ∧ s.runAt < t.runAt := by
  simp only [better, Bool.or_eq_true, Bool.and_eq_true, decide_eq_true_eq]
  refine or_congr_right (and_congr_left' ⟨fun h => h ▸ rfl, Priority.rank_inj⟩)

theorem ahead_refl : s.ahead s := .inr ⟨rfl, Int.le_refl _⟩

theorem ahead_trans (h : s.ahead t) (ht : t.ahead r) : s.ahead r := by
  unfold ahead at h ht ⊢
  omega

theorem ahead_of_better (h : s.better t = true) : s.ahead t := by
  rw [better_iff] at h
  unfold ahead
  omega

theorem ahead_of_not_better (h : ¬ s.better t = true) : t.ahead s := by
  rw [better_iff] at h
  unfold ahead
  omega

end Slot

namespace Memory

variable {m : Memory} {kinds : List Kind} {now leaseUntil : Int}

theorem keepBetter_ahead {best : Option (Nat × Slot)} {i : Nat} {t : Slot} :
    (keepBetter best i t).2.ahead t ∧ ∀ b, best = some b → (keepBetter best i t).2.ahead b.2 := by
  cases best with
  | none => exact ⟨Slot.ahead_refl, nofun⟩
  | some p =>
    obtain ⟨j, cur⟩ := p
    dsimp only [keepBetter]
    by_cases hb : t.better cur = true
    · rw [if_pos hb]
      refine ⟨Slot.ahead_refl, fun b he => ?_⟩
      obtain rfl := Option.some.inj he
      exact Slot.ahead_of_better hb
    · rw [if_neg hb]
      refine ⟨Slot.ahead_of_not_better hb, fun b he => ?_⟩
      obtain rfl := Option.some.inj he
      exact Slot.ahead_refl

theorem keepBetter_mem {best : Option (Nat × Slot)} {i : Nat} {t : Slot} :
    keepBetter best i t = (i, t) ∨ best = some (keepBetter best i t) := by
  cases best with
  | none => exact .inl rfl
  | some p =>
    obtain ⟨j, cur⟩ := p
    dsimp only [keepBetter]
    split
    · exact .inl rfl
    · exact .inr rfl

/-- The loop of `claim` ends with the row found so far or a better one of the slots left. -/
theorem pick_spec : ∀ {l p : List Slot} {best : Option (Nat × Slot)},
    (∀ b, best = some b → (p ++ l)[b.1]? = some b.2 ∧ b.2.claimable kinds now = true) →
    (pick kinds now l p.length best = none →
      best = none ∧ ∀ t ∈ l, t.claimable kinds now = false) ∧
    ∀ i s, pick kinds now l p.length best = some (i, s) →
      (p ++ l)[i]? = some s ∧ s.claimable kinds now = true ∧
      (∀ t ∈ l, t.claimable kinds now = true → s.ahead t) ∧
      ∀ b, best = some b → s.ahead b.2
  | [], p, best, hb => by
    refine ⟨fun h => ⟨h, nofun⟩, fun i s h => ?_⟩
    have h : best = some (i, s) := h
    obtain ⟨hi, hc⟩ := hb _ h
    refine ⟨hi, hc, nofun, fun b hbest => ?_⟩
    obtain rfl := Option.some.inj (h.symm.trans hbest)
    exact Slot.ahead_refl
  | t :: rest, p, best, hb => by
    have hsplit : p ++ t :: rest = (p ++ [t]) ++ rest := by simp
    have hlen : (p ++ [t]).length = p.length + 1 := by simp
    have hhere : (p ++ t :: rest)[p.length]? = some t := by simp
    rw [pick, hsplit, ← hlen]
    rw [hsplit] at hb hhere
    split
    · rename_i hc
      have hkept : ((p ++ [t]) ++ rest)[(keepBetter best p.length t).1]? =
          some (keepBetter best p.length t).2 ∧
          (keepBetter best p.length t).2.claimable kinds now = true := by
        have hmem : keepBetter best p.length t = (p.length, t) ∨
            best = some (keepBetter best p.length t) := keepBetter_mem
        rcases hmem with he | he
        · rw [he]
          exact ⟨hhere, hc⟩
        · exact hb _ he
      have hb' : ∀ b, some (keepBetter best p.length t) = some b →
          ((p ++ [t]) ++ rest)[b.1]? = some b.2 ∧ b.2.claimable kinds now = true := by
        intro b he
        obtain rfl := Option.some.inj he
        exact hkept
      obtain ⟨hnone, hsome⟩ := pick_spec hb'
      refine ⟨fun h => absurd (hnone h).1 nofun, fun i s h => ?_⟩
      obtain ⟨hi, hs, hrest, hbest⟩ := hsome i s h
      have hahead := hbest _ rfl
      refine ⟨hi, hs, fun u hu hcu => ?_, fun b he => ?_⟩
      · rcases List.mem_cons.1 hu with rfl | hu
        · exact Slot.ahead_trans hahead keepBetter_ahead.1
        · exact hrest u hu hcu
      · exact Slot.ahead_trans hahead (keepBetter_ahead.2 b he)
    · rename_i hc
      obtain ⟨hnone, hsome⟩ := pick_spec (l := rest) (p := p ++ [t]) hb
      refine ⟨fun h => ⟨(hnone h).1, fun u hu => ?_⟩, fun i s h => ?_⟩
      · rcases List.mem_cons.1 hu with rfl | hu
        · exact Bool.eq_false_iff.2 hc
        · exact (hnone h).2 u hu
      · obtain ⟨hi, hs, hrest, hbest⟩ := hsome i s h
        refine ⟨hi, hs, fun u hu hcu => ?_, hbest⟩
        rcases List.mem_cons.1 hu with rfl | hu
        · exact absurd hcu hc
        · exact hrest u hu hcu

/-- A claim that has room for its copy takes the row that is ahead of every other it may
take, or finds none. -/
theorem claim_cases (m : Memory) (room : Bool) (kinds : List Kind) (now leaseUntil : Int) :
    (room = false ∧ m.claim room kinds now leaseUntil = (.error .outOfMemory, m)) ∨
    (room = true ∧ (∀ t ∈ m.slots, t.claimable kinds now = false) ∧
      m.claim room kinds now leaseUntil = (.ok none, m)) ∨
    ∃ i s, room = true ∧ pick kinds now m.slots 0 none = some (i, s) ∧
      m.slots[i]? = some s ∧ s.claimable kinds now = true ∧
      (∀ t ∈ m.slots, t.claimable kinds now = true → s.ahead t) ∧
      m.claim room kinds now leaseUntil =
        (.ok (some ⟨s.id, s.kind, s.payload, s.attempts + 1, s.runAt⟩),
          { m with slots := m.slots.set i (taken s leaseUntil) }) := by
  unfold claim
  cases room with
  | false => exact .inl ⟨rfl, rfl⟩
  | true =>
    have hno : ∀ b : Nat × Slot, none = some b → ([] ++ m.slots)[b.1]? = some b.2 ∧
        b.2.claimable kinds now = true := by
      intro b hb
      cases hb
    obtain ⟨hnone, hsome⟩ := pick_spec (p := []) hno
    cases hp : pick kinds now m.slots 0 none with
    | none => exact .inr (.inl ⟨rfl, (hnone hp).2, rfl⟩)
    | some b =>
      obtain ⟨hi, hc, hahead, -⟩ := hsome b.1 b.2 hp
      exact .inr (.inr ⟨b.1, b.2, rfl, rfl, hi, hc, hahead, rfl⟩)

end Memory
end Nilo.Job
