import Nilo.Job.Queue

/-!
# The chain of a schedule (`executeKind`, `finishDead`, `pushNext`, `seedAt` in `job/job.zig`)

A scheduled kind goes on because the row of each tick queues the next one. Every tick is
pushed under one unique key, so a second chain cannot start; what keeps the first from
stopping is that whoever takes the key away from its row pushes the next tick. Here any
number of workers execute rows at once, each call of the store being one step, and a worker
whose lease has run out goes on as if nothing had happened.

* `Worker` is one execution: the claim, and how far it has got. It **owes** a push between
  the call that lets the key go (`done`, `dead`, or `unkey` before an overlapping run) and
  the push that follows.
* `chain_unbroken`: once a kind is seeded, its key is held by exactly one queued or running
  row, unless some worker owes the push.
* `chain_open_between`: in between no row holds it, also when another worker's execution
  ends there.

The calls of the store do not fail here, and nobody cancels a tick.
-/

namespace Nilo.Job

open Text (Bytes)

/-! ## Kinds -/

inductive Overlap where
  | skip
  | queue
deriving DecidableEq, Repr

inductive Missed where
  | drop
  | catchUp
deriving DecidableEq, Repr

/-- What a scheduled kind declares: `next` is `schedule.nextWith` under its policy. -/
structure Schedule where
  next : Int → Int
  overlap : Overlap
  missed : Missed

structure Spec where
  name : Kind
  /-- `retry.times`. -/
  times : Nat
  priority : Priority := .normal
  schedule : Option Schedule := none

/-- The kinds of a program: two of one name are refused while compiling. -/
structure Program where
  kinds : List Spec
  names_nodup : (kinds.map (·.name)).Nodup

def Program.names (g : Program) : List Kind := g.kinds.map (·.name)

/-- The kinds `retryDead` refuses to revive a row of. -/
def Program.scheduledNames (g : Program) : List Kind :=
  (g.kinds.filter (·.schedule.isSome)).map (·.name)

/-- The unique key every scheduled kind's next tick carries. -/
def scheduleKey : Bytes := Text.ascii "schedule"

/-- What a tick carries. -/
def tickPayload : Bytes := [0x7b, 0x7d]

/-! ## Workers -/

inductive Stage where
  /-- The row has been claimed, and nothing decided. -/
  | claimed
  /-- The row has let its key go, and the next tick is not pushed. -/
  | unkeyed
  | running
  /-- The row is done or dead, and the next tick is not pushed. -/
  | owing
deriving DecidableEq, Repr

/-- One execution of a row. -/
structure Worker where
  claimed : Claimed
  spec : Spec
  stage : Stage := .claimed

namespace Worker

/-- The worker has let the key go and has the next tick to push. -/
def owes (w : Worker) : Bool := w.stage = .unkeyed || w.stage = .owing

/-- After `done` or `dead`: a row that was this worker's has a next tick. -/
def settled (w : Worker) (held : Bool) : Option Worker :=
  if held && w.spec.schedule.isSome then some { w with stage := .owing } else none

/-- The tick is later than its own successor, and such a tick is forgotten. -/
def missed (w : Worker) (now : Int) : Bool :=
  match w.spec.schedule with
  | some sch => sch.missed = .drop && sch.next w.claimed.runAt ≤ now
  | none => false

/-- The next tick is queued while this one runs. -/
def overlaps (w : Worker) : Bool :=
  match w.spec.schedule with
  | some sch => sch.overlap = .queue
  | none => false

/-- `executeKind`, up to the run. -/
def begin (w : Worker) (m : Memory) (now : Int) : Memory × Option Worker :=
  if w.spec.times + 1 < w.claimed.attempts then
    let (held, m) := m.dead w.claimed.id w.claimed.attempts (Text.ascii "LeaseExpired") now
    (m, w.settled held)
  else if w.missed now then
    let (held, m) := m.done w.claimed.id w.claimed.attempts
    (m, w.settled held)
  else if w.overlaps then
    let (held, m) := m.unkey w.claimed.id w.claimed.attempts
    (m, if held then some { w with stage := .unkeyed } else none)
  else (m, some { w with stage := .running })

/-- How a run ends. -/
inductive Outcome where
  | ok
  /-- The payload cannot be read. -/
  | unreadable (err : Bytes)
  /-- It failed, with an error the kind may have declared final. -/
  | failed (err : Bytes) (final : Bool) (again : Int)
  /-- The server is going. -/
  | going

/-- `executeKind`, after the run. -/
def finish (w : Worker) (m : Memory) (now : Int) : Outcome → Memory × Option Worker
  | .ok =>
    let (held, m) := m.done w.claimed.id w.claimed.attempts
    (m, w.settled held)
  | .unreadable err =>
    let (held, m) := m.dead w.claimed.id w.claimed.attempts err now
    (m, w.settled held)
  | .failed err final again =>
    if decide (w.spec.times < w.claimed.attempts) || final then
      let (held, m) := m.dead w.claimed.id w.claimed.attempts err now
      (m, w.settled held)
    else ((m.retry w.claimed.id w.claimed.attempts again err).2, none)
  | .going => ((m.release w.claimed.id w.claimed.attempts).2, none)

end Worker

/-- The row of the next tick. -/
def nextTick (spec : Spec) (sch : Schedule) (now : Int) : Enqueue :=
  { runAt := sch.next now, unique := some scheduleKey, priority := spec.priority }

/-- `pushNext`, when the store does not fail. -/
def pushNext (m : Memory) (spec : Spec) (sch : Schedule) (now : Int) : Option Memory :=
  match m.push spec.name tickPayload (nextTick spec sch now) with
  | (.ok _, m) => some m
  | (.error _, _) => none

/-! ## The queue and its workers -/

structure Plant where
  memory : Memory
  workers : List Worker := []
  /-- The kinds that have been seeded. -/
  seeded : List Kind := []

inductive Deed where
  /-- `seedAt` or `reseedAt` comes to the kind at `n`. -/
  | seed (n : Nat) (now : Int)
  /-- The program pushes a row of its own. -/
  | push (kind : Kind) (payload : Bytes) (enq : Enqueue)
  | retryDead (id : Id) (now : Int)
  | sweepDead (before : Int)
  | claim (now leaseUntil : Int)
  /-- The worker at `i` decides what to do with its row. -/
  | begin (i : Nat) (now : Int)
  /-- Its run ends. -/
  | finish (i : Nat) (now : Int) (outcome : Worker.Outcome)
  /-- It pushes the next tick. -/
  | pushNext (i : Nat) (now : Int)

namespace Plant

/-- The worker at `i` goes on, or has executed its row. -/
def put (p : Plant) (i : Nat) (r : Memory × Option Worker) : Plant :=
  { p with
    memory := r.1
    workers := match r.2 with
      | some w => p.workers.set i w
      | none => p.workers.eraseIdx i }

/-- One step, when it can happen. -/
def step (g : Program) (p : Plant) : Deed → Option Plant
  | .seed n now =>
    match g.kinds[n]? with
    | some spec =>
      match spec.schedule with
      | some sch => (Nilo.Job.pushNext p.memory spec sch now).map fun m =>
          { p with memory := m, seeded := spec.name :: p.seeded }
      | none => none
    | none => none
  | .push kind payload enq => some { p with memory := p.memory.next (.push kind payload enq) }
  | .retryDead id now =>
    some { p with memory := p.memory.next (.retryDead id now g.scheduledNames) }
  | .sweepDead before => some { p with memory := p.memory.next (.sweepDead before) }
  | .claim now leaseUntil =>
    match p.memory.claim true g.names now leaseUntil with
    | (.ok (some c), m) =>
      (g.kinds.find? fun spec => spec.name = c.kind).map fun spec =>
        { p with memory := m, workers := p.workers ++ [⟨c, spec, .claimed⟩] }
    | _ => none
  | .begin i now =>
    match p.workers[i]? with
    | some w => if w.stage = .claimed then some (p.put i (w.begin p.memory now)) else none
    | none => none
  | .finish i now outcome =>
    match p.workers[i]? with
    | some w => if w.stage = .running then some (p.put i (w.finish p.memory now outcome)) else none
    | none => none
  | .pushNext i now =>
    match p.workers[i]? with
    | some w =>
      match w.spec.schedule with
      | some sch =>
        if w.owes then (Nilo.Job.pushNext p.memory w.spec sch now).map fun m =>
          p.put i (m, if w.stage = .unkeyed then some { w with stage := .running } else none)
        else none
      | none => none
    | none => none

/-- Steps one after the other. -/
def run (g : Program) (p : Plant) : List Deed → Option Plant
  | [] => some p
  | d :: rest => (p.step g d).bind fun p => p.run g rest

def opened (count maxPayload : Nat) : Plant := { memory := Memory.opened count maxPayload }

/-- How many queued or running rows hold the key of a kind's schedule. -/
def holders (p : Plant) (spec : Spec) : Nat := p.memory.keys.count (spec.name, scheduleKey)

end Plant

/-! ## Keys and kinds of rows across the operations -/

namespace Memory

variable {m : Memory} {op : Op} {k : Kind} {u : Bytes}

theorem nextId_le (m : Memory) (op : Op) : m.nextId ≤ (m.next op).nextId := by
  rcases m.next_cases op with hn | ⟨_, _, _, _, _, hn⟩ | ⟨_, _, _, _, _, _, _, _, _, _, hn⟩ |
      ⟨_, _, hn⟩
  all_goals rw [hn]
  exact Nat.le_succ _

/-- A row keeps its kind. -/
theorem kind_next {t : Slot} {id : Id} (ht : t ∈ (m.next op).slots) (hid : t.idOf = some id)
    (hlt : id < m.nextId) : ∃ s ∈ m.slots, s.idOf = some id ∧ s.kind = t.kind := by
  rcases m.next_cases op with hn | ⟨i, s, s', hi, he, hn⟩ |
      ⟨_, _, _, i, s, row, _, hi, _, hp, hn⟩ | ⟨before, _, hn⟩
  · rw [hn] at ht
    exact ⟨t, ht, hid, rfl⟩
  · rw [hn] at ht
    rcases List.mem_or_eq_of_mem_set ht with ht | rfl
    · exact ⟨t, ht, hid, rfl⟩
    · refine ⟨s, List.mem_of_getElem? hi, ?_, ?_⟩
      · rcases he.idOf with hsame | ⟨hnone, -⟩
        · rw [← hsame]
          exact hid
        · rw [hnone] at hid
          cases hid
      · cases he with
        | done _ => cases hid
        | _ => rfl
  · rw [hn] at ht
    rcases List.mem_or_eq_of_mem_set ht with ht | rfl
    · exact ⟨t, ht, hid, rfl⟩
    · rw [pushed_idOf hp] at hid
      obtain rfl := Option.some.inj hid
      exact absurd hlt (Nat.lt_irrefl _)
  · rw [hn] at ht
    obtain ⟨s, hs, rfl⟩ := List.mem_map.1 ht
    split at hid
    · cases hid
    · rw [if_neg ‹_›]
      exact ⟨s, hs, hid, rfl⟩

/-- A call about a held row takes no key away but that of the row, and says so. -/
theorem fenced_keys {id : Id} {a : Nat} {f : Slot → Slot} (hin : (k, u) ∈ m.keys) :
    (k, u) ∈ (m.fenced id a f).2.keys ∨
      (m.fenced id a f).1 = true ∧ ∃ s ∈ m.slots, s.idOf = some id ∧ s.kind = k := by
  rcases m.fenced_cases id a f with hf | ⟨i, s, hi, hst, hid, -, hf⟩
  · rw [hf]
    exact .inl hin
  · rw [hf]
    rcases Lib.mem_set_or (b := f s) hi hin with hin | hkey
    · exact .inl hin
    · refine .inr ⟨rfl, s, List.mem_of_getElem? hi, ?_, ?_⟩
      · rw [Edit.idOf_live (by rw [hst]; decide), hid]
      · unfold Slot.keyOf at hkey
        split at hkey
        · exact (Prod.mk.inj (Option.some.inj hkey)).1
        · cases hkey

/-- The operations of those who hold no row keep every key, and so do a claim, a retry and a
release. -/
theorem keys_next (h : m.Kept) (hin : (k, u) ∈ m.keys)
    (hop : ∀ s s', Edit op s s' → s'.keyOf = none → s.keyOf = none) :
    (k, u) ∈ (m.next op).keys := by
  rcases m.next_cases op with hn | ⟨i, s, s', hi, he, hn⟩ |
      ⟨_, _, _, i, s, row, _, hi, hfree, hp, hn⟩ | ⟨before, _, hn⟩
  · rw [hn]
    exact hin
  · rw [hn]
    have hs := h.keyless s (List.mem_of_getElem? hi)
    have hsame : s'.keyOf = s.keyOf := by
      rcases he.keyOf hs with hnone | hsame
      · rw [hnone, hop s s' he hnone]
      · exact hsame
    have hkeys : ({ m with slots := m.slots.set i s' } : Memory).keys = m.keys :=
      Lib.filterMap_set_same hi hsame
    rw [hkeys]
    exact hin
  · rw [hn]
    rcases Lib.mem_set_or (b := row) hi hin with hin | hkey
    · exact hin
    · simp [Slot.keyOf, Slot.live, hfree] at hkey
  · rw [hn]
    obtain ⟨s, hs, hkey⟩ := List.mem_filterMap.1 hin
    refine List.mem_filterMap.2 ⟨s, List.mem_map.2 ⟨s, hs, if_neg fun hsw => ?_⟩, hkey⟩
    have hdead : s.state = .dead := by
      simp only [swept, Bool.and_eq_true, decide_eq_true_eq] at hsw
      exact hsw.1
    simp [Slot.keyOf, Slot.live, hdead] at hkey

end Memory

/-! ## What holds between two steps -/

variable {g : Program} {p p' : Plant} {w w' : Worker} {i : Nat} {o : Op} {m : Memory}

/-- The execution knows the kind of its row, and owes a push only for a schedule. -/
structure Worker.Sound (g : Program) (m : Memory) (w : Worker) : Prop where
  known : w.spec ∈ g.kinds
  scheduled : w.owes = true → w.spec.schedule.isSome = true
  given : w.claimed.id < m.nextId
  kind : ∀ s ∈ m.slots, s.idOf = some w.claimed.id → s.kind = w.spec.name

namespace Plant

/-- The key of a seeded kind is held, or somebody has the push to make. -/
structure Chained (g : Program) (p : Plant) : Prop where
  kept : p.memory.Kept
  workers : ∀ w ∈ p.workers, w.Sound g p.memory
  scheduled : ∀ k ∈ p.seeded, ∃ spec ∈ g.kinds, spec.name = k ∧ spec.schedule.isSome = true
  held : ∀ k ∈ p.seeded, (k, scheduleKey) ∈ p.memory.keys ∨
    ∃ w ∈ p.workers, w.spec.name = k ∧ w.owes = true

theorem sound_next (h : w.Sound g m) : w.Sound g (m.next o) := by
  refine ⟨h.known, h.scheduled, Nat.lt_of_lt_of_le h.given (m.nextId_le o), fun t ht hid => ?_⟩
  obtain ⟨s, hs, hsid, hk⟩ := Memory.kind_next ht hid h.given
  exact hk ▸ h.kind s hs hsid

/-- An operation that takes no key away. -/
theorem Chained.memory (h : p.Chained g)
    (hop : ∀ s s', Edit o s s' → s'.keyOf = none → s.keyOf = none) :
    ({ p with memory := p.memory.next o } : Plant).Chained g := by
  refine ⟨h.kept.next o, fun w hw => sound_next (h.workers w hw), h.scheduled, fun k hk => ?_⟩
  exact (h.held k hk).imp_left fun hin => Memory.keys_next h.kept hin hop

theorem mem_put {x : Worker} {r : Memory × Option Worker} (hx : x ∈ (p.put i r).workers) :
    x ∈ p.workers ∨ r.2 = some x := by
  unfold put at hx
  cases hr : r.2 with
  | none =>
    rw [hr] at hx
    exact .inl (List.mem_of_mem_eraseIdx hx)
  | some w =>
    rw [hr] at hx
    rcases List.mem_or_eq_of_mem_set hx with hx | rfl
    · exact .inl hx
    · exact .inr rfl

theorem mem_put_of_mem {x : Worker} {r : Memory × Option Worker} (hi : p.workers[i]? = some w)
    (hx : x ∈ p.workers) : x = w ∨ x ∈ (p.put i r).workers := by
  rw [Lib.split_at hi] at hx
  unfold put
  cases r.2 with
  | none =>
    dsimp only
    rw [List.eraseIdx_eq_take_drop_succ, List.mem_append]
    rcases List.mem_append.1 hx with hx | hx
    · exact .inr (.inl hx)
    · exact (List.mem_cons.1 hx).imp_right Or.inr
  | some w' =>
    dsimp only
    rw [Lib.set_at hi, List.mem_append]
    rcases List.mem_append.1 hx with hx | hx
    · exact .inr (.inl hx)
    · exact (List.mem_cons.1 hx).imp_right fun hx => .inr (List.mem_cons_of_mem _ hx)

theorem mem_put_self {r : Memory × Option Worker} (hi : p.workers[i]? = some w)
    (hr : r.2 = some w') : w' ∈ (p.put i r).workers := by
  unfold put
  rw [hr]
  obtain ⟨hlt, -⟩ := List.getElem?_eq_some_iff.1 hi
  exact List.mem_set hlt w'

/-- A worker makes a call of the store and goes on with the same row, or is through with it. -/
theorem Chained.put {r : Option Worker} (h : p.Chained g) (hi : p.workers[i]? = some w)
    (hr : ∀ w', r = some w' → w'.spec = w.spec ∧ w'.claimed = w.claimed ∧
      (w'.owes = true → w.spec.schedule.isSome = true))
    (hkeys : ∀ k ∈ p.seeded, (k, scheduleKey) ∈ p.memory.keys →
      (k, scheduleKey) ∈ (p.memory.next o).keys ∨
        ∃ w', r = some w' ∧ w'.spec.name = k ∧ w'.owes = true)
    (howed : w.owes = true → (w.spec.name, scheduleKey) ∈ (p.memory.next o).keys) :
    (p.put i (p.memory.next o, r)).Chained g := by
  have hw := h.workers w (List.mem_of_getElem? hi)
  refine ⟨h.kept.next o, fun x hx => ?_, h.scheduled, fun k hk => ?_⟩
  · rcases mem_put hx with hx | hx
    · exact sound_next (h.workers x hx)
    · obtain ⟨hspec, hclaimed, hsch⟩ := hr x hx
      have hs : w.Sound g (p.memory.next o) := sound_next hw
      refine ⟨hspec ▸ hs.known, hspec ▸ hsch, hclaimed ▸ hs.given, ?_⟩
      rw [hspec, hclaimed]
      exact hs.kind
  · have hnew : (∃ w', r = some w' ∧ w'.spec.name = k ∧ w'.owes = true) →
        ∃ w' ∈ (p.put i (p.memory.next o, r)).workers, w'.spec.name = k ∧ w'.owes = true :=
      fun ⟨w', hr', hn, ho⟩ => ⟨w', mem_put_self hi hr', hn, ho⟩
    rcases h.held k hk with hin | ⟨x, hx, hn, ho⟩
    · exact (hkeys k hk hin).imp_right hnew
    · rcases mem_put_of_mem (r := (p.memory.next o, r)) hi hx with rfl | hx
      · exact .inl (hn ▸ howed ho)
      · exact .inr ⟨x, hx, hn, ho⟩

/-- Two kinds of one name are one. -/
theorem spec_eq {spec spec' : Spec} (h : spec ∈ g.kinds) (h' : spec' ∈ g.kinds)
    (hn : spec.name = spec'.name) : spec = spec' :=
  List.inj_on_of_nodup_map g.names_nodup h h' hn

/-- `done`, `dead` or `unkey`: whoever takes the key away owes the push. -/
theorem Chained.letGo {r : Bool → Option Worker} {a : Nat} {f : Slot → Slot} (h : p.Chained g)
    (hi : p.workers[i]? = some w) (hw : w.owes = false)
    (hop : p.memory.next o = (p.memory.fenced w.claimed.id a f).2)
    (hr : ∀ held w', r held = some w' → w'.spec = w.spec ∧ w'.claimed = w.claimed ∧
      (w'.owes = true → w.spec.schedule.isSome = true))
    (hheld : w.spec.schedule.isSome = true → ∃ w', r true = some w' ∧ w'.owes = true) :
    (p.put i (p.memory.next o, r (p.memory.fenced w.claimed.id a f).1)).Chained g := by
  refine h.put hi (hr _) (fun k hk hin => ?_) fun ho => absurd (hw.symm.trans ho) (by decide)
  rw [hop]
  rcases Memory.fenced_keys (a := a) (f := f) hin with hin | ⟨htrue, s, hs, hid, hkind⟩
  · exact .inl hin
  · have hsound := h.workers w (List.mem_of_getElem? hi)
    have hname : w.spec.name = k := (hsound.kind s hs hid).symm.trans hkind
    obtain ⟨spec, hspec, hk', hsch⟩ := h.scheduled k hk
    have heq : w.spec = spec := spec_eq hsound.known hspec (hname.trans hk'.symm)
    obtain ⟨w', hw', ho⟩ := hheld (heq ▸ hsch)
    refine .inr ⟨w', htrue ▸ hw', ?_, ho⟩
    rw [(hr true w' hw').1]
    exact hname

/-- A call that leaves the key with its row. -/
theorem Chained.keeps {r : Option Worker} (h : p.Chained g) (hi : p.workers[i]? = some w)
    (hw : w.owes = false)
    (hop : ∀ s s', Edit o s s' → s'.keyOf = none → s.keyOf = none)
    (hr : ∀ w', r = some w' → w'.spec = w.spec ∧ w'.claimed = w.claimed ∧ w'.owes = false) :
    (p.put i (p.memory.next o, r)).Chained g := by
  refine h.put hi (fun w' hw' => ?_) (fun k _ hin => .inl (Memory.keys_next h.kept hin hop))
    fun ho => absurd (hw.symm.trans ho) (by decide)
  obtain ⟨hspec, hclaimed, ho⟩ := hr w' hw'
  exact ⟨hspec, hclaimed, fun ho' => absurd (ho.symm.trans ho') (by decide)⟩

theorem settled_spec {held : Bool} (h : w.settled held = some w') :
    w'.spec = w.spec ∧ w'.claimed = w.claimed ∧ (w'.owes = true → w.spec.schedule.isSome = true) := by
  unfold Worker.settled at h
  split at h
  · rename_i hs
    obtain rfl := Option.some.inj h
    simp only [Bool.and_eq_true] at hs
    exact ⟨rfl, rfl, fun _ => hs.2⟩
  · cases h

theorem settled_owes (h : w.spec.schedule.isSome = true) :
    ∃ w', w.settled true = some w' ∧ w'.owes = true := by
  refine ⟨{ w with stage := .owing }, ?_, rfl⟩
  simp [Worker.settled, h]

theorem Chained.begin {now : Int} (h : p.Chained g) (hi : p.workers[i]? = some w)
    (hw : w.owes = false) : (p.put i (w.begin p.memory now)).Chained g := by
  unfold Worker.begin
  split
  · exact h.letGo (o := .dead w.claimed.id w.claimed.attempts _ now) hi hw rfl
      (fun _ _ => settled_spec) settled_owes
  · split
    · exact h.letGo (o := .done w.claimed.id w.claimed.attempts) hi hw rfl
        (fun _ _ => settled_spec) settled_owes
    · split
      · rename_i hov
        have hsch : w.spec.schedule.isSome = true := by
          unfold Worker.overlaps at hov
          split at hov
          · rename_i hs
            rw [hs]
            rfl
          · cases hov
        refine h.letGo (o := .unkey w.claimed.id w.claimed.attempts)
          (r := fun held => if held then some { w with stage := .unkeyed } else none) hi hw rfl
          (fun held w' he => ?_) fun _ => ⟨_, rfl, rfl⟩
        split at he
        · obtain rfl := Option.some.inj he
          exact ⟨rfl, rfl, fun _ => hsch⟩
        · cases he
      · -- no call of the store: the queue is as it was
        have hidle : p.memory.next (.claim false [] 0 0) = p.memory := rfl
        have := h.keeps (o := .claim false [] 0 0) (r := some { w with stage := .running }) hi hw
          (fun s s' he hnone => ?_) (fun w' he => ?_)
        · rw [hidle] at this
          exact this
        · cases he with
          | claimed _ _ hc => simp [Slot.claimable] at hc
        · obtain rfl := Option.some.inj he
          exact ⟨rfl, rfl, rfl⟩

theorem Chained.finish {now : Int} {outcome : Worker.Outcome} (h : p.Chained g)
    (hi : p.workers[i]? = some w) (hw : w.owes = false) :
    (p.put i (w.finish p.memory now outcome)).Chained g := by
  have running : ∀ {s s' : Slot}, s'.keyOf = none → s.state = .running → s'.live = true →
      s'.kind = s.kind → s'.unique = s.unique → s.keyOf = none := by
    intro s s' hnone hst hl hk hu
    have hs : s.live = true := by simp [Slot.live, hst]
    rw [← Slot.keyOf_eq_of_live hl hs hk hu]
    exact hnone
  cases outcome with
  | ok =>
    exact h.letGo (o := .done w.claimed.id w.claimed.attempts) hi hw rfl
      (fun _ _ => settled_spec) settled_owes
  | unreadable err =>
    exact h.letGo (o := .dead w.claimed.id w.claimed.attempts err now) hi hw rfl
      (fun _ _ => settled_spec) settled_owes
  | failed err final again =>
    unfold Worker.finish
    dsimp only
    split
    · exact h.letGo (o := .dead w.claimed.id w.claimed.attempts err now) hi hw rfl
        (fun _ _ => settled_spec) settled_owes
    · refine h.keeps (o := .retry w.claimed.id w.claimed.attempts again err) hi hw
        (fun s s' he hnone => ?_) (by rintro _ ⟨⟩)
      generalize w.claimed.id = id, w.claimed.attempts = a at he
      cases he with
      | retried _ _ hst => exact running hnone hst rfl rfl rfl
  | going =>
    refine h.keeps (o := .release w.claimed.id w.claimed.attempts) hi hw
      (fun s s' he hnone => ?_) (by rintro _ ⟨⟩)
    generalize w.claimed.id = id, w.claimed.attempts = a at he
    cases he with
    | released hst => exact running hnone hst rfl rfl rfl

/-- A push of the next tick that does not fail leaves the key held. -/
theorem pushNext_spec {spec : Spec} {sch : Schedule} {now : Int} {m' : Memory}
    (h : Nilo.Job.pushNext m spec sch now = some m') :
    m' = m.next (.push spec.name tickPayload (nextTick spec sch now)) ∧
    (spec.name, scheduleKey) ∈ m'.keys := by
  unfold Nilo.Job.pushNext at h
  rcases m.push_cases spec.name tickPayload (nextTick spec sch now) with
    ⟨e, hp⟩ | ⟨hp, u, hu, hin⟩ | ⟨i, s, row, hi, hfree, hst, hid, ha, hk, hu, hfresh, hp⟩
  · rw [hp] at h
    cases h
  · rw [hp] at h
    obtain rfl := Option.some.inj h
    obtain rfl := Option.some.inj hu
    exact ⟨by rw [Memory.next, hp], hin⟩
  · rw [hp] at h
    obtain rfl := Option.some.inj h
    refine ⟨by rw [Memory.next, hp], ?_⟩
    have hrow : row.keyOf = some (spec.name, scheduleKey) := by
      have hu : row.unique = scheduleKey := hu
      have hne : scheduleKey ≠ [] := by decide
      simp [Slot.keyOf, Slot.live, hst, hk, hu, hne]
    obtain ⟨hlt, -⟩ := List.getElem?_eq_some_iff.1 hi
    exact List.mem_filterMap.2 ⟨row, List.mem_set hlt row, hrow⟩

/-- A push takes no key away. -/
theorem push_edit {k : Kind} {payload : Bytes} {enq : Enqueue} {s s' : Slot}
    (h : Edit (.push k payload enq) s s') : False := by
  cases h

/-- A row is claimed by a worker that knows its kind. -/
theorem Chained.claim {s : Slot} {now leaseUntil : Int} {spec : Spec} {c : Claimed} {j : Nat}
    (h : p.Chained g) (hi : p.memory.slots[j]? = some s) (hs : s.claimable g.names now = true)
    (hid : c.id = s.id) (hkind : c.kind = s.kind)
    (hspec : g.kinds.find? (fun spec => spec.name = c.kind) = some spec)
    (hm : p.memory.next (.claim true g.names now leaseUntil) =
      { p.memory with slots := p.memory.slots.set j (Memory.taken s leaseUntil) }) :
    ({ p with
        memory := p.memory.next (.claim true g.names now leaseUntil)
        workers := p.workers ++ [⟨c, spec, .claimed⟩] } : Plant).Chained g := by
  have hfree := Slot.ne_free_of_live (Slot.live_of_claimable hs)
  have hmem := List.mem_of_getElem? hi
  have hc := h.memory (o := .claim true g.names now leaseUntil) fun t t' he hnone => by
    cases he with
    | claimed _ _ ht =>
      have hsame : (Memory.taken t leaseUntil).keyOf = t.keyOf :=
        Slot.keyOf_eq_of_live rfl (Slot.live_of_claimable ht) rfl rfl
      rw [← hsame]
      exact hnone
  have hname : spec.name = s.kind := by
    have := List.find?_some hspec
    rw [decide_eq_true_eq] at this
    exact this.trans hkind
  refine ⟨hc.kept, fun w hw => ?_, h.scheduled, fun k hk => ?_⟩
  · rcases List.mem_append.1 hw with hw | hw
    · exact hc.workers w hw
    · obtain rfl := List.mem_singleton.1 hw
      refine ⟨List.mem_of_find?_eq_some hspec, nofun, ?_, fun t ht htid => ?_⟩
      · rw [hm, hid]
        exact h.kept.given _ (List.mem_filterMap.2 ⟨s, hmem, Edit.idOf_live hfree⟩)
      · rw [hm] at ht
        rcases Lib.mem_set_other hi (Edit.idOf_live hfree) h.kept.ids ht with rfl | ⟨-, hne⟩
        · exact hname.symm
        · rw [hid] at htid
          exact absurd htid hne
  · rcases hc.held k hk with hin | ⟨w, hw, hn, ho⟩
    · exact .inl hin
    · exact .inr ⟨w, List.mem_append_left _ hw, hn, ho⟩

theorem Chained.step {d : Deed} (h : p.Chained g) (hs : p.step g d = some p') :
    p'.Chained g := by
  cases d with
  | seed n now =>
    simp only [Plant.step] at hs
    split at hs
    · rename_i spec hn
      split at hs
      · rename_i sch hsch
        obtain ⟨m, hm, rfl⟩ := Option.map_eq_some_iff.1 hs
        obtain ⟨rfl, hin⟩ := pushNext_spec hm
        have hc := h.memory (o := .push spec.name tickPayload (nextTick spec sch now))
          fun _ _ he => (push_edit he).elim
        refine ⟨hc.kept, hc.workers, fun k hk => ?_, fun k hk => ?_⟩
        · rcases List.mem_cons.1 hk with rfl | hk
          · exact ⟨spec, List.mem_of_getElem? hn, rfl, by rw [hsch]; rfl⟩
          · exact h.scheduled k hk
        · rcases List.mem_cons.1 hk with rfl | hk
          · exact .inl hin
          · exact hc.held k hk
      · cases hs
    · cases hs
  | push k payload enq =>
    obtain rfl := Option.some.inj hs
    exact h.memory fun _ _ he => (push_edit he).elim
  | retryDead id now =>
    obtain rfl := Option.some.inj hs
    refine h.memory fun s s' he _ => ?_
    cases he with
    | revived _ hdead _ => simp [Slot.keyOf, Slot.live, hdead]
  | sweepDead before =>
    obtain rfl := Option.some.inj hs
    exact h.memory fun s s' he => by cases he
  | claim now leaseUntil =>
    simp only [Plant.step] at hs
    split at hs
    · rename_i c m hcl
      obtain ⟨spec, hspec, rfl⟩ := Option.map_eq_some_iff.1 hs
      rcases p.memory.claim_cases true g.names now leaseUntil with ⟨hr, -⟩ | ⟨-, -, hc⟩ |
          ⟨i, s, -, -, hi, hcl', -, hc⟩
      · cases hr
      · rw [hc] at hcl
        cases (Prod.mk.inj hcl).1
      · rw [hc] at hcl
        obtain ⟨hc₁, rfl⟩ := Prod.mk.inj hcl
        obtain rfl := Option.some.inj (Except.ok.inj hc₁)
        have hm : p.memory.next (.claim true g.names now leaseUntil) =
            { p.memory with slots := p.memory.slots.set i (Memory.taken s leaseUntil) } := by
          rw [Memory.next, hc]
        have := h.claim hi hcl' rfl rfl hspec hm
        rw [hm] at this
        exact this
    · cases hs
  | begin i now =>
    simp only [Plant.step] at hs
    split at hs
    · rename_i w hi
      split at hs
      · rename_i hst
        obtain rfl := Option.some.inj hs
        exact h.begin hi (by simp [Worker.owes, hst])
      · cases hs
    · cases hs
  | finish i now outcome =>
    simp only [Plant.step] at hs
    split at hs
    · rename_i w hi
      split at hs
      · rename_i hst
        obtain rfl := Option.some.inj hs
        exact h.finish hi (by simp [Worker.owes, hst])
      · cases hs
    · cases hs
  | pushNext i now =>
    simp only [Plant.step] at hs
    split at hs
    · rename_i w hi
      split at hs
      · rename_i sch hsch
        split at hs
        · obtain ⟨m, hm, rfl⟩ := Option.map_eq_some_iff.1 hs
          obtain ⟨rfl, hin⟩ := pushNext_spec hm
          refine h.put hi (fun w' he => ?_) (fun k _ hk => ?_) fun _ => hin
          · split at he
            · obtain rfl := Option.some.inj he
              exact ⟨rfl, rfl, (by rintro ⟨⟩)⟩
            · cases he
          · exact .inl (Memory.keys_next h.kept hk fun _ _ he => (push_edit he).elim)
        · cases hs
      · cases hs
    · cases hs

theorem chained_opened {count maxPayload : Nat} : (opened count maxPayload).Chained g :=
  ⟨Memory.kept_opened, nofun, nofun, nofun⟩

theorem Chained.run : ∀ {ds : List Deed} {p : Plant}, p.Chained g → p.run g ds = some p' →
    p'.Chained g
  | [], _, h, hr => Option.some.inj hr ▸ h
  | _ :: _, _, h, hr => by
    obtain ⟨p₁, hp₁, hr⟩ := Option.bind_eq_some_iff.1 hr
    exact (h.step hp₁).run hr

/-! ## One tick ahead, never two -/

theorem holders_eq_one {spec : Spec} (h : p.memory.Kept)
    (hin : (spec.name, scheduleKey) ∈ p.memory.keys) : p.holders spec = 1 :=
  List.count_eq_one_of_mem h.keys hin

/-- **The chain of a schedule.** Whatever the workers do and in whatever order, with rows
failing, dying, given back or claimed a second time, a seeded kind's key is never held by two
rows, and it is held by one unless a worker has let it go and not yet pushed the next tick;
that push leaves it held. -/
theorem chain_unbroken {count maxPayload : Nat} {ds : List Deed}
    (hr : (opened count maxPayload).run g ds = some p) {spec : Spec} (hspec : spec ∈ g.kinds)
    (hseed : spec.name ∈ p.seeded) :
    p.holders spec ≤ 1 ∧
    (p.holders spec = 1 ∨ ∃ w ∈ p.workers, w.spec = spec ∧ w.owes = true) ∧
    ∀ i now w p', p.workers[i]? = some w → w.spec = spec →
      p.step g (.pushNext i now) = some p' → p'.holders spec = 1 := by
  have h : p.Chained g := chained_opened.run hr
  refine ⟨List.nodup_iff_count_le_one.1 h.kept.keys _, ?_, fun i now w p' hi hw hs => ?_⟩
  · rcases h.held _ hseed with hin | ⟨w, hw, hn, ho⟩
    · exact .inl (holders_eq_one h.kept hin)
    · exact .inr ⟨w, hw, spec_eq (h.workers w hw).known hspec hn, ho⟩
  · have hk := (h.step hs).kept
    simp only [Plant.step, hi] at hs
    split at hs
    · split at hs
      · obtain ⟨m, hm, rfl⟩ := Option.map_eq_some_iff.1 hs
        exact holders_eq_one hk (hw ▸ (pushNext_spec hm).2)
      · cases hs
    · cases hs

/-- A kind that ticks every minute, one run at a time. -/
def minutely : Spec :=
  { name := ⟨[116], by decide⟩, times := 3
    schedule := some { next := fun t => t + 60, overlap := .skip, missed := .catchUp } }

/-- A program of that kind alone. -/
def minutelyProgram : Program := { kinds := [minutely], names_nodup := by decide }

/-- A tick whose first worker's lease ran out: the second one is through with it. -/
theorem chain_unbroken_reclaimed : ∃ p, (opened 2 8).run minutelyProgram
      [.seed 0 0, .claim 60 70, .claim 80 90, .begin 0 81, .begin 1 81, .finish 1 82 .ok,
        .pushNext 1 83] = some p ∧ p.holders minutely = 1 := by
  refine ⟨_, rfl, ?_⟩
  have hrun : (opened 2 8).run minutelyProgram [.seed 0 0, .claim 60 70, .claim 80 90,
    .begin 0 81, .begin 1 81, .finish 1 82 .ok, .pushNext 1 83] = some _ := rfl
  have hchain := chain_unbroken hrun (show minutely ∈ minutelyProgram.kinds from
    List.mem_cons_self) (by exact List.mem_cons_self)
  rcases hchain.2.1 with h | ⟨w, hw, -, ho⟩
  · exact h
  · obtain rfl := List.mem_singleton.1 hw
    cases ho

/-- The worker whose lease ran out is through while the other has freed the row and not yet
pushed: no row holds the key. -/
theorem chain_open_between :
    ¬ ∀ (g : Program) (ds : List Deed) (d : Deed) (p p' : Plant) (spec : Spec),
      (opened 2 8).run g ds = some p → p.step g d = some p' →
      p'.workers.length < p.workers.length → spec ∈ g.kinds → spec.name ∈ p'.seeded →
      p'.holders spec = 1 := by
  intro h
  have := h minutelyProgram [.seed 0 0, .claim 60 70, .claim 80 90, .begin 0 81, .begin 1 81,
    .finish 1 82 .ok] (.finish 0 83 .ok) _ _ minutely rfl rfl (by decide) List.mem_cons_self
    List.mem_cons_self
  exact absurd this (by decide)

end Plant
end Nilo.Job
