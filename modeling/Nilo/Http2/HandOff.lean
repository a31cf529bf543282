import Mathlib.Algebra.GroupWithZero.Nat
import Nilo.Http2.Shared
import Mathlib.Tactic.Common
import Mathlib.Data.List.Perm.Basic

/-!
# The hand-off of calls to fibers (`start`, `spawnRunner`, `rendezvous`, `runner`)

The connection's fiber queues calls and spawns fibers, and the fibers take the calls
queued behind them, each in a hold of the lock of its own (`Shared`). Between two holds
anything may happen: here a step is one hold, or one answer of the engine, and a run is
any interleaving of the steps of the connection's fiber and of the fibers it spawned.

* A call is **queued** by `start`, and **taken** from the queue by the connection, for a
  fiber it is about to spawn or to see to itself, or by a fiber that has finished a call.
* A fiber spawned with `runner` takes the next call queued until there is none; one
  spawned with `runCall`, where the engine cannot keep a fiber on an executor, has its own
  call only.
* A server that is stopping has its queued calls answered and not run: by the fiber that
  takes them (`turnAway`), or by the connection when it is refused a fiber.

What is proved of every interleaving: calls are taken in the order they were queued, each
ends in the hands of exactly one fiber and is run there unless it is turned away, and no
call is left in the queue with nobody to take it. The steps of the fibers are finitely
many, so a queue nobody adds to is served.
-/

namespace Nilo.Http2

/-! ## Fibers, and what the connection is in the middle of -/

inductive Stage where
  /-- A `runner` that has not begun its first call. -/
  | fresh
  /-- A `runner` in its call. -/
  | running
  /-- A `runner` answering a call it does not run. -/
  | turning
  /-- A `runCall`, or a thread: its own call and no other. -/
  | alone
deriving DecidableEq, Repr

/-- Whether the fiber takes the next call queued when its own is over. -/
def Stage.takes : Stage → Bool
  | .alone => false
  | _ => true

structure Fiber where
  call : Ref
  stage : Stage
deriving DecidableEq, Repr

/-- Why the engine gave no fiber. -/
inductive Refusal where
  | noServer
  | invalidPlacement
  | stopping
deriving DecidableEq, Repr

/-- What the connection does with every call queued: a fiber of its own, or an answer. -/
inductive Drain where
  | place
  | turn
deriving DecidableEq, Repr

/-- What the connection's fiber is in the middle of, with the call it has in hand, and what
it does with the queue after it. -/
inductive Errand where
  | idle
  /-- The call has been taken, and the fiber for it counted (`fresh`). -/
  | spawning (r : Ref)
  /-- No fiber, and still counted. -/
  | unspawned (r : Ref) (why : Refusal)
  | placing (r : Ref) (after : Option Drain)
  | keeping (r : Ref) (after : Option Drain)
  | turning (r : Ref) (after : Option Drain)
  | draining (d : Drain)
deriving DecidableEq, Repr

namespace Errand

def hand : Errand → List Ref
  | .idle | .draining _ => []
  | .spawning r | .unspawned r _ | .placing r _ | .keeping r _ | .turning r _ => [r]

/-- A fiber is counted that is not there yet. -/
def counted : Errand → Nat
  | .spawning _ | .unspawned _ _ => 1
  | _ => 0

/-- The connection goes on to empty the queue itself. -/
def drains : Errand → Bool
  | .idle | .spawning _ => false
  | .unspawned _ why => decide (why ≠ .noServer)
  | .placing _ d | .keeping _ d | .turning _ d => d.isSome
  | .draining _ => true

def next : Option Drain → Errand
  | none => .idle
  | some d => .draining d

end Errand

/-- The calls of a connection, and those who have them. -/
structure Yard where
  shared : Shared := {}
  /-- Fibers are kept for the next call queued. -/
  reuse : Bool := true
  errand : Errand := .idle
  fibers : List Fiber := []
  /-- The stop of the server has been asked for. -/
  stopping : Bool := false
  /-- The engine has refused a fiber or a thread. -/
  refused : Bool := false
  /-- The engine has said there is no server. -/
  hostless : Bool := false
  /-- An answer of the connection's own could not be written. -/
  cut : Bool := false
  /-- The calls queued, in the order they were. -/
  queued : List Ref := []
  /-- The calls taken from the queue, in the order they were. -/
  taken : List Ref := []
  /-- The calls given to a fiber with no queue between. -/
  direct : List Ref := []
  ran : List Ref := []
  turned : List Ref := []
  /-- The calls put off until their client has sent everything. -/
  deferred : List Ref := []
deriving DecidableEq, Repr

namespace Yard

/-- The calls somebody has. -/
def hands (y : Yard) : List Ref := y.fibers.map (·.call) ++ y.errand.hand

/-! ## The steps -/

/-- One call more has no answer yet. -/
def started (y : Yard) : Yard :=
  { y with shared := { y.shared with running := y.shared.running + 1 } }

/-- A call that is not handed to a fiber after all. -/
def unstarted (y : Yard) : Yard :=
  { y with shared := { y.shared with running := y.shared.running - 1 } }

/-- The oldest call queued, for a fiber about to be spawned, unless one has not begun. -/
def takeFirst (y : Yard) : Yard :=
  match y.shared.takeFirstIfNoneFresh with
  | (none, _) => y
  | (some head, shared) =>
    { y with shared, errand := .spawning head, taken := y.taken ++ [head] }

/-- `start`, in one hold of the lock. -/
def start (y : Yard) (r : Ref) : Yard :=
  let y := y.started
  if y.reuse then
    { y with shared := y.shared.enqueue r, queued := y.queued ++ [r] }.takeFirst
  else { y with errand := .placing r none, direct := y.direct ++ [r] }

def spawn (y : Yard) (r : Ref) (stage : Stage) : Yard :=
  { y with fibers := y.fibers ++ [⟨r, stage⟩] }

/-- The fiber that was counted is not coming. -/
def unfresh (y : Yard) (r : Ref) : Refusal → Yard
  | .noServer =>
    { y with shared := y.shared.unfresh, errand := .keeping r none, hostless := true }
  | .invalidPlacement =>
    { y with shared := y.shared.unfresh, reuse := false, errand := .placing r (some .place) }
  | .stopping =>
    { y with shared := y.shared.unfresh, errand := .turning r (some .turn), refused := true }

/-- A fiber of its own for a call, or none (`spawnLocal`, which places it anywhere). -/
def place (y : Yard) (r : Ref) (after : Option Drain) : Option Refusal → Yard
  | none => { y.spawn r .alone with errand := Errand.next after }
  | some .noServer => { y with errand := .keeping r after, hostless := true }
  | some _ => { y with errand := .turning r (some .turn), refused := true }

/-- What becomes of a call when there is no engine. -/
inductive Kept where
  | deferred
  | inlined
  | threaded
  | noThread
deriving DecidableEq, Repr

/-- `startWithoutEngine`. -/
def keep (y : Yard) (r : Ref) (after : Option Drain) : Kept → Yard
  | .deferred => { y.unstarted with errand := Errand.next after, deferred := y.deferred ++ [r] }
  | .inlined =>
    { y with shared := y.shared.finish r, errand := Errand.next after, ran := y.ran ++ [r] }
  | .threaded => { y.spawn r .alone with errand := Errand.next after }
  | .noThread => { y with errand := .turning r after, refused := true }

/-- The connection answers a call that is not run. An answer that cannot be written ends
the loop it is in, and the connection. -/
def answer (y : Yard) (r : Ref) (after : Option Drain) (written : Bool) : Yard :=
  { y.unstarted with
    errand := if written then Errand.next after else .idle
    cut := y.cut || !written
    turned := y.turned ++ [r] }

/-- The next call queued, in the hands of the connection. -/
def takeQueued (y : Yard) (d : Drain) : Yard :=
  match y.shared.takeQueued with
  | (none, _) => { y with errand := .idle }
  | (some q, shared) =>
    { y with
      shared, taken := y.taken ++ [q]
      errand := match d with
        | .place => .placing q (some .place)
        | .turn => .turning q (some .turn) }

/-- A fiber's call is over, run or turned away. -/
def closeCall (y : Yard) (f : Fiber) : Yard :=
  { y with
    ran := if f.stage = .turning then y.ran else y.ran ++ [f.call]
    turned := if f.stage = .turning then y.turned ++ [f.call] else y.turned }

/-- `finishNext`, and the next call of the fiber at `i`: turned away once a stop has been
asked for. -/
def finishNext (y : Yard) (i : Nat) (f : Fiber) : Yard :=
  match y.shared.finishNext f.call with
  | (none, shared) => { y with shared, fibers := y.fibers.eraseIdx i }
  | (some q, shared) =>
    { y with
      shared, taken := y.taken ++ [q]
      fibers := y.fibers.set i ⟨q, if y.stopping then .turning else .running⟩ }

/-- A fiber with a call of its own ends with it. -/
def finish (y : Yard) (i : Nat) (f : Fiber) : Yard :=
  { y with shared := y.shared.finish f.call, fibers := y.fibers.eraseIdx i }

end Yard

/-- What can happen. -/
inductive Beat where
  /-- The connection starts the call `r`. -/
  | start (r : Ref)
  /-- A turn of the loop in `rendezvous`. -/
  | rendezvous
  /-- The engine answers the spawn of a `runner`. -/
  | spawned (o : Option Refusal)
  | unfresh
  /-- The engine answers the spawn of a `runCall`. -/
  | placed (o : Option Refusal)
  | keep (how : Yard.Kept)
  | answered (written : Bool)
  | takeQueued
  /-- The fiber at `i` begins its first call. -/
  | begins (i : Nat)
  /-- The call of the fiber at `i` is over. -/
  | finishes (i : Nat)
  | stop
deriving DecidableEq, Repr

namespace Yard

/-- One step, when it can happen. -/
def step (y : Yard) : Beat → Option Yard
  | .start r => if y.errand = .idle then some (y.start r) else none
  | .rendezvous => if y.errand = .idle then some y.takeFirst else none
  | .spawned o => match y.errand, o with
    | .spawning r, none => some { y.spawn r .fresh with errand := .idle }
    | .spawning r, some why => some { y with errand := .unspawned r why }
    | _, _ => none
  | .unfresh => match y.errand with
    | .unspawned r why => some (y.unfresh r why)
    | _ => none
  | .placed o => match y.errand with
    | .placing r after => some (y.place r after o)
    | _ => none
  | .keep how => match y.errand with
    | .keeping r after => some (y.keep r after how)
    | _ => none
  | .answered written => match y.errand with
    | .turning r after => some (y.answer r after written)
    | _ => none
  | .takeQueued => match y.errand with
    | .draining d => some (y.takeQueued d)
    | _ => none
  | .begins i => match y.fibers[i]? with
    | some ⟨r, .fresh⟩ =>
      some { y with shared := y.shared.unfresh, fibers := y.fibers.set i ⟨r, .running⟩ }
    | _ => none
  | .finishes i => match y.fibers[i]? with
    | some ⟨_, .fresh⟩ | none => none
    | some ⟨r, .alone⟩ => some ((y.closeCall ⟨r, .alone⟩).finish i ⟨r, .alone⟩)
    | some f => some ((y.closeCall f).finishNext i f)
  | .stop => some { y with stopping := true }

/-- Steps one after the other. -/
def run (y : Yard) : List Beat → Option Yard
  | [] => some y
  | m :: rest => (y.step m).bind (·.run rest)

/-! ## What holds between two steps -/

/-- The books: the queue is what was queued less what was taken, and every call that was
taken is in one pair of hands or has ended, as often as it was taken. -/
structure Ledger (y : Yard) : Prop where
  order : y.queued = y.taken ++ y.shared.pending
  once : ∀ r, y.taken.count r + y.direct.count r =
    y.hands.count r + y.ran.count r + y.turned.count r + y.deferred.count r
  running : y.shared.running = y.shared.pending.length + y.hands.length
  fresh : y.shared.fresh = y.fibers.countP (·.stage == .fresh) + y.errand.counted

/-- Somebody will come back to the queue. -/
def Attended (y : Yard) : Prop :=
  (∃ f ∈ y.fibers, f.stage.takes = true) ∨ y.errand.drains = true

/-- A call is queued only behind somebody who will take it. -/
def Served (y : Yard) : Prop :=
  y.shared.fresh ≤ 1 ∧ (y.cut = false → y.shared.pending ≠ [] → y.Attended)

end Yard

/-- The connection is about to answer calls that are not run. -/
def Errand.turns : Errand → Bool
  | .turning _ _ | .draining .turn => true
  | .placing _ d | .keeping _ d => decide (d = some .turn)
  | _ => false

/-- The connection has a call and no engine to run it. -/
def Errand.keeps : Errand → Bool
  | .keeping _ _ => true
  | _ => false

namespace Yard

/-- No call is turned away by a server that goes on, and none is put off by one with an
engine. -/
structure Willing (y : Yard) : Prop where
  runs : y.stopping = false → y.refused = false →
    y.turned = [] ∧ (∀ f ∈ y.fibers, f.stage ≠ .turning) ∧ y.errand.turns = false
  hosted : y.hostless = false → y.deferred = [] ∧ y.errand.keeps = false

variable {y y' : Yard} {r : Ref} {i : Nat} {f : Fiber} {after : Option Drain}

/-! ## The order of the fibers does not matter -/

theorem Ledger.perm {l : List Fiber} (h : y.Ledger) (hp : y.fibers.Perm l) :
    ({ y with fibers := l } : Yard).Ledger := by
  have hm := hp.map (·.call)
  refine ⟨h.order, fun r => ?_, ?_, ?_⟩
  · have := h.once r
    simp only [hands, List.count_append] at this ⊢
    rw [← hm.count_eq]
    exact this
  · have := h.running
    simp only [hands, List.length_append] at this ⊢
    rw [← hm.length_eq]
    exact this
  · have := h.fresh
    rw [hp.countP_eq] at this
    exact this

theorem Served.perm {l : List Fiber} (h : y.Served) (hp : y.fibers.Perm l) :
    ({ y with fibers := l } : Yard).Served := by
  refine ⟨h.1, fun hc hne => ?_⟩
  rcases h.2 hc hne with ⟨f, hf, ht⟩ | hd
  · exact .inl ⟨f, hp.subset hf, ht⟩
  · exact .inr hd

theorem Willing.perm {l : List Fiber} (h : y.Willing) (hp : y.fibers.Perm l) :
    ({ y with fibers := l } : Yard).Willing := by
  refine ⟨fun hs hr => ?_, h.hosted⟩
  obtain ⟨ht, hf, he⟩ := h.runs hs hr
  exact ⟨ht, fun f hm => hf f (hp.symm.subset hm), he⟩

theorem perm_out {l : List Fiber} (hi : l[i]? = some f) : l.Perm (f :: l.eraseIdx i) := by
  obtain ⟨hlt, rfl⟩ := List.getElem?_eq_some_iff.1 hi
  exact (List.getElem_cons_eraseIdx_perm hlt).symm

theorem perm_set {l : List Fiber} (hi : l[i]? = some f) (g : Fiber) :
    (g :: l.eraseIdx i).Perm (l.set i g) := by
  obtain ⟨hlt, -⟩ := List.getElem?_eq_some_iff.1 hi
  exact (List.set_perm_cons_eraseIdx hlt g).symm

/-- Everything that holds between two steps. -/
structure Orderly (y : Yard) : Prop where
  ledger : y.Ledger
  served : y.Served
  willing : y.Willing

theorem Orderly.perm {l : List Fiber} (h : y.Orderly) (hp : y.fibers.Perm l) :
    ({ y with fibers := l } : Yard).Orderly :=
  ⟨h.ledger.perm hp, h.served.perm hp, h.willing.perm hp⟩

/-! ## The connection's own steps -/

/-- A call waits behind the ones before it, and nobody may be there to take it yet. -/
structure Waits (y : Yard) : Prop where
  ledger : y.Ledger
  fresh : y.shared.fresh ≤ 1
  /-- With the oldest call gone somebody comes back to the rest. -/
  behind : y.cut = false → y.shared.pending.tail ≠ [] → y.Attended
  /-- And to all of them, behind a fiber that has not begun. -/
  front : y.cut = false → y.shared.fresh ≠ 0 → y.Attended
  willing : y.Willing

theorem Orderly.waits (h : y.Orderly) (he : y.errand = .idle) : y.Waits := by
  refine ⟨h.ledger, h.served.1, fun hc hne => h.served.2 hc ?_, fun hc hf => ?_, h.willing⟩
  · rintro hnil
    rw [hnil] at hne
    exact hne rfl
  · have hfresh := h.ledger.fresh
    rw [he] at hfresh
    have hpos : 0 < y.fibers.countP (·.stage == .fresh) := by
      simp only [Errand.counted] at hfresh
      omega
    obtain ⟨f, hm, hs⟩ := List.countP_pos_iff.1 hpos
    refine .inl ⟨f, hm, ?_⟩
    rw [beq_iff_eq] at hs
    rw [hs]
    rfl

theorem Waits.takeFirst (h : y.Waits) (he : y.errand = .idle) : y.takeFirst.Orderly := by
  unfold Yard.takeFirst Shared.takeFirstIfNoneFresh
  by_cases hf : y.shared.fresh ≠ 0
  · rw [if_pos hf]
    exact ⟨h.ledger, ⟨h.fresh, fun hc _ => h.front hc hf⟩, h.willing⟩
  rw [if_neg hf]
  cases hp : y.shared.pending with
  | nil => exact ⟨h.ledger, ⟨h.fresh, fun _ hne => absurd hp hne⟩, h.willing⟩
  | cons head rest =>
    obtain ⟨horder, honce, hrunning, hfresh⟩ := h.ledger
    rw [hp] at horder hrunning
    simp only [hands, he, Errand.hand, Errand.counted, List.append_nil] at honce hrunning hfresh
    refine ⟨⟨?_, fun r => ?_, ?_, ?_⟩, ⟨?_, fun hc hne => ?_⟩, ⟨fun hs hr => ?_, fun hh => ?_⟩⟩
    · simpa using horder
    · have := honce r
      simp only [hands, Errand.hand, List.count_append]
      omega
    · simp only [hands, Errand.hand, List.length_append, List.length_cons, List.length_nil]
        at hrunning ⊢
      omega
    · simp only [Errand.counted]
      omega
    · show y.shared.fresh + 1 ≤ 1
      omega
    · have hb := h.behind hc (by rw [hp]; exact hne)
      rcases hb with hf | hd
      · exact .inl hf
      · rw [he] at hd
        cases hd
    · obtain ⟨ht, hfib, -⟩ := h.willing.runs hs hr
      exact ⟨ht, hfib, rfl⟩
    · exact ⟨(h.willing.hosted hh).1, rfl⟩

/-- A call is queued. -/
theorem Orderly.enqueued (h : y.Orderly) (he : y.errand = .idle) :
    ({ y.started with
        shared := y.started.shared.enqueue r, queued := y.queued ++ [r] } : Yard).Waits := by
  have hw := h.waits he
  obtain ⟨horder, honce, hrunning, hfresh⟩ := h.ledger
  refine ⟨⟨?_, honce, ?_, hfresh⟩, hw.fresh, fun hc hne => ?_, hw.front,
    ⟨hw.willing.runs, hw.willing.hosted⟩⟩
  · show y.queued ++ [r] = y.taken ++ (y.shared.pending ++ [r])
    rw [horder, List.append_assoc]
  · show y.shared.running + 1 = (y.shared.pending ++ [r]).length + y.hands.length
    simp only [List.length_append, List.length_cons, List.length_nil]
    omega
  · refine h.served.2 hc ?_
    rintro hnil
    refine hne ?_
    show (y.shared.pending ++ [r]).tail = []
    rw [hnil]
    rfl

theorem Orderly.start (h : y.Orderly) (he : y.errand = .idle) : (y.start r).Orderly := by
  unfold Yard.start
  dsimp only
  split
  · exact (h.enqueued he).takeFirst he
  · obtain ⟨horder, honce, hrunning, hfresh⟩ := h.ledger
    simp only [hands, he, Errand.hand, Errand.counted, List.append_nil] at honce hrunning hfresh
    refine ⟨⟨horder, fun r' => ?_, ?_, hfresh⟩, ⟨h.served.1, fun hc hne => ?_⟩,
      ⟨fun hs hr => ?_, fun hh => ?_⟩⟩
    · have := honce r'
      simp only [hands, Yard.started, Errand.hand, List.count_append]
      omega
    · simp only [hands, Yard.started, Errand.hand, List.length_append, List.length_cons,
        List.length_nil] at hrunning ⊢
      omega
    · rcases h.served.2 hc hne with hf | hd
      · exact .inl hf
      · rw [he] at hd
        cases hd
    · obtain ⟨ht, hfib, -⟩ := h.willing.runs hs hr
      exact ⟨ht, hfib, rfl⟩
    · exact ⟨(h.willing.hosted hh).1, rfl⟩

end Yard

namespace Errand

variable {after : Option Drain}

@[simp] theorem next_hand : (Errand.next after).hand = [] := by
  cases after <;> rfl

@[simp] theorem next_counted : (Errand.next after).counted = 0 := by
  cases after <;> rfl

@[simp] theorem next_drains : (Errand.next after).drains = after.isSome := by
  cases after <;> rfl

@[simp] theorem next_turns : (Errand.next after).turns = decide (after = some .turn) := by
  cases after with
  | none => rfl
  | some d => cases d <;> rfl

@[simp] theorem next_keeps : (Errand.next after).keeps = false := by
  cases after <;> rfl

end Errand

namespace Yard

variable {y y' : Yard} {r : Ref} {i : Nat} {f : Fiber} {after : Option Drain}

/-- The engine has given the fiber that was counted. -/
theorem Orderly.spawned (h : y.Orderly) (he : y.errand = .spawning r) :
    ({ y.spawn r .fresh with errand := .idle } : Yard).Orderly := by
  obtain ⟨horder, honce, hrunning, hfresh⟩ := h.ledger
  simp only [hands, he, Errand.hand, Errand.counted] at honce hrunning hfresh
  refine ⟨⟨horder, fun r' => ?_, ?_, ?_⟩, ⟨h.served.1, fun _ _ => ?_⟩,
    ⟨fun hs hr => ?_, fun hh => ?_⟩⟩
  · have := honce r'
    simpa [hands, Yard.spawn, Errand.hand, List.count_append] using this
  · simpa [hands, Yard.spawn, Errand.hand] using hrunning
  · simpa [Yard.spawn, Errand.counted, List.countP_append] using hfresh
  · exact .inl ⟨⟨r, .fresh⟩, by simp [Yard.spawn], rfl⟩
  · obtain ⟨ht, hfib, -⟩ := h.willing.runs hs hr
    refine ⟨ht, fun f hf => ?_, rfl⟩
    rcases List.mem_append.1 hf with hf | hf
    · exact hfib f hf
    · rw [List.mem_singleton.1 hf]
      exact nofun
  · exact ⟨(h.willing.hosted hh).1, rfl⟩

/-- The engine has refused it. -/
theorem Orderly.unspawned (h : y.Orderly) (he : y.errand = .spawning r) {why : Refusal} :
    ({ y with errand := .unspawned r why } : Yard).Orderly := by
  obtain ⟨horder, honce, hrunning, hfresh⟩ := h.ledger
  simp only [hands, he, Errand.hand, Errand.counted] at honce hrunning hfresh
  refine ⟨⟨horder, honce, hrunning, hfresh⟩, ⟨h.served.1, fun hc hne => ?_⟩,
    ⟨fun hs hr => ?_, fun hh => ?_⟩⟩
  · rcases h.served.2 hc hne with hf | hd
    · exact .inl hf
    · rw [he] at hd
      cases hd
  · obtain ⟨ht, hfib, -⟩ := h.willing.runs hs hr
    exact ⟨ht, hfib, rfl⟩
  · exact ⟨(h.willing.hosted hh).1, rfl⟩

/-- The call stays in the connection's hands, and the fiber that was counted is not. -/
theorem Ledger.unfresh {why : Refusal} {e : Errand} (h : y.Ledger)
    (he : y.errand = .unspawned r why) (hh : e.hand = [r]) (hn : e.counted = 0) :
    ({ y with shared := y.shared.unfresh, errand := e } : Yard).Ledger := by
  obtain ⟨horder, honce, hrunning, hfresh⟩ := h
  simp only [hands, he, Errand.hand, Errand.counted] at honce hrunning hfresh
  refine ⟨horder, fun r' => ?_, ?_, ?_⟩
  · simp only [hands, hh]
    exact honce r'
  · simp only [hands, hh]
    exact hrunning
  · show y.shared.fresh - 1 = y.fibers.countP (·.stage == .fresh) + e.counted
    omega

theorem Orderly.unfresh {why : Refusal} (h : y.Orderly) (he : y.errand = .unspawned r why) :
    (y.unfresh r why).Orderly := by
  have hone : y.shared.unfresh.fresh ≤ 1 := by
    have := h.served.1
    simp only [Shared.unfresh]
    omega
  have hatt : y.cut = false → y.shared.pending ≠ [] →
      (∃ f ∈ y.fibers, f.stage.takes = true) ∨ why ≠ .noServer := by
    intro hc hne
    rcases h.served.2 hc hne with hf | hd
    · exact .inl hf
    · rw [he] at hd
      exact .inr (by simpa [Errand.drains] using hd)
  cases why with
  | noServer =>
    have hl := h.ledger.unfresh (e := .keeping r none) he rfl rfl
    refine ⟨⟨hl.order, hl.once, hl.running, hl.fresh⟩, ⟨hone, fun hc hne => ?_⟩,
      ⟨fun hs hr => ?_, nofun⟩⟩
    · rcases hatt hc hne with hf | hn
      · exact .inl hf
      · exact absurd rfl hn
    · obtain ⟨ht, hfib, -⟩ := h.willing.runs hs hr
      exact ⟨ht, hfib, rfl⟩
  | invalidPlacement =>
    have hl := h.ledger.unfresh (e := .placing r (some .place)) he rfl rfl
    refine ⟨⟨hl.order, hl.once, hl.running, hl.fresh⟩, ⟨hone, fun _ _ => .inr rfl⟩,
      ⟨fun hs hr => ?_, fun hh => ?_⟩⟩
    · obtain ⟨ht, hfib, -⟩ := h.willing.runs hs hr
      exact ⟨ht, hfib, rfl⟩
    · exact ⟨(h.willing.hosted hh).1, rfl⟩
  | stopping =>
    have hl := h.ledger.unfresh (e := .turning r (some .turn)) he rfl rfl
    refine ⟨⟨hl.order, hl.once, hl.running, hl.fresh⟩, ⟨hone, fun _ _ => .inr rfl⟩,
      ⟨nofun, fun hh => ?_⟩⟩
    exact ⟨(h.willing.hosted hh).1, rfl⟩

/-- The call in the connection's hands goes to a fiber of its own. -/
theorem Orderly.handedOver {e : Errand} (h : y.Orderly) (hh : y.errand.hand = [r])
    (hn : y.errand.counted = 0) (hd : y.errand.drains = after.isSome)
    (ht : y.errand.turns = decide (after = some .turn)) (he : e = Errand.next after) :
    ({ y.spawn r .alone with errand := e } : Yard).Orderly := by
  subst he
  obtain ⟨horder, honce, hrunning, hfresh⟩ := h.ledger
  simp only [hands, hh, hn] at honce hrunning hfresh
  refine ⟨⟨horder, fun r' => ?_, ?_, ?_⟩, ⟨h.served.1, fun hc hne => ?_⟩,
    ⟨fun hs hr => ?_, fun hh => ?_⟩⟩
  · have := honce r'
    simpa [hands, Yard.spawn, List.count_append] using this
  · simpa [hands, Yard.spawn] using hrunning
  · simpa [Yard.spawn, List.countP_append] using hfresh
  · rcases h.served.2 hc hne with ⟨f, hf, htk⟩ | hdr
    · exact .inl ⟨f, List.mem_append_left _ hf, htk⟩
    · exact .inr (by rw [Errand.next_drains, ← hd]; exact hdr)
  · obtain ⟨htn, hfib, htu⟩ := h.willing.runs hs hr
    refine ⟨htn, fun f hf => ?_, by rw [Errand.next_turns, ← ht]; exact htu⟩
    rcases List.mem_append.1 hf with hf | hf
    · exact hfib f hf
    · rw [List.mem_singleton.1 hf]
      exact nofun
  · exact ⟨(h.willing.hosted hh).1, Errand.next_keeps⟩

theorem Orderly.place (h : y.Orderly) (he : y.errand = .placing r after) (o : Option Refusal) :
    (y.place r after o).Orderly := by
  have hl := h.ledger
  have hdr : y.errand.drains = after.isSome := by rw [he]; rfl
  have kept : ∀ {e : Errand}, e.hand = [r] → e.counted = 0 →
      ({ y with errand := e } : Yard).Ledger := by
    intro e hh hn
    obtain ⟨horder, honce, hrunning, hfresh⟩ := h.ledger
    simp only [hands, he, Errand.hand, Errand.counted] at honce hrunning hfresh
    refine ⟨horder, fun r' => ?_, ?_, ?_⟩
    · simp only [hands, hh]
      exact honce r'
    · simp only [hands, hh]
      exact hrunning
    · rw [hn]
      exact hfresh
  cases o with
  | none =>
    refine h.handedOver ?_ ?_ hdr ?_ rfl
    all_goals rw [he]; rfl
  | some why =>
    cases why with
    | noServer =>
      have hk := kept (e := .keeping r after) rfl rfl
      refine ⟨⟨hk.order, hk.once, hk.running, hk.fresh⟩, ⟨h.served.1, fun hc hne => ?_⟩,
        ⟨fun hs hr => ?_, nofun⟩⟩
      · rcases h.served.2 hc hne with hf | hd
        · exact .inl hf
        · rw [hdr] at hd
          exact .inr hd
      · obtain ⟨htn, hfib, htu⟩ := h.willing.runs hs hr
        rw [he] at htu
        exact ⟨htn, hfib, htu⟩
    | invalidPlacement | stopping =>
      have hk := kept (e := .turning r (some .turn)) rfl rfl
      exact ⟨⟨hk.order, hk.once, hk.running, hk.fresh⟩, ⟨h.served.1, fun _ _ => .inr rfl⟩,
        ⟨nofun, fun hh => ⟨(h.willing.hosted hh).1, rfl⟩⟩⟩

/-- The call in the connection's hands has ended, one way or another. -/
theorem Ledger.ended (h : y.Ledger) (hh : y.errand.hand = [r]) (hn : y.errand.counted = 0)
    (hp : y'.shared.pending = y.shared.pending)
    (hr : y'.shared.running = y.shared.running - 1) (hf : y'.shared.fresh = y.shared.fresh)
    (hfib : y'.fibers = y.fibers) (hq : y'.queued = y.queued) (ht : y'.taken = y.taken)
    (hd : y'.direct = y.direct) (he : y'.errand.hand = []) (hc : y'.errand.counted = 0)
    (hsum : ∀ r', y'.ran.count r' + y'.turned.count r' + y'.deferred.count r' =
      y.ran.count r' + y.turned.count r' + y.deferred.count r' + [r].count r') : y'.Ledger := by
  obtain ⟨horder, honce, hrunning, hfresh⟩ := h
  simp only [hands, hh, hn] at honce hrunning hfresh
  refine ⟨?_, fun r' => ?_, ?_, ?_⟩
  · rw [hq, ht, hp]
    exact horder
  · have h₁ := honce r'
    have h₂ := hsum r'
    simp only [hands, he, hfib, ht, hd, List.count_append, List.append_nil] at h₁ ⊢
    omega
  · simp only [hands, he, hfib, hp, hr, List.length_append, List.length_cons, List.length_nil]
      at hrunning ⊢
    omega
  · rw [hf, hfib, hc]
    exact hfresh

theorem Orderly.keep (h : y.Orderly) (he : y.errand = .keeping r after) (how : Kept) :
    (y.keep r after how).Orderly := by
  have hh : y.errand.hand = [r] := by rw [he]; rfl
  have hn : y.errand.counted = 0 := by rw [he]; rfl
  have hdr : y.errand.drains = after.isSome := by rw [he]; rfl
  have htu : y.errand.turns = decide (after = some .turn) := by rw [he]; rfl
  have hatt : ∀ {e : Errand}, e.drains = after.isSome → y.cut = false → y.shared.pending ≠ [] →
      ({ y with errand := e } : Yard).Attended := by
    intro e hd hc hne
    rcases h.served.2 hc hne with hf | hd'
    · exact .inl hf
    · exact .inr (by rw [← hd] at hdr; rw [← hdr]; exact hd')
  have hruns : y.stopping = false → y.refused = false → y.turned = [] ∧
      (∀ f ∈ y.fibers, f.stage ≠ .turning) ∧ (Errand.next after).turns = false := by
    intro hs hr
    obtain ⟨htn, hfib, ht⟩ := h.willing.runs hs hr
    exact ⟨htn, hfib, by rw [Errand.next_turns, ← htu]; exact ht⟩
  have hhost : y.hostless = true := by
    by_contra hne
    have := (h.willing.hosted (Bool.eq_false_iff.2 hne)).2
    rw [he] at this
    cases this
  cases how with
  | deferred =>
    refine ⟨h.ledger.ended hh hn rfl rfl rfl rfl rfl rfl rfl Errand.next_hand
      Errand.next_counted fun r' => ?_, ⟨h.served.1, hatt Errand.next_drains⟩, ⟨hruns, fun hf => ?_⟩⟩
    · simp only [Yard.keep, Yard.unstarted, List.count_append]
      omega
    · exact absurd (hhost.symm.trans hf) (by decide)
  | inlined =>
    refine ⟨h.ledger.ended hh hn rfl rfl rfl rfl rfl rfl rfl Errand.next_hand
      Errand.next_counted fun r' => ?_, ⟨h.served.1, hatt Errand.next_drains⟩, ⟨hruns, fun hf => ?_⟩⟩
    · simp only [Yard.keep, List.count_append]
      omega
    · exact absurd (hhost.symm.trans hf) (by decide)
  | threaded => exact h.handedOver hh hn hdr htu rfl
  | noThread =>
    obtain ⟨horder, honce, hrunning, hfresh⟩ := h.ledger
    simp only [hands, he, Errand.hand, Errand.counted] at honce hrunning hfresh
    refine ⟨⟨horder, honce, hrunning, hfresh⟩, ⟨h.served.1, hatt rfl⟩, ⟨nofun, fun hf => ?_⟩⟩
    exact absurd (hhost.symm.trans hf) (by decide)

theorem Orderly.answer (h : y.Orderly) (he : y.errand = .turning r after) (written : Bool) :
    (y.answer r after written).Orderly := by
  have hh : y.errand.hand = [r] := by rw [he]; rfl
  have hn : y.errand.counted = 0 := by rw [he]; rfl
  have hturns : y.errand.turns = true := by rw [he]; rfl
  refine ⟨h.ledger.ended hh hn rfl rfl rfl rfl rfl rfl rfl ?_ ?_ fun r' => ?_,
    ⟨h.served.1, fun hc hne => ?_⟩, ⟨fun hs hr => ?_, fun hh => ?_⟩⟩
  · cases written with
    | false => rfl
    | true => exact Errand.next_hand
  · cases written with
    | false => rfl
    | true => exact Errand.next_counted
  · simp only [Yard.answer, Yard.unstarted, List.count_append]
    omega
  · have hcut : y.cut = false ∧ written = true := by
      have : (y.cut || !written) = false := hc
      simpa using this
    rcases h.served.2 hcut.1 hne with hf | hd
    · exact .inl hf
    · refine .inr ?_
      rw [he] at hd
      show (if written then Errand.next after else Errand.idle).drains = true
      rw [if_pos hcut.2, Errand.next_drains]
      exact hd
  · have := (h.willing.runs hs hr).2.2
    rw [hturns] at this
    cases this
  · refine ⟨(h.willing.hosted hh).1, ?_⟩
    show (if written then Errand.next after else Errand.idle).keeps = false
    split
    · exact Errand.next_keeps
    · rfl

theorem Orderly.takeQueued {d : Drain} (h : y.Orderly) (he : y.errand = .draining d) :
    (y.takeQueued d).Orderly := by
  obtain ⟨horder, honce, hrunning, hfresh⟩ := h.ledger
  simp only [hands, he, Errand.hand, Errand.counted] at honce hrunning hfresh
  unfold Yard.takeQueued Shared.takeQueued
  cases hp : y.shared.pending with
  | nil =>
    refine ⟨⟨horder, honce, hrunning, hfresh⟩, ⟨h.served.1, fun _ hne => absurd hp hne⟩,
      ⟨fun hs hr => ?_, fun hh => ⟨(h.willing.hosted hh).1, rfl⟩⟩⟩
    obtain ⟨htn, hfib, -⟩ := h.willing.runs hs hr
    exact ⟨htn, hfib, rfl⟩
  | cons q rest =>
    rw [hp] at horder hrunning
    refine ⟨⟨?_, fun r' => ?_, ?_, ?_⟩, ⟨h.served.1, fun _ _ => .inr ?_⟩,
      ⟨fun hs hr => ?_, fun hh => ⟨(h.willing.hosted hh).1, ?_⟩⟩⟩
    · simpa using horder
    · have := honce r'
      cases d <;> simp only [hands, Errand.hand, List.count_append, List.append_nil] at this ⊢ <;> omega
    · cases d <;> simp only [hands, Errand.hand, List.length_append, List.length_cons,
        List.length_nil] at hrunning ⊢ <;> omega
    · cases d <;> exact hfresh
    · cases d <;> rfl
    · obtain ⟨htn, hfib, ht⟩ := h.willing.runs hs hr
      rw [he] at ht
      cases d with
      | place => exact ⟨htn, hfib, rfl⟩
      | turn => cases ht
    · cases d <;> rfl

/-! ## The steps of the fibers -/

theorem Orderly.begins {l : List Fiber} (h : y.Orderly) (hl : y.fibers = ⟨r, .fresh⟩ :: l) :
    ({ y with shared := y.shared.unfresh, fibers := ⟨r, .running⟩ :: l } : Yard).Orderly := by
  obtain ⟨horder, honce, hrunning, hfresh⟩ := h.ledger
  simp only [hands, hl, List.map_cons] at honce hrunning
  rw [hl, List.countP_cons_of_pos rfl] at hfresh
  refine ⟨⟨horder, honce, hrunning, ?_⟩, ⟨?_, fun _ _ => .inl ⟨_, List.mem_cons_self, rfl⟩⟩,
    ⟨fun hs hr => ?_, h.willing.hosted⟩⟩
  · have hrun : (⟨r, .running⟩ :: l : List Fiber).countP (·.stage == .fresh) =
        l.countP (·.stage == .fresh) := List.countP_cons_of_neg (by exact nofun)
    show y.shared.fresh - 1 = (⟨r, .running⟩ :: l : List Fiber).countP _ + y.errand.counted
    rw [hrun]
    omega
  · have := h.served.1
    show y.shared.fresh - 1 ≤ 1
    omega
  · obtain ⟨htn, hfib, ht⟩ := h.willing.runs hs hr
    refine ⟨htn, fun g hg => ?_, ht⟩
    rcases List.mem_cons.1 hg with rfl | hg
    · exact nofun
    · exact hfib g (hl ▸ List.mem_cons_of_mem _ hg)

/-- The books after a call of the first fiber is over, less the fiber. -/
theorem Ledger.closed {l : List Fiber} {s : Shared} (h : y.Ledger) (hl : y.fibers = f :: l)
    (hs : f.stage ≠ .fresh) (hp : s.pending = y.shared.pending)
    (hr : s.running = y.shared.running - 1) (hf : s.fresh = y.shared.fresh) :
    ({ y.closeCall f with shared := s, fibers := l } : Yard).Ledger := by
  obtain ⟨horder, honce, hrunning, hfresh⟩ := h
  have hne : (f.stage == .fresh) = false := by simpa using hs
  rw [hl, List.countP_cons_of_neg (by simpa using hne)] at hfresh
  simp only [hands, hl, List.map_cons, List.cons_append] at honce hrunning
  have horder' : y.queued = y.taken ++ s.pending := by
    rw [hp]
    exact horder
  have hrunning' : s.running = s.pending.length + (l.map (·.call) ++ y.errand.hand).length := by
    rw [hp, hr, hrunning, List.length_cons]
    omega
  have hfresh' : s.fresh = l.countP (·.stage == .fresh) + y.errand.counted := hf.trans hfresh
  refine ⟨horder', fun r' => ?_, hrunning', hfresh'⟩
  have := honce r'
  simp only [hands, Yard.closeCall, List.count_append, List.count_cons] at this ⊢
  split <;> simp only [List.count_append, List.count_cons, List.count_nil] <;> omega

/-- A call is turned away by a fiber only when that fiber was told to. -/
theorem Willing.closed {l : List Fiber} {s : Shared} (h : y.Willing) (hl : y.fibers = f :: l) :
    ({ y.closeCall f with shared := s, fibers := l } : Yard).Willing := by
  have hrest : (∀ g ∈ y.fibers, g.stage ≠ .turning) → ∀ g ∈ l, g.stage ≠ .turning :=
    fun hall g hg => hall g (hl ▸ List.mem_cons_of_mem _ hg)
  refine ⟨fun hs hr => ?_, h.hosted⟩
  obtain ⟨htn, hfib, ht⟩ := h.runs hs hr
  refine ⟨?_, hrest hfib, ht⟩
  have hf : f.stage ≠ .turning := hfib f (hl ▸ List.mem_cons_self)
  simp only [Yard.closeCall, if_neg hf]
  exact htn

/-- A fiber with a call of its own ends with it: nobody relied on it. -/
theorem Orderly.finish {l : List Fiber} (h : y.Orderly) (hl : y.fibers = ⟨r, .alone⟩ :: l) :
    ({ y.closeCall ⟨r, .alone⟩ with shared := y.shared.finish r, fibers := l } : Yard).Orderly := by
  refine ⟨h.ledger.closed hl nofun rfl rfl rfl, ⟨h.served.1, fun hc hne => ?_⟩,
    h.willing.closed hl⟩
  rcases h.served.2 hc hne with ⟨g, hg, ht⟩ | hd
  · rw [hl] at hg
    rcases List.mem_cons.1 hg with rfl | hg
    · cases ht
    · exact .inl ⟨g, hg, ht⟩
  · exact .inr hd

/-- A fiber ends when it finds the queue empty, in the hold of the lock it looks in. -/
theorem Orderly.finishLast {l : List Fiber} (h : y.Orderly) (hl : y.fibers = f :: l)
    (hs : f.stage ≠ .fresh) (hp : y.shared.pending = []) :
    ({ y.closeCall f with shared := y.shared.finish f.call, fibers := l } : Yard).Orderly := by
  refine ⟨h.ledger.closed hl hs rfl rfl rfl, ⟨h.served.1, fun _ hne => absurd hp hne⟩,
    h.willing.closed hl⟩

/-- Or it has the next call. -/
theorem Orderly.finishNext {l : List Fiber} {q : Ref} {rest : List Ref} (h : y.Orderly)
    (hl : y.fibers = f :: l) (hs : f.stage ≠ .fresh) (hp : y.shared.pending = q :: rest) :
    ({ y.closeCall f with
        shared := { y.shared with pending := rest }.finish f.call
        taken := y.taken ++ [q]
        fibers := ⟨q, if y.stopping then .turning else .running⟩ :: l } : Yard).Orderly := by
  obtain ⟨horder, honce, hrunning, hfresh⟩ :=
    h.ledger.closed (s := y.shared.finish f.call) hl hs rfl rfl rfl
  have hw := h.willing.closed (s := y.shared) hl
  have hnew : ((if y.stopping then Stage.turning else Stage.running) == .fresh) = false := by
    cases y.stopping <;> rfl
  refine ⟨⟨?_, fun r' => ?_, ?_, ?_⟩, ⟨h.served.1, fun _ _ => .inl ⟨_, List.mem_cons_self, ?_⟩⟩,
    ⟨fun hst hr => ?_, hw.hosted⟩⟩
  · have : y.queued = y.taken ++ y.shared.pending := h.ledger.order
    rw [hp] at this
    show y.queued = (y.taken ++ [q]) ++ rest
    simpa using this
  · have := honce r'
    simp only [hands, Yard.closeCall, List.map_cons, List.cons_append, List.count_append,
      List.count_cons, List.count_nil] at this ⊢
    omega
  · have : y.shared.running - 1 = y.shared.pending.length +
        (l.map (·.call) ++ y.errand.hand).length := hrunning
    rw [hp] at this
    simp only [hands, Yard.closeCall, Shared.finish, List.map_cons, List.cons_append,
      List.length_cons] at this ⊢
    omega
  · rw [List.countP_cons_of_neg (by simp only [hnew]; decide)]
    exact hfresh
  · cases y.stopping <;> rfl
  · obtain ⟨htn, hfib, ht⟩ := hw.runs hst hr
    refine ⟨htn, fun g hg => ?_, ht⟩
    rcases List.mem_cons.1 hg with rfl | hg
    · have hst : y.stopping = false := hst
      rw [hst]
      exact nofun
    · exact hfib g hg

/-! ## Every interleaving -/

/-- The fiber at `i` is as good as the first. -/
theorem Orderly.first (h : y.Orderly) (hi : y.fibers[i]? = some f) :
    ({ y with fibers := f :: y.fibers.eraseIdx i } : Yard).Orderly :=
  h.perm (perm_out hi)

theorem Orderly.overNext (h : y.Orderly) (hi : y.fibers[i]? = some f) (hs : f.stage ≠ .fresh) :
    ((y.closeCall f).finishNext i f).Orderly := by
  have hfirst := h.first hi
  unfold Yard.finishNext Shared.finishNext Shared.takeQueued
  have hsh : (y.closeCall f).shared = y.shared := rfl
  rw [hsh]
  cases hp : y.shared.pending with
  | nil => exact hfirst.finishLast rfl hs hp
  | cons q rest => exact (hfirst.finishNext rfl hs hp).perm (perm_set hi _)

theorem Orderly.step {m : Beat} (h : y.Orderly) (hm : y.step m = some y') : y'.Orderly := by
  cases m with
  | start r =>
    simp only [Yard.step] at hm
    split at hm
    · rename_i he
      obtain rfl := Option.some.inj hm
      exact h.start he
    · cases hm
  | rendezvous =>
    simp only [Yard.step] at hm
    split at hm
    · rename_i he
      obtain rfl := Option.some.inj hm
      exact (h.waits he).takeFirst he
    · cases hm
  | spawned o =>
    simp only [Yard.step] at hm
    split at hm
    · rename_i he
      obtain rfl := Option.some.inj hm
      exact h.spawned he
    · rename_i he
      obtain rfl := Option.some.inj hm
      exact h.unspawned he
    · cases hm
  | unfresh =>
    simp only [Yard.step] at hm
    split at hm
    · rename_i he
      obtain rfl := Option.some.inj hm
      exact h.unfresh he
    · cases hm
  | placed o =>
    simp only [Yard.step] at hm
    split at hm
    · rename_i he
      obtain rfl := Option.some.inj hm
      exact h.place he o
    · cases hm
  | keep how =>
    simp only [Yard.step] at hm
    split at hm
    · rename_i he
      obtain rfl := Option.some.inj hm
      exact h.keep he how
    · cases hm
  | answered written =>
    simp only [Yard.step] at hm
    split at hm
    · rename_i he
      obtain rfl := Option.some.inj hm
      exact h.answer he written
    · cases hm
  | takeQueued =>
    simp only [Yard.step] at hm
    split at hm
    · rename_i he
      obtain rfl := Option.some.inj hm
      exact h.takeQueued he
    · cases hm
  | begins i =>
    simp only [Yard.step] at hm
    split at hm
    · rename_i r hi
      obtain rfl := Option.some.inj hm
      exact ((h.first hi).begins rfl).perm (perm_set hi _)
    · cases hm
  | finishes i =>
    simp only [Yard.step] at hm
    split at hm
    · cases hm
    · cases hm
    · rename_i r hi
      obtain rfl := Option.some.inj hm
      exact (h.first hi).finish rfl
    · rename_i f hfresh _ hi
      obtain rfl := Option.some.inj hm
      refine h.overNext hi fun hs => ?_
      exact hfresh f.call (by rw [← hs])
  | stop =>
    obtain rfl := Option.some.inj hm
    exact ⟨⟨h.ledger.order, h.ledger.once, h.ledger.running, h.ledger.fresh⟩, h.served,
      ⟨nofun, h.willing.hosted⟩⟩

theorem orderly_empty : ({} : Yard).Orderly := by
  refine ⟨⟨rfl, fun _ => rfl, rfl, rfl⟩, ⟨by decide, fun _ hne => absurd rfl hne⟩,
    ⟨fun _ _ => ⟨rfl, nofun, rfl⟩, fun _ => ⟨rfl, rfl⟩⟩⟩

theorem Orderly.run : ∀ {l : List Beat} {y : Yard}, y.Orderly → y.run l = some y' → y'.Orderly
  | [], _, h, hr => Option.some.inj hr ▸ h
  | m :: l, y, h, hr => by
    obtain ⟨y₁, hy₁, hr⟩ := Option.bind_eq_some_iff.1 hr
    exact (h.step hy₁).run hr

end Yard

/-! ## The fibers come to rest -/

/-- The moves of those who have a call in hand: not the ones that bring calls in, nor the
stop, nor a look at the queue by a connection at rest. -/
def Beat.own : Beat → Bool
  | .start _ | .rendezvous | .stop => false
  | _ => true

/-- How many holds of the lock a fiber has before it, with nothing queued. -/
def Fiber.work (f : Fiber) : Nat := if f.stage = .fresh then 2 else 1

def Errand.work : Errand → Nat
  | .idle => 0
  | .spawning _ => 7
  | .unspawned _ _ => 6
  | .placing _ _ => 5
  | .keeping _ _ => 4
  | .turning _ _ => 3
  | .draining _ => 2

theorem Errand.next_work {after : Option Drain} : (Errand.next after).work ≤ 2 := by
  cases after with
  | none => exact Nat.zero_le _
  | some d => exact Nat.le_refl _

namespace Yard

variable {y y' : Yard} {r : Ref} {i : Nat} {f : Fiber}

/-- A bound on the moves still to be made with the calls there are. -/
def work (y : Yard) : Nat :=
  10 * y.shared.pending.length + (y.fibers.map Fiber.work).sum + y.errand.work

theorem sum_out {l : List Fiber} (hi : l[i]? = some f) :
    (l.map Fiber.work).sum = f.work + ((l.eraseIdx i).map Fiber.work).sum := by
  rw [((perm_out hi).map Fiber.work).sum_nat, List.map_cons, List.sum_cons]

theorem sum_set {l : List Fiber} (hi : l[i]? = some f) (g : Fiber) :
    ((l.set i g).map Fiber.work).sum = g.work + ((l.eraseIdx i).map Fiber.work).sum := by
  rw [← ((perm_set hi g).map Fiber.work).sum_nat, List.map_cons, List.sum_cons]

theorem sum_spawn {stage : Stage} : ((y.spawn r stage).fibers.map Fiber.work).sum =
    (y.fibers.map Fiber.work).sum + (Fiber.mk r stage).work := by
  simp [spawn]

theorem fiber_work_pos : 0 < f.work := by
  unfold Fiber.work
  split <;> omega

theorem finishNext_work (hi : y.fibers[i]? = some f) :
    ((y.closeCall f).finishNext i f).work < y.work := by
  have hout := sum_out hi
  have hpos : 0 < f.work := fiber_work_pos
  unfold finishNext Shared.finishNext Shared.takeQueued
  have hsh : (y.closeCall f).shared = y.shared := rfl
  rw [hsh]
  cases hp : y.shared.pending with
  | nil =>
    simp only [work, closeCall, Shared.finish, hp, List.length_nil]
    omega
  | cons q rest =>
    let g : Fiber := ⟨q, if y.stopping then .turning else .running⟩
    have hset := sum_set hi g
    have hone : g.work = 1 := by
      show (Fiber.mk q (if y.stopping then .turning else .running)).work = 1
      cases y.stopping <;> rfl
    show 10 * rest.length + ((y.fibers.set i g).map Fiber.work).sum + y.errand.work < y.work
    simp only [work, hp, List.length_cons]
    omega

/-- A call goes to a fiber of its own. -/
theorem handedOver_work {after : Option Drain} (hw : 4 ≤ y.errand.work) :
    ({ y.spawn r .alone with errand := Errand.next after } : Yard).work < y.work := by
  have hs : ((y.spawn r .alone).fibers.map Fiber.work).sum = _ := sum_spawn
  have hone : (Fiber.mk r .alone).work = 1 := rfl
  have hnext : (Errand.next after).work ≤ 2 := Errand.next_work
  show 10 * y.shared.pending.length + ((y.spawn r .alone).fibers.map Fiber.work).sum +
    (Errand.next after).work < y.work
  unfold work
  omega

theorem place_work {after : Option Drain} (hw : y.errand.work = 5) (o : Option Refusal) :
    (y.place r after o).work < y.work := by
  rcases o with _ | _ | _ | _
  · exact handedOver_work (by omega)
  all_goals
    simp only [place, work, Errand.work] at hw ⊢
    omega

theorem keep_work {after : Option Drain} (hw : y.errand.work = 4) (how : Kept) :
    (y.keep r after how).work < y.work := by
  have hnext : (Errand.next after).work ≤ 2 := Errand.next_work
  cases how with
  | threaded => exact handedOver_work (by omega)
  | deferred | inlined =>
    simp only [keep, work, unstarted, Shared.finish]
    omega
  | noThread =>
    simp only [keep, work, Errand.work] at hw ⊢
    omega

/-- Each move of those who have a call leaves less to do. -/
theorem own_work {m : Beat} (ho : m.own = true) (hm : y.step m = some y') :
    y'.work < y.work := by
  cases m with
  | start _ | rendezvous | stop => cases ho
  | spawned o =>
    simp only [step] at hm
    split at hm
    · rename_i r he
      obtain rfl := Option.some.inj hm
      have hw : y.errand.work = 7 := by rw [he]; rfl
      have hs : ((y.spawn r .fresh).fibers.map Fiber.work).sum = _ := sum_spawn
      have hf : (Fiber.mk r .fresh).work = 2 := rfl
      show 10 * y.shared.pending.length + ((y.spawn r .fresh).fibers.map Fiber.work).sum + 0 < y.work
      unfold work
      omega
    · rename_i he
      obtain rfl := Option.some.inj hm
      have hw : y.errand.work = 7 := by rw [he]; rfl
      simp only [work, Errand.work] at hw ⊢
      omega
    · cases hm
  | unfresh =>
    simp only [step] at hm
    split at hm
    · rename_i r why he
      obtain rfl := Option.some.inj hm
      have hw : y.errand.work = 6 := by rw [he]; rfl
      have hle : (y.unfresh r why).errand.work ≤ 5 := by
        cases why <;> simp only [unfresh, Errand.work] <;> omega
      have hrest : (y.unfresh r why).shared.pending = y.shared.pending ∧
          (y.unfresh r why).fibers = y.fibers := by cases why <;> exact ⟨rfl, rfl⟩
      unfold work
      rw [hrest.1, hrest.2]
      omega
    · cases hm
  | placed o =>
    simp only [step] at hm
    split at hm
    · rename_i r after he
      obtain rfl := Option.some.inj hm
      have hw : y.errand.work = 5 := by rw [he]; rfl
      exact place_work hw o
    · cases hm
  | keep how =>
    simp only [step] at hm
    split at hm
    · rename_i r after he
      obtain rfl := Option.some.inj hm
      have hw : y.errand.work = 4 := by rw [he]; rfl
      exact keep_work hw how
    · cases hm
  | answered written =>
    simp only [step] at hm
    split at hm
    · rename_i r after he
      obtain rfl := Option.some.inj hm
      have hw : y.errand.work = 3 := by rw [he]; rfl
      have hle : (y.answer r after written).errand.work ≤ 2 := by
        cases written with
        | false => exact Nat.zero_le _
        | true => exact Errand.next_work
      show 10 * y.shared.pending.length + (y.fibers.map Fiber.work).sum + _ < y.work
      unfold work
      omega
    · cases hm
  | takeQueued =>
    simp only [step] at hm
    split at hm
    · rename_i d he
      obtain rfl := Option.some.inj hm
      unfold takeQueued Shared.takeQueued
      cases hp : y.shared.pending with
      | nil =>
        simp only [work, he, hp, Errand.work]
        omega
      | cons q rest =>
        cases d <;> simp only [work, he, hp, Errand.work, List.length_cons] <;> omega
    · cases hm
  | begins i =>
    simp only [step] at hm
    split at hm
    · rename_i r hi
      obtain rfl := Option.some.inj hm
      have hout := sum_out hi
      have hset := sum_set hi ⟨r, .running⟩
      have htwo : (Fiber.mk r .fresh).work = 2 := rfl
      have hone : (Fiber.mk r .running).work = 1 := rfl
      simp only [work, Shared.unfresh]
      omega
    · cases hm
  | finishes i =>
    simp only [step] at hm
    split at hm
    · cases hm
    · cases hm
    · rename_i r hi
      obtain rfl := Option.some.inj hm
      have hout := sum_out hi
      have hpos : 0 < (Fiber.mk r .alone).work := fiber_work_pos
      simp only [finish, closeCall, work, Shared.finish]
      omega
    · rename_i f hfresh _ hi
      obtain rfl := Option.some.inj hm
      exact finishNext_work hi

theorem own_run_length : ∀ {l : List Beat} {y : Yard}, y.run l = some y' →
    (∀ m ∈ l, m.own = true) → l.length ≤ y.work
  | [], _, _, _ => Nat.zero_le _
  | m :: l, y, hr, ho => by
    obtain ⟨y₁, hy₁, hr⟩ := Option.bind_eq_some_iff.1 hr
    have hstep := own_work (ho m List.mem_cons_self) hy₁
    have hrest := own_run_length hr fun m hm => ho m (List.mem_cons_of_mem _ hm)
    rw [List.length_cons]
    omega

/-- While somebody has a call, somebody can move. -/
theorem resting (h : ∀ m : Beat, m.own = true → y.step m = none) :
    y.errand = .idle ∧ y.fibers = [] := by
  refine ⟨?_, ?_⟩
  · cases he : y.errand with
    | idle => rfl
    | spawning r => simpa [step, he] using h (.spawned none) rfl
    | unspawned r why => simpa [step, he] using h .unfresh rfl
    | placing r after => simpa [step, he] using h (.placed none) rfl
    | keeping r after => simpa [step, he] using h (.keep .inlined) rfl
    | turning r after => simpa [step, he] using h (.answered true) rfl
    | draining d => simpa [step, he] using h .takeQueued rfl
  · cases hf : y.fibers with
    | nil => rfl
    | cons f l =>
      obtain ⟨r, stage⟩ := f
      cases stage with
      | fresh => simpa [step, hf] using h (.begins 0) rfl
      | running | turning | alone => simpa [step, hf] using h (.finishes 0) rfl

/-! ## Each call once, in order, and none left behind -/

/-- What the hand-off promises. -/
structure HandedOn (y : Yard) : Prop where
  /-- Calls are taken in the order they were queued. -/
  order : y.queued = y.taken ++ y.shared.pending
  /-- Each that was taken is in one pair of hands, or has ended in one way, once. -/
  once : (y.taken ++ y.direct).Perm (y.hands ++ (y.ran ++ y.turned ++ y.deferred))
  /-- A call is turned away only by a server that is stopping or that refused it a fiber. -/
  runs : y.stopping = false → y.refused = false → y.turned = []
  /-- And put off only where there is no engine. -/
  hosted : y.hostless = false → y.deferred = []
  /-- A call in the queue has a fiber, begun or not, or the connection, to take it. -/
  attended : y.cut = false → y.shared.pending ≠ [] → y.Attended
  /-- Those who have a call are done with it after finitely many moves, -/
  settles : ∀ l y', y.run l = some y' → (∀ m ∈ l, m.own = true) → l.length ≤ y.work
  /-- and when none can move, every call that came in has ended, exactly once. -/
  rests : (∀ m : Beat, m.own = true → y.step m = none) → y.cut = false →
    y.shared.pending = [] ∧ (y.queued ++ y.direct).Perm (y.ran ++ y.turned ++ y.deferred)

theorem Ledger.perm_hands (h : y.Ledger) :
    (y.taken ++ y.direct).Perm (y.hands ++ (y.ran ++ y.turned ++ y.deferred)) := by
  rw [List.perm_iff_count]
  intro r
  have := h.once r
  simp only [List.count_append]
  omega

theorem Served.empty_at_rest (h : y.Served) (hc : y.cut = false) (he : y.errand = .idle)
    (hf : y.fibers = []) : y.shared.pending = [] := by
  by_contra hne
  rcases h.2 hc hne with ⟨f, hm, -⟩ | hd
  · rw [hf] at hm
    cases hm
  · rw [he] at hd
    cases hd

/-- **The hand-off of calls.** Whatever the interleaving of the connection's fiber with the
fibers it spawned and whatever the engine answers, calls are taken in the order they were
queued, each once and by one fiber, and none is left with nobody to take it. -/
theorem run_handedOn {l : List Beat} {y : Yard} (hr : ({} : Yard).run l = some y) :
    y.HandedOn := by
  have h : y.Orderly := orderly_empty.run hr
  refine ⟨h.ledger.order, h.ledger.perm_hands, fun hs hf => (h.willing.runs hs hf).1,
    fun hh => (h.willing.hosted hh).1, h.served.2, fun l y' => own_run_length, fun hm hc => ?_⟩
  obtain ⟨he, hf⟩ := resting hm
  have hp := h.served.empty_at_rest hc he hf
  refine ⟨hp, ?_⟩
  have hperm := h.ledger.perm_hands
  have hq : y.queued = y.taken := by
    have := h.ledger.order
    rwa [hp, List.append_nil] at this
  have hnone : y.hands = [] := by
    simp only [hands, he, hf, Errand.hand, List.map_nil, List.append_nil]
  rw [hq]
  rwa [hnone, List.nil_append] at hperm

/-- Three calls: the second queued behind the first one's fiber and given a fiber of its own
when the third finds that one in its call, the third taken by the first fiber. -/
theorem run_handedOn_threeCalls : ∃ y, ({} : Yard).run
      [.start 1, .spawned none, .start 2, .begins 0, .start 3, .spawned none, .finishes 0] =
        some y ∧ y.taken = [1, 2, 3] ∧ y.fibers = [⟨3, .running⟩, ⟨2, .fresh⟩] ∧ y.HandedOn :=
  ⟨_, rfl, by decide, by decide, run_handedOn (l := [.start 1, .spawned none, .start 2,
    .begins 0, .start 3, .spawned none, .finishes 0]) rfl⟩

/-- A call queued when the stop comes is taken and not run. -/
theorem queued_not_run_stopAsked :
    ¬ ∀ (l : List Beat) (y : Yard), ({} : Yard).run l = some y → y.errand = .idle →
      y.fibers = [] → y.ran.Perm y.queued := by
  intro h
  have hlen := (h [.start 1, .spawned none, .start 2, .begins 0, .stop, .finishes 0, .finishes 0]
    _ rfl rfl rfl).length_eq
  exact absurd hlen (by decide)

end Yard
end Nilo.Http2
