import Nilo.Http2.Reading

/-!
# Runs of a connection

One `Act` is what happens between two points at which the connection's fiber can
be interrupted: a frame read, a pass over the answers, a sweep of what is overdue,
a step of a call's fiber. `Run` takes them **in any order**: the loop of `Conn.run`
and its wind-down are one way of ordering them, and what holds in every run here
holds there.
-/

namespace Nilo.Http2

open Nilo.Lib

variable {D : Type}

/-- The GOAWAY of this side, once. -/
def goaway (code : ErrorCode) : M D Unit := do
  if !(← get).goawaySent then
    modify fun c => { c with goawaySent := true }
    emit (.goaway (← get).lastStream code)

/-- The client is told, and the connection stops reading. -/
def sendAwayFor (code : ErrorCode) : M D Unit := do
  goaway code
  stop .gone

/-- Which GOAWAY an error is said with (`goawayFor`). -/
def Stop.code : Stop → Option ErrorCode
  | .protocol => some .protocolError
  | .frameSize => some .frameSizeError
  | .flowControl => some .flowControlError
  | .compression => some .compressionError
  | .calm => some .enhanceYourCalm
  | .gone | .stray => none

/-- A piece or an event has been stuck past the write limit. -/
def stuckPast (h : Host) (now : Nat) (s : Stream) : Bool :=
  s.stuckSince != 0 && decide (Conn.writeLimitMs h * nsPerMs ≤ now - s.stuckSince)

/-- The sweep of one stream: false when the connection is to be sent away. -/
def sweepOne (h : Host) (r : Ref) : M D Unit := do
  let s ← stream r
  let c ← get
  if stuckPast h c.now s then
    emit (.rstStream s.id .cancel)
    update r (·.failOut .slow)
    onReset r
  else if s.phase = .headers ∧ s.collectUntilNs ≠ 0 ∧ s.collectUntilNs ≤ c.now then
    if c.continuing = some r then sendAwayFor .enhanceYourCalm
    else do
      emit (.rstStream s.id .cancel)
      modify (·.forget r .headersOverdue)

def sweepFrom (h : Host) : List Ref → M D Unit
  | [] => pure ()
  | r :: rest => do sweepOne h r; sweepFrom h rest

/-- A header block is still being sent. -/
def Conn.collectingHeaders (c : Conn D) : Bool :=
  c.ignoring != 0 || c.streams.any (·.phase == .headers)

/-- A bound on a wait with calls in flight has passed: say which, and do what it asks. -/
def overdue (h : Host) : M D Unit := do
  let c ← get
  when (c.blockedSince ≠ 0 ∧ Conn.writeLimitMs h * nsPerMs ≤ c.now - c.blockedSince) (stop .gone)
  when (c.ignoring ≠ 0 ∧ c.ignoreUntilNs ≠ 0 ∧ c.ignoreUntilNs ≤ c.now)
    (sendAwayFor .enhanceYourCalm)
  sweepFrom h c.refs
  let c ← get
  when (c.collectingHeaders ∧ h.bodyMs ≠ 0 ∧ h.bodyMs * nsPerMs ≤ c.now - c.lastReadNs)
    (sendAwayFor .noError)

/-- Tell the calls waiting on a stream that the rest of it is not coming. -/
def Conn.abortInbound (c : Conn D) (everything : Bool) : Conn D :=
  { c with
    streams := c.streams.map fun s =>
      if s.phase = .running ∧ (s.isOpen || everything) then { s with inbox := s.inbox.fail .gone }
      else s }

/-- Fail every pipe whose piece cannot go. -/
def Conn.failStuck (c : Conn D) : Conn D :=
  { c with streams := c.streams.map fun s => if s.stuckSince = 0 then s else s.failOut .gone }

/-- Fail every pipe: the client is gone, or the connection is. -/
def Conn.abortOutbound (c : Conn D) : Conn D :=
  { c with
    shared := { c.shared with dead := true }
    streams := c.streams.map fun s => if s.phase = .running then s.failOut .gone else s }

/-- A call's fiber hands its answer back and takes the next call queued. -/
def Conn.finishCall (c : Conn D) (r : Ref) (a : Answer) : Conn D :=
  let c := c.mod r fun s => if s.out.isSome then s else s.answered a
  if c.reuse then
    let (next, shared) := c.shared.finishNext r
    { c with shared, inHand := c.inHand.erase r ++ next.toList }
  else { c with shared := c.shared.finish r, inHand := c.inHand.erase r }

/-- What can happen to a connection. -/
inductive Act where
  | frame (f : Frame)
  /-- The client stopped sending. -/
  | inputEnded
  | service
  | writeReady
  | admitCalls
  | startHeld
  | rendezvous
  | overdue
  /-- The allowance of calls is spent, the server is stopping, or the connection is idle. -/
  | goaway
  | endEvents
  | dropSpares
  | dropHeld
  | abortInbound (everything : Bool)
  | failStuck
  | abortOutbound
  /-- A step of the call `r` on its fiber. -/
  | call (r : Ref) (op : CallOp)
  | finish (r : Ref) (a : Answer)
  /-- A fiber that was spawned begins its first call. -/
  | runnerBegins
  /-- A room rings the connection's bell. -/
  | poke
  | tick (ns : Nat)
deriving DecidableEq, Repr

/-- An act, and what the environment does while it runs. -/
structure Op where
  act : Act
  env : Env := {}
deriving DecidableEq, Repr

def Act.run (h : Host) (k : Codec D) : Act → M D Unit
  | .frame f => readFrame h k f
  | .inputEnded => stop .gone
  | .service => Nilo.Http2.service h
  | .writeReady => Nilo.Http2.writeReady
  | .admitCalls => Nilo.Http2.admitCalls h
  | .startHeld => do Nilo.Http2.startHeld h ((← get).streams.length + 1)
  | .rendezvous => do Nilo.Http2.rendezvous h ((← get).shared.pending.length + 1)
  | .overdue => Nilo.Http2.overdue h
  | .goaway => Nilo.Http2.goaway .noError
  | .endEvents => Nilo.Http2.endEvents
  | .dropSpares => modify fun c => { c with spare := [] }
  | .dropHeld => Nilo.Http2.dropHeld
  | .abortInbound everything => modify (·.abortInbound everything)
  | .failStuck => modify (·.failStuck)
  | .abortOutbound => modify (·.abortOutbound)
  | .call r op => modify (·.callStep r op)
  | .finish r a => modify (·.finishCall r a)
  | .runnerBegins => modify fun c => { c with shared := c.shared.unfresh }
  | .poke => modify fun c => { c with shared := c.shared.poke }
  | .tick ns => modify fun c => { c with now := c.now + ns }

/-- When an act can happen. -/
def Act.enabled (c : Conn D) : Act → Prop
  | .frame _ | .inputEnded | .overdue => c.reading = true
  | .dropHeld => c.reading = false
  | .call r _ | .finish r _ => r ∈ c.inHand
  | .endEvents => c.goawaySent = true ∨ c.peerGoaway = true
  | .runnerBegins => 0 < c.shared.fresh
  | _ => True

instance (c : Conn D) (a : Act) : Decidable (a.enabled c) := by
  cases a <;> unfold Act.enabled <;> infer_instance

/-- The connection is sent away for an error, unless it is already or nobody is there. -/
def Conn.sendAway (c : Conn D) (e : Stop) : Conn D :=
  match e.code with
  | none => c
  | some code => Prog.exec (goaway code) c

/-- One step of a connection. -/
def step (h : Host) (k : Codec D) (op : Op) (c : Conn D) : Conn D :=
  match op.act.run h k { c with env := op.env } with
  | (.ok _, c') => c'
  | (.error e, c') => c'.sendAway e

/-- A connection whose preface has been read and whose SETTINGS have been written. -/
def opened (k : Codec D) (callsLeft now : Nat) (wire : Option Nat) : Conn D :=
  { decoder := k.init, callsLeft, now, lastReadNs := now, wire, trace := [.wrote .settings] }

/-- The states a connection can be in, each step of the run meeting `ok`. -/
inductive Run (h : Host) (k : Codec D) (ok : Conn D → Op → Prop) : Conn D → Prop where
  | opened (callsLeft now : Nat) (wire : Option Nat) : Run h k ok (opened k callsLeft now wire)
  | step {c : Conn D} {op : Op} : Run h k ok c → op.act.enabled c → ok c op →
      Run h k ok (step h k op c)

/-- Steps one after the other. -/
def steps (h : Host) (k : Codec D) : List Op → Conn D → Conn D
  | [], c => c
  | op :: rest, c => steps h k rest (step h k op c)

/-- Each of the steps can happen, and meets `ok`. -/
def Allowed (h : Host) (k : Codec D) (ok : Conn D → Op → Prop) : List Op → Conn D → Prop
  | [], _ => True
  | op :: rest, c => op.act.enabled c ∧ ok c op ∧ Allowed h k ok rest (step h k op c)

instance Allowed.decidable {h : Host} {k : Codec D} {ok : Conn D → Op → Prop}
    [∀ c op, Decidable (ok c op)] : ∀ ops c, Decidable (Allowed h k ok ops c)
  | [], _ => .isTrue trivial
  | op :: rest, c =>
    have : Decidable (Allowed h k ok rest (step h k op c)) := Allowed.decidable rest _
    inferInstanceAs (Decidable (op.act.enabled c ∧ ok c op ∧ Allowed h k ok rest (step h k op c)))

theorem Run.steps {h : Host} {k : Codec D} {ok : Conn D → Op → Prop} {ops : List Op} {c : Conn D}
    (hc : Run h k ok c) (hops : Allowed h k ok ops c) : Run h k ok (steps h k ops c) := by
  induction ops generalizing c with
  | nil => exact hc
  | cons op rest ih => exact ih (hc.step hops.1 hops.2.1) hops.2.2

/-- The states a connection can be in. -/
abbrev Reachable (h : Host) (k : Codec D) (c : Conn D) : Prop := Run h k (fun _ _ => True) c

end Nilo.Http2
