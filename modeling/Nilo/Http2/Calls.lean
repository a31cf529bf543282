import Nilo.Http2.Writing

/-!
# Starting calls

From a decoded header block to a call on a fiber: the checks of `dispatch`, the
pipe the call is handed (`armInbox`), the queue in front of the fibers (`start`,
`spawnRunner`, `rendezvous`), and the calls the connection's own fiber runs
(`runInline`) or holds until their stream has ended (`startHeld`, `dropHeld`).
-/

namespace Nilo.Http2

open Nilo.Lib Nilo.Text

variable {D : Type}

/-- One step of a call: what it does to its stream, and the connection poked. -/
def Conn.callStep (c : Conn D) (r : Ref) (op : CallOp) : Conn D :=
  let s := c.get r
  let (s', poked) := op.run c.shared.dead s
  let c := c.mod r fun _ => s'
  let c := if poked then { c with shared := c.shared.poke } else c
  if s.out.isNone && s'.out.isSome then
    { c with shared := { c.shared with streaming := c.shared.streaming + 1 } }
  else c

/-- The call runs to its end on the fiber that called it. -/
def callBody (r : Ref) : M D Unit := do
  let env := (← get).env
  modify fun c => env.inlineOps.foldl (fun c op => c.callStep r op) c
  update r fun s => if s.out.isSome then s else s.answered env.inlineAnswer

/-- The five bytes in front of a gRPC message. -/
def prefixLen (s : Stream) : Nat := if s.grpc then 5 else 0

/-- A stream whose call has its pipe, as far as it is told about now. A gRPC message is read
whole: nothing reads it out. -/
def Stream.armed (s : Stream) : Stream :=
  { s with
    inbox :=
      { s.inbox with
        limit := s.limit + prefixLen s
        collecting := s.inbox.collecting || (s.grpc && !s.collecting)
        ended := s.inbox.ended || !s.isOpen }
    collecting := s.collecting || (s.grpc && !s.collecting) }

/-- Hand the call its pipe. -/
def armInbox (r : Ref) : M D Unit := update r (·.armed)

/-- Run a call whose stream has ended on this fiber, the connection's, and write its answer. -/
def runInline (r : Ref) : M D Unit := do
  armInbox r
  update r fun s => { s with phase := .running }
  modify fun c => c.log (.started (c.get r).id)
  update r fun s => { s with inbox := { s.inbox with canPark := false } }
  callBody r
  update r fun s => { s with phase := .writing }
  let s ← stream r
  if s.out.isSome || s.events.isSome then pure ()
  else do let _ ← writeStream r

/-- What the environment says of the next spawn. -/
def nextSpawn : M D Spawn := do
  match (← get).env.spawns with
  | [] => return .ok
  | s :: rest => do
    modify fun c => { c with env := { c.env with spawns := rest } }
    return s

def unfresh : M D Unit := do
  when (← get).reuse (modify fun c => { c with shared := c.shared.unfresh })

/-- A fiber has the call. -/
def Conn.give (c : Conn D) (r : Ref) : Conn D := { c with inHand := c.inHand ++ [r] }

/-- A call that will not be run after all. -/
def Conn.unstarted (c : Conn D) : Conn D :=
  { c with shared := { c.shared with running := c.shared.running - 1 } }

/-- With no Engine to give the call a fiber. -/
def startWithoutEngine (h : Host) (r : Ref) : M D Unit := do
  match h.fallback with
  | .inlineWhenEnded =>
    if (← stream r).isOpen then
      modify (·.unstarted)
      update r fun s => { s with deferred := true }
    else do
      update r fun s => { s with inbox := { s.inbox with canPark := false } }
      callBody r
      modify fun c => { c with shared := c.shared.finish r }
  | .threads => modify (·.give r)

/-- The server is stopping: the call is answered and not run. -/
def turnAway (h : Host) (r : Ref) : M D Unit := do
  modify (·.unstarted)
  update r fun s => { s with phase := .headers }
  answerNow h r 14 "the server is stopping"

/-- Every call queued, oldest first, in the hands of this fiber. -/
def drainQueue (f : Ref → M D Unit) : Nat → M D Unit
  | 0 => pure ()
  | fuel + 1 => do
    match (← get).shared.takeQueued.1 with
    | none => pure ()
    | some q => do
      modify fun c => { c with shared := c.shared.takeQueued.2 }
      f q
      drainQueue f fuel

/-- The server is stopping, and has nowhere to put a fiber: this call and every one queued
are answered, none is left behind. -/
def turnAllAway (h : Host) (r : Ref) : M D Unit := do
  turnAway h r
  drainQueue (turnAway h) (← get).shared.pending.length

/-- Give a call a fiber of its own, which takes no other (`runCall`). -/
def spawnCall (h : Host) (r : Ref) : M D Unit := do
  match ← nextSpawn with
  | .ok => modify (·.give r)
  | .noServer => startWithoutEngine h r
  | .invalidPlacement | .stopping => turnAllAway h r

/-- Give a call a fiber: the one that runs it and whatever is queued behind it. -/
def spawnRunner (h : Host) (r : Ref) : M D Unit := do
  if !(← get).reuse then spawnCall h r
  else match ← nextSpawn with
    | .ok => modify (·.give r)
    | .noServer => do
      unfresh
      startWithoutEngine h r
    | .invalidPlacement => do
      unfresh
      modify fun c => { c with reuse := false }
      spawnCall h r
      drainQueue (spawnCall h) (← get).shared.pending.length
    | .stopping => do
      unfresh
      turnAllAway h r

/-- The oldest queued call, for a fiber about to be spawned for it, unless one that has not
begun is there to take it. -/
def takeFirst : M D (Option Ref) := do
  let first := (← get).shared.takeFirstIfNoneFresh.1
  modify fun c => { c with shared := c.shared.takeFirstIfNoneFresh.2 }
  return first

/-- Run a call whose headers are whole. Behind a fiber that has not begun its first call, it
is queued for it to take; any other call has a fiber spawned, for the oldest queued. -/
def start (h : Host) (r : Ref) : M D Unit := do
  let s ← stream r
  if s.inlineOk && !s.isOpen then runInline r
  else do
    armInbox r
    update r fun s => { s with phase := .running }
    modify fun c =>
      { c.log (.started (c.get r).id) with
        shared := { c.shared with running := c.shared.running + 1 } }
    if (← get).reuse then
      modify fun c => { c with shared := c.shared.enqueue r }
      match ← takeFirst with
      | none => pure ()
      | some head => spawnRunner h head
    else spawnRunner h r

/-- Called before the connection waits: calls queued behind a fiber that has begun get
fibers of their own. -/
def rendezvous (h : Host) : Nat → M D Unit
  | 0 => pure ()
  | fuel + 1 => do
    match ← takeFirst with
    | none => pure ()
    | some head => do
      spawnRunner h head
      rendezvous h fuel

/-- A call held for the connection's fiber is held no more. -/
def Conn.release (c : Conn D) (r : Ref) : Conn D :=
  { c.mod r fun s => { s with holding := false } with holds := c.holds - 1 }

/-- Give a fiber to every call held for the connection's own fiber to run. -/
def startHeld (h : Host) : Nat → M D Unit
  | 0 => pure ()
  | fuel + 1 => do
    let c ← get
    if c.holds = 0 then pure ()
    else match c.streams.find? (·.holding) with
      | none => modify fun c => { c with holds := 0 }
      | some s => do
        modify (·.release s.ref)
        update s.ref fun s => { s with deferred := false }
        start h s.ref
        startHeld h fuel

/-- The connection is ending: a call still held has nobody to answer. -/
def dropHeldFrom : List Ref → M D Unit
  | [] => modify fun c => { c with holds := 0 }
  | r :: rest => do
    let c ← get
    when (c.holds ≠ 0 ∧ (c.get r).holding) do
      modify (·.release r)
      modify (·.discard r .dropped)
    dropHeldFrom rest

def dropHeld : M D Unit := do dropHeldFrom (← get).refs.reverse

/-- The request's headers are whole. Check it, and run it. -/
def dispatch (h : Host) (r : Ref) : M D Unit := do
  modify (·.unstarve r)
  let s ← stream r
  if s.headersOverLimit then
    if !s.grpc then
      answerStatus h r 431 "the request's header fields are larger than this server reads"
    else answerNow h r 8 "the call's metadata is larger than this server reads"
  else do
  let found := scan s.fields
  if !found.fieldsOk then malformed r else
  match found.method with
  | none => malformed r
  | some method =>
  if method = ascii "CONNECT" then do
    modify fun c => { c with controlRun := 0 }
    answerStatus h r 501 "this server does not serve CONNECT"
  else
  match found.path with
  | none => malformed r
  | some path =>
  if s.grpc ∧ method ≠ ascii "POST" then malformed r
  else if path = [] ∨
      (path.head? ≠ some 47 ∧ ¬(method = ascii "OPTIONS" ∧ path = ascii "*")) then malformed r
  else if !found.pseudoOk then malformed r
  else if !found.connectionOk then malformed r
  else
  match if found.hasLength then announcedLength s.fields else .ok none with
  | .error _ => malformed r
  | .ok announced => do
  update r fun s => { s with announced }
  if !s.isOpen && announced.getD 0 ≠ 0 then malformed r
  else do
  when (!s.isOpen) (modify fun c => { c with controlRun := 0 })
  if s.grpc && !h.routes path then answerNow h r 12 "no route answers this method"
  else match if s.grpc then (s.field (ascii "grpc-timeout")).map fun t => untilNs t s.headersNs
      else none with
  | some none => answerNow h r 3 "grpc-timeout is not a number of up to eight digits and a unit"
  | until_ => do
  let inlineOk := h.runsInline method path
  update r fun s =>
    { s with
      untilNs := (until_.getD none).getD s.untilNs
      piped := s.isOpen && !s.grpc
      inlineOk }
  if inlineOk && s.isOpen then
    update r fun s => { s with phase := .running }
    armInbox r
    update r fun s => { s with deferred := true, holding := true }
    modify fun c => { c with holds := c.holds + 1 }
  else start h r

end Nilo.Http2
