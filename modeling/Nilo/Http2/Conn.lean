import Nilo.Lib.Keyed
import Nilo.Lib.Program
import Nilo.Http2.Stream

/-!
# The connection (`Conn` in `http/h2conn.zig`)

The state of one HTTP/2 connection and the small operations the frame handlers
and the writer share: the table of streams, the budget of held bytes, and the
windows given back to the client.

The table holds its streams by value, each under its `Ref`. A stream's life ends
when it leaves the table: it is freed, or recycled into `spare` for the next
call, and a pointer to it that is kept (`continuing` is the only one) then
points at memory that is no stream of this connection.

What the environment chooses — when the writer fails, what the clock says,
whether a fiber can be spawned, what a call run on the connection's own fiber
answers, what the calls do on other threads while a DATA frame is read — is
`wire`, `now` and `Env`. `trace` is the history of the connection, newest first:
the frames read and written, the blocks handed to the HPACK decoder, the calls
started and the streams let go of.
-/

namespace Nilo.Http2

open Nilo.Lib Nilo.Text

/-- The HPACK decoder of a connection, as far as the connection uses it (`hpack.zig`). -/
structure Codec (D : Type) where
  init : D
  /-- `allow`: the table the client may use has changed. -/
  allow : D → Nat → D
  /-- One whole block under a limit on the list: the fields, and whether some were dropped. -/
  decode : D → Bytes → Nat → Option (D × List Field × Bool)

/-- What runs a call when no Engine does (`Fallback`). -/
inductive Fallback where
  | inlineWhenEnded | threads
deriving DecidableEq, Repr

/-- What the connection asks of the App and of its listener. -/
structure Host where
  maxBody : Nat
  ceiling : Nat
  maxRequests : Nat := 0
  bodyLimit : Bytes → Bytes → Nat
  routes : Bytes → Bool
  runsInline : Bytes → Bytes → Bool
  /-- The header block of an answer the connection makes itself (`writeHttpHead`). -/
  httpHead : Nat → Nat → Bytes
  /-- The one HEADERS frame of a gRPC status (`grpc.trailersOnly`). -/
  trailersOnly : Nat → Bytes → Bytes
  fallback : Fallback := .threads
  bodyGraceMs : Nat := 0
  bodyMinRate : Nat := 0
  bodyMs : Nat := 0
  writeMs : Nat := 0

def maxStreams : Nat := 100
def maxHeaderList : Nat := 16 * 1024
def maxHeaderBlock : Nat := 4 * maxHeaderList
def maxRefused : Nat := 1000
def maxControlRun : Nat := 1000
def creditBytes : Nat := 1024
def pumpQuantum : Nat := 64 * 1024
def nsPerMs : Nat := 1000000

/-- `:status 100`, which is all an interim answer carries. -/
def continueBlock : Bytes := [0x08, 0x03, 0x31, 0x30, 0x30]

/-- Why a connection stops reading (`ReadError`). -/
inductive Stop where
  | protocol | frameSize | flowControl | compression | calm
  | gone
  /-- The code goes on in a stream it has given back, where the model does not follow it. -/
  | stray
deriving DecidableEq, Repr

/-- Why a stream was let go of. -/
inductive Cause where
  | answered | refusedGoaway | refusedCap | malformed | reset | callReset | cancelled
  | headersOverdue | eventsFailed | eventsEnded | pipeFailed | abandoned | dropped
deriving DecidableEq, Repr

/-- What the budget sees of a stream. -/
structure Claimant where
  id : StreamId
  held : Nat
  arriving : Bool
  phase : Phase
  /-- The room its call waits for, or 0. -/
  wants : Nat
  overLimit : Bool
deriving DecidableEq, Repr

def Stream.claimant (s : Stream) : Claimant where
  id := s.id
  held := s.held
  arriving := s.arriving
  phase := s.phase
  wants := s.inbox.wanted
  overLimit := s.overLimit

/-- The history of a connection. -/
inductive Event where
  | read (f : Frame)
  | wrote (f : Sent)
  /-- A block was handed to the HPACK decoder. -/
  | fed (block : Bytes)
  /-- The decoder was told the table is now 0. -/
  | allowed
  | started (id : StreamId)
  | left (id : StreamId) (why : Cause)
  /-- A stream's window was topped up, with the table as the budget saw it. -/
  | topped (id : StreamId) (table : List Claimant)
  /-- A call was given the room it waited for, with the table as the budget saw it. -/
  | admitted (id : StreamId) (room : Nat) (table : List Claimant)
deriving DecidableEq, Repr

/-- What `bulkhead.spawnLocalExact` says. -/
inductive Spawn where
  | ok | noServer | invalidPlacement | stopping
deriving DecidableEq, Repr

/-- How a turn of an event source ended (`EventSource.step`). -/
inductive Stepped where
  | drained | blocked | outOfMemory
deriving DecidableEq, Repr

/-- One turn of an event source: the bytes it puts on the wire, and how it ended. -/
structure EventTurn where
  puts : List Bytes := []
  outcome : Stepped := .drained
deriving DecidableEq, Repr

/-- What the environment does during one step. -/
structure Env where
  spawns : List Spawn := []
  /-- What a call run on the connection's own fiber does, and answers. -/
  inlineOps : List CallOp := []
  inlineAnswer : Answer := {}
  /-- What the calls do between the `begin` and the `commit` of a DATA frame. -/
  between : List (Ref × CallOp) := []
  turns : List EventTurn := []
  /-- Bytes of the frame had to come off the socket, so its arrival is stamped. -/
  waited : Bool := true
deriving DecidableEq, Repr

structure Conn (D : Type) where
  decoder : D
  streams : List Stream := []
  /-- The stream whose header block is not finished. -/
  continuing : Option Ref := none
  trailerBlock : Bytes := []
  /-- The id of a forgotten stream whose trailers are arriving; 0 when there are none. -/
  ignoring : StreamId := 0
  ignoreUntilNs : Nat := 0
  lastStream : StreamId := 0
  callsLeft : Nat := 0
  spent : Bool := false
  peerWindow : Int := defaultWindow
  peerMaxFrame : Nat := defaultMaxFrame
  sendWindow : Int := defaultWindow
  unacked : Nat := 0
  /-- Bytes of messages read and not yet given back, across every call. -/
  collected : Nat := 0
  /-- How many calls are owed a window the budget held back. -/
  starved : Nat := 0
  reserving : Bool := false
  recvWindow : Int := defaultWindow
  outMore : Bool := false
  pumpNext : Nat := 0
  outBytes : Nat := 0
  outCredit : Nat := 0
  eventsOpen : Nat := 0
  goawaySent : Bool := false
  peerGoaway : Bool := false
  refused : Nat := 0
  controlRun : Nat := 0
  blockedSince : Nat := 0
  lastReadNs : Nat := 0
  /-- Streams whose calls are over, kept for the next ones. -/
  spare : List Ref := []
  reuse : Bool := true
  holds : Nat := 0
  shared : Shared := {}
  /-- Calls a fiber has taken and not handed back. -/
  inHand : List Ref := []
  /-- Whether the connection still reads frames. -/
  reading : Bool := true
  -- The environment.
  nextRef : Ref := 0
  now : Nat := 0
  /-- How many frames the writer still takes before it fails, if it fails. -/
  wire : Option Nat := none
  env : Env := {}
  -- The history.
  trace : List Event := []
  /-- A count was taken below zero: a trap in a safe build. -/
  fault : Bool := false
  /-- A frame was read through `continuing` into memory that is no stream of the table. -/
  astray : Bool := false
deriving DecidableEq, Repr

namespace Conn

variable {D : Type}

/-- The references of the table, oldest stream first. -/
def refs (c : Conn D) : List Ref := c.streams.map (·.ref)

/-- The stream a reference points at; a recycled one is as `create` leaves it. -/
def get (c : Conn D) (r : Ref) : Stream := (c.streams.find? fun s => s.ref == r).getD { ref := r }

def mod (c : Conn D) (r : Ref) (f : Stream → Stream) : Conn D :=
  { c with streams := edit (·.ref) r f c.streams }

def find (c : Conn D) (id : StreamId) : Option Ref :=
  (c.streams.find? fun s => s.id == id).map (·.ref)

def log (c : Conn D) (e : Event) : Conn D := { c with trace := e :: c.trace }

/-! ## The budget -/

/-- Count `n` more bytes the call holds against the connection's budget. -/
def hold (c : Conn D) (r : Ref) (n : Nat) : Conn D :=
  { c.mod r fun s => { s with held := s.held + n } with collected := c.collected + n }

/-- `n` of the bytes the call holds leave the budget. -/
def giveBack (c : Conn D) (r : Ref) (n : Nat) : Conn D :=
  { c.mod r fun s => { s with held := s.held - n } with
    collected := c.collected - n
    fault := c.fault || decide (c.collected < n) || decide ((c.get r).held < n) }

/-- The call is waiting on a window the budget holds back. -/
def starve (c : Conn D) (r : Ref) : Conn D :=
  { c.mod r fun s => { s with starved := true } with starved := c.starved + 1 }

/-- The call is no longer waiting on a window. -/
def unstarve (c : Conn D) (r : Ref) : Conn D :=
  if (c.get r).starved then
    { c.mod r fun s => { s with starved := false } with
      starved := c.starved - 1
      fault := c.fault || decide (c.starved < 1) }
  else c

/-- A call has been let go of: its bytes leave the budget. -/
def letGo (c : Conn D) (r : Ref) : Conn D := (c.giveBack r (c.get r).held).unstarve r

/-- What one connection may hold of messages. -/
def budget (h : Host) : Nat := max (h.ceiling + 5) defaultWindow

/-- What the connection's budget has left for a call: the budget less what the others hold. -/
def budgetLeft (h : Host) (c : Conn D) (r : Ref) : Nat :=
  budget h - (c.collected - (c.get r).held)

/-- A call that is not still arriving holds bytes. -/
def holder (s : Stream) : Bool := !s.arriving && s.phase != .headers && decide (0 < s.held)

/-- Whether this call's window may be topped up now: while the connection is under its
budget, and otherwise for the oldest call still arriving, when no other call holds bytes. -/
def mayGrow (h : Host) (c : Conn D) (r : Ref) : Bool :=
  if decide (c.collected < budget h) || (c.get r).overLimit then true
  else if c.streams.any holder then false
  else match c.streams.find? (·.arriving) with
    | some s => s.ref == r
    | none => false

/-- Whether a call that has started still holds bytes it will give back with nothing more
from the client, and does not wait for room. -/
def startedHolds (c : Conn D) : Bool :=
  c.streams.any fun s => holder s && s.inbox.wanted == 0

/-- The table as the budget sees it, oldest stream first. -/
def claimants (c : Conn D) : List Claimant := c.streams.map (·.claimant)

/-! ## Leaving the table -/

def remove (c : Conn D) (r : Ref) (why : Cause) : Conn D :=
  let s := c.get r
  { c with
    streams := c.streams.filter fun s => s.ref != r
    eventsOpen := if s.evSeen then c.eventsOpen - 1 else c.eventsOpen
    trace := .left s.id why :: c.trace }

/-- The memory of a stream goes: its pipe no longer counts. -/
def destroy (c : Conn D) (s : Stream) : Conn D :=
  if s.out.isSome then
    { c with shared := { c.shared with streaming := c.shared.streaming - 1 } }
  else c

/-- A stream is let go of, and freed. -/
def discard (c : Conn D) (r : Ref) (why : Cause) : Conn D :=
  let s := c.get r
  ((c.letGo r).remove r why).destroy s

/-- Take a stream out of the connection's hands for good: its memory is kept for the next
call while there is room for it. -/
def forget (c : Conn D) (r : Ref) (why : Cause) : Conn D :=
  let c := c.discard r why
  if decide (maxStreams ≤ c.spare.length) || c.goawaySent then c
  else { c with spare := r :: c.spare }

/-- A stream for the next call: a spare one, or a new one, as `create` leaves it. -/
def newStream (h : Host) (c : Conn D) (id : StreamId) : Ref × Conn D :=
  let fresh (r : Ref) : Stream :=
    { ref := r, id, limit := h.maxBody, inbox := { limit := h.maxBody }, sendWindow := c.peerWindow }
  match c.spare with
  | r :: rest => (r, { c with spare := rest, streams := c.streams ++ [fresh r] })
  | [] => (c.nextRef, { c with nextRef := c.nextRef + 1, streams := c.streams ++ [fresh c.nextRef] })

/-- The bound on sending one call's header block, from `now`. -/
def collectUntil (h : Host) (now : Nat) (bound : Nat) : Nat :=
  if h.bodyMinRate = 0 then 0
  else now + (h.bodyGraceMs + (bound + 5) * 1000 / h.bodyMinRate) * nsPerMs

def writeLimitMs (h : Host) : Nat := if h.writeMs = 0 then 30000 else h.writeMs

/-- An answer other than an event stream is being written. -/
def writing (c : Conn D) : Bool :=
  c.streams.any fun s => s.phase == .writing && s.events.isNone

end Conn

/-! ## Programs of the connection's fiber -/

/-- A function of the connection's fiber. -/
abbrev M (D : Type) := Prog (Conn D) Stop

variable {D : Type}

/-- The stream a reference points at now. -/
def stream (r : Ref) : M D Stream := do return (← get).get r

def update (r : Ref) (f : Stream → Stream) : M D Unit := modify (·.mod r f)

/-- An error return of a frame handler or of the writer: the connection reads no more. -/
def stop {α : Type} (e : Stop) : M D α := do
  modify fun c => { c with reading := false }
  throw e

/-- A frame into the connection's writer, which may fail. -/
def emit (f : Sent) : M D Unit := do
  match (← get).wire with
  | some 0 => stop .gone
  | some (n + 1) => modify fun c => { c with wire := some n, trace := .wrote f :: c.trace }
  | none => modify fun c => c.log (.wrote f)

def emitAll : List Sent → M D Unit
  | [] => pure ()
  | f :: rest => do emit f; emitAll rest

/-- A frame that moved no call forward, with no call since the last one. -/
def control : M D Unit := do
  modify fun c => { c with controlRun := c.controlRun + 1 }
  when (maxControlRun < (← get).controlRun) (stop .calm)

/-- Top up a stream's window by what it is owed. -/
def topUp (r : Ref) : M D Unit := do
  let s ← stream r
  emit (.windowUpdate s.id s.unacked)
  modify fun c => c.log (.topped s.id c.claimants)
  update r fun s => { s with recvWindow := s.recvWindow + s.unacked, unacked := 0 }

/-- Top up the windows the budget held back, oldest call first. -/
def grantWaitingFrom (h : Host) : List Ref → M D Unit
  | [] => pure ()
  | r :: rest => do
    if !(← stream r).starved then grantWaitingFrom h rest
    else if !(← get).mayGrow h r then pure ()
    else do
      topUp r
      modify (·.unstarve r)
      grantWaitingFrom h rest

def grantWaiting (h : Host) : M D Unit := do
  if (← get).starved = 0 then pure () else grantWaitingFrom h (← get).refs

/-- `n` more bytes of the stream's window may be given back: now, once a half window of it
is owed and the budget has room, and when it has room otherwise. -/
def credit (h : Host) (r : Ref) (n : Nat) : M D Unit := do
  update r fun s => { s with unacked := s.unacked + n, taking := s.taking - n }
  when (defaultWindow / 2 ≤ (← stream r).unacked) do
    if (← get).mayGrow h r then topUp r
    else when (!(← stream r).starved) (modify (·.starve r))

/-- Top the connection's window back up once half of it has been read. -/
def repay : M D Unit := do
  when (defaultWindow / 2 ≤ (← get).unacked) do
    emit (.windowUpdate 0 (← get).unacked)
    modify fun c => { c with recvWindow := c.recvWindow + c.unacked, unacked := 0 }

def consumed (n : Nat) : M D Unit := do
  modify fun c => { c with unacked := c.unacked + n }
  repay

/-- Say yes to the calls waiting for room, oldest first: as long as each one's copy fits in
what the budget has left, and the oldest whatever the room once no started call holds
bytes. How many were let start. -/
def admitReservationsFrom (h : Host) : Nat → Nat → M D Nat
  | 0, started => pure started
  | fuel + 1, started => do
    let c ← get
    match c.streams.find? fun s => s.phase == .running && s.inbox.wanted != 0 with
    | none => do
      modify fun c => { c with reserving := false }
      pure started
    | some s => do
      let room := s.inbox.wanted
      if decide (c.budgetLeft h s.ref < room) && c.startedHolds then pure started
      else if (s.inbox.grant room).1 then do
        modify fun c => c.log (.admitted s.id room c.claimants)
        update s.ref fun s => { s with inbox := (s.inbox.grant room).2 }
        modify (·.hold s.ref room)
        admitReservationsFrom h fuel (started + 1)
      else admitReservationsFrom h fuel started

def admitReservations (h : Host) : M D Nat := do
  admitReservationsFrom h ((← get).streams.length + 1) 0

/-- Room, when a call has asked for some. -/
def admitReserving (h : Host) : M D Nat := do
  if (← get).reserving then admitReservations h else return 0

/-- What the calls wait for, in the order a call needs it: room, then window. -/
def admitAll (h : Host) : M D Nat := do
  let started ← admitReserving h
  grantWaiting h
  return started

/-- The function the source calls `admit`. -/
def admitCalls (h : Host) : M D Unit := do let _ ← admitAll h

/-- A stream whose pipe has been read. -/
def Stream.told (s : Stream) (said : Inbox.Taken) : Stream :=
  { s with
    inbox := s.inbox.take.2, collecting := said.collecting, taking := s.taking + said.owed }

/-- What one call has told this fiber through its pipe. -/
def serviceOne (h : Host) (r : Ref) : M D Unit := do
  let s ← stream r
  if s.phase != .running then pure () else
  let said := s.inbox.take.1
  update r (·.told said)
  when (0 < said.freed) (modify fun c => c.giveBack r (min said.freed (c.get r).held))
  when (0 < said.owed && s.isOpen) (credit h r said.owed)
  when (said.cont && s.isOpen && !s.headSent && !s.answerStarted) do
    emitAll (headerBlockFrames s.id continueBlock false (← get).peerMaxFrame)
  when (0 < said.want) (modify fun c => { c with reserving := true })

def serviceFrom (h : Host) : List Ref → M D Unit
  | [] => pure ()
  | r :: rest => do serviceOne h r; serviceFrom h rest

/-- What the calls have told this fiber through their pipes. One flag to look at when none
has. -/
def service (h : Host) : M D Unit := do
  when (← get).shared.attention do
    modify fun c => { c with shared := { c.shared with attention := false } }
    serviceFrom h (← get).refs

end Nilo.Http2
