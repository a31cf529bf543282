import Nilo.Http2.History

/-!
# What the promises of a connection are about

A connection has some fifty fields and a stream as many again; the invariants
speak of fewer. `Conn.core` is the part they see, and the moves say **once** what
a step can do to it:

* `Calm` — the accounts move: windows, bytes held, frames written. Which streams
  there are, how far each has come and which queue it is in stay as they are
  (`Calm.bearing`, `Calm.standings`).
* `Taking` — so do the bytes of a DATA frame.
* `Plain` — a stream takes a step of its life too: it is launched, queued,
  answered, let go of. The header block being read and the frames read so far
  stay as they are.
* `Front` — the frame reader's own: frames and header blocks, new streams, and
  the windows a client opens.
* `Move` — any of them.

Each move carries the guard the code has checked when it makes it. A change that
no invariant sees is no move at all: the core is the same.
-/

namespace Nilo.Http2

open Nilo.Lib

variable {D : Type}

/-- What accounting leaves alone in a stream. -/
structure Standing where
  ref : Ref
  id : StreamId
  phase : Phase
  isOpen : Bool
  holding : Bool
  deferred : Bool
  grpc : Bool
  trailing : Bool
  block : Bytes
  evFailed : Bool
deriving DecidableEq, Repr

/-- What the invariants see of a stream. -/
structure Line extends Standing where
  recvWindow : Int
  unacked : Nat
  owed : Nat
  unread : Nat
  /-- The pipe is collecting, and the connection knows it is (`gathering`). -/
  collecting : Bool
  gathering : Bool
  mixed : Bool
  taking : Nat
  held : Nat
  starved : Bool
  sendWindow : Int
  reset : Bool
  wanted : Nat
  /-- No answer has been begun through a pipe. -/
  pristine : Bool
deriving DecidableEq, Repr

def Stream.line (s : Stream) : Line where
  ref := s.ref
  id := s.id
  phase := s.phase
  isOpen := s.isOpen
  holding := s.holding
  deferred := s.deferred
  grpc := s.grpc
  trailing := s.trailing
  block := s.block
  evFailed := s.evFailed
  recvWindow := s.recvWindow
  unacked := s.unacked
  owed := s.inbox.owed
  unread := s.inbox.buf.length
  collecting := s.inbox.collecting
  gathering := s.collecting
  mixed := s.mixed
  taking := s.taking
  held := s.held
  starved := s.starved
  sendWindow := s.sendWindow
  reset := s.reset
  wanted := s.inbox.wanted
  pristine := s.out.isNone && s.events.isNone && s.stuckSince == 0

/-- What accounting leaves alone in a connection. -/
structure Bearing (D : Type) where
  continuing : Option Ref
  trailerBlock : Bytes
  ignoring : StreamId
  decoder : D
  lastStream : StreamId
  goawaySent : Bool
  spare : List Ref
  nextRef : Ref
  pending : List Ref
  inHand : List Ref
  answered : List Ref
  peerWindow : Int
  peerMaxFrame : Nat
  closed : Bool
  astray : Bool

/-- The calls started and not handed back, and those handed back and not taken. -/
def Bearing.queues (b : Bearing D) : List Ref := b.pending ++ b.inHand ++ b.answered

/-- What the invariants see of a connection. -/
structure Core (D : Type) extends Bearing D where
  lines : List Line
  sendWindow : Int
  recvWindow : Int
  unacked : Nat
  collected : Nat
  starved : Nat
  reserving : Bool
  attention : Bool
  reading : Bool
  fault : Bool
  trace : Trace

def Conn.core (c : Conn D) : Core D where
  continuing := c.continuing
  trailerBlock := c.trailerBlock
  ignoring := c.ignoring
  decoder := c.decoder
  lastStream := c.lastStream
  goawaySent := c.goawaySent
  spare := c.spare
  nextRef := c.nextRef
  pending := c.shared.pending
  inHand := c.inHand
  answered := c.shared.answered
  peerWindow := c.peerWindow
  peerMaxFrame := c.peerMaxFrame
  closed := c.shared.closed
  astray := c.astray
  lines := c.streams.map (·.line)
  sendWindow := c.sendWindow
  recvWindow := c.recvWindow
  unacked := c.unacked
  collected := c.collected
  starved := c.starved
  reserving := c.reserving
  attention := c.shared.attention
  reading := c.reading
  fault := c.fault
  trace := c.trace

namespace Core

def refs (k : Core D) : List Ref := k.lines.map (·.ref)

def edit (k : Core D) (r : Ref) (f : Line → Line) : Core D :=
  { k with lines := Lib.edit (·.ref) r f k.lines }

def log (k : Core D) (e : Event) : Core D := { k with trace := e :: k.trace }

/-- Of the line under a reference, if there is one. -/
def On (k : Core D) (r : Ref) (P : Line → Prop) : Prop := ∀ l ∈ k.lines, l.ref = r → P l

/-- How far each stream has come. -/
def standings (k : Core D) : List Standing := k.lines.map (·.toStanding)

end Core

/-- A frame that says nothing of the settings, of a refusal, or of going away. -/
def Sent.routine : Sent → Bool
  | .settingsAck | .goaway _ _ | .rstStream _ .refusedStream => false
  | _ => true

/-- An event of accounting. -/
def Event.routine : Event → Bool
  | .wrote f => f.routine
  | .topped _ _ | .admitted _ _ _ => true
  | _ => false

/-! ## Accounts -/

/-- The accounts of a connection move. -/
inductive Calm (B : Nat) : Core D → Core D → Prop where
  | wrote {k : Core D} (f : Sent) : f.routine → f.dataLen = 0 → f.len ≤ k.peerMaxFrame →
      Calm B k (k.log (.wrote f))
  | data {k : Core D} (r : Ref) (id : StreamId) (payload : Bytes) (e : Bool) : r ∈ k.refs →
      k.On r (fun l => l.id = id ∧ payload.length ≤ l.sendWindow) →
      payload.length ≤ k.sendWindow → payload.length ≤ k.peerMaxFrame →
      Calm B k
        { (k.edit r fun l => { l with sendWindow := l.sendWindow - payload.length }).log
            (.wrote (.data id payload e)) with
          sendWindow := k.sendWindow - payload.length }
  | shut {k : Core D} : Calm B k { k with reading := false }
  -- The connection's window.
  | paid {k : Core D} (n : Nat) : (n : Int) ≤ k.recvWindow →
      Calm B k { k with recvWindow := k.recvWindow - n, unacked := k.unacked + n }
  | overpaid {k : Core D} (n : Nat) :
      Calm B k { k with recvWindow := k.recvWindow - n, reading := false }
  | repaid {k : Core D} :
      Calm B k { k with recvWindow := k.recvWindow + k.unacked, unacked := 0 }
  -- The budget.
  | hold {k : Core D} (r : Ref) (n : Nat) : r ∈ k.refs →
      Calm B k
        { k.edit r (fun l => { l with held := l.held + n }) with collected := k.collected + n }
  | giveBack {k : Core D} (r : Ref) (n : Nat) : r ∈ k.refs → k.On r (n ≤ ·.held) →
      Calm B k
        { k.edit r (fun l => { l with held := l.held - n }) with
          collected := k.collected - n, fault := k.fault || decide (k.collected < n) }
  | starve {k : Core D} (r : Ref) : r ∈ k.refs → k.On r (·.starved = false) →
      Calm B k
        { k.edit r (fun l => { l with starved := true }) with starved := k.starved + 1 }
  | unstarve {k : Core D} (r : Ref) : r ∈ k.refs → k.On r (·.starved = true) →
      Calm B k
        { k.edit r (fun l => { l with starved := false }) with
          starved := k.starved - 1, fault := k.fault || decide (k.starved < 1) }
  -- A stream's window, given back.
  | granted {k : Core D} (id : StreamId) (table : List Claimant) : GrantOk B id table →
      Calm B k (k.log (.topped id table))
  | topped {k : Core D} (r : Ref) :
      Calm B k (k.edit r fun l => { l with recvWindow := l.recvWindow + l.unacked, unacked := 0 })
  | gathered {k : Core D} (r : Ref) : Calm B k (k.edit r fun l => { l with gathering := l.collecting })
  -- The call.
  | pulled {k : Core D} (r : Ref) (n : Nat) : k.On r (fun l => l.phase ≠ .headers ∧ n ≤ l.unread) →
      Calm B k (k.edit r fun l =>
        { l with unread := l.unread - n, owed := l.owed + n, mixed := l.mixed || l.collecting })
  | whole {k : Core D} (r : Ref) : k.On r (fun l => l.phase ≠ .headers ∧ l.collecting = false) →
      Calm B k (k.edit r fun l => { l with collecting := true, owed := l.owed + l.unread })
  | wants {k : Core D} (r : Ref) (n : Nat) : k.On r (·.phase ≠ .headers) →
      Calm B k { k.edit r (fun l => { l with wanted := n }) with attention := true }
  | settled {k : Core D} (p : Line → Bool) :
      Calm B k { k with lines := k.lines.map fun l => if p l then { l with wanted := 0 } else l }
  | stained {k : Core D} (r : Ref) (b : Bool) : k.On r (·.phase ≠ .headers) →
      Calm B k (k.edit r fun l => { l with pristine := b })
  | markReset {k : Core D} (r : Ref) : Calm B k (k.edit r fun l => { l with reset := true })
  | poked {k : Core D} : Calm B k { k with attention := true }
  -- Room.
  | reserve {k : Core D} : Calm B k { k with reserving := true }
  | unreserve {k : Core D} : (∀ l ∈ k.lines, l.phase = .running → l.wanted = 0) →
      Calm B k { k with reserving := false }
  | admitted {k : Core D} (id : StreamId) (room : Nat) (table : List Claimant) :
      AdmitOk B id room table → Calm B k (k.log (.admitted id room table))

/-- The bytes of a DATA frame move: off the window, into the pipe, and back to the client's
credit, `taking` being where they are in between. -/
inductive Taking (B : Nat) : Core D → Core D → Prop where
  | calm {k k' : Core D} : Calm B k k' → Taking B k k'
  | arrived {k : Core D} (r : Ref) (n : Nat) : k.On r ((n : Int) ≤ ·.recvWindow) →
      Taking B k (k.edit r fun l => { l with recvWindow := l.recvWindow - n, taking := l.taking + n })
  | overran {k : Core D} (r : Ref) (n : Nat) :
      Taking B k
        { k.edit r (fun l => { l with recvWindow := l.recvWindow - n, taking := l.taking + n }) with
          reading := false }
  | committed {k : Core D} (r : Ref) (n : Nat) :
      k.On r (fun l => l.phase ≠ .headers ∧ (l.collecting = false → n ≤ l.taking)) →
      Taking B k (k.edit r fun l =>
        { l with
          unread := l.unread + n
          taking := if l.collecting then l.taking else l.taking - n })
  | credited {k : Core D} (r : Ref) (n : Nat) : k.On r (n ≤ ·.taking) →
      Taking B k (k.edit r fun l => { l with unacked := l.unacked + n, taking := l.taking - n })
  | told {k : Core D} (r : Ref) :
      Taking B k (k.edit r fun l =>
        { l with taking := l.taking + l.owed, owed := 0, gathering := l.collecting })

/-! ## Lives -/

/-- In no queue of the connection. -/
def Core.Loose (k : Core D) (r : Ref) : Prop := r ∉ k.queues

/-- A call a fiber may be given: running, held for nobody, in no queue. -/
def Core.Givable (k : Core D) (r : Ref) : Prop :=
  r ∈ k.refs ∧ k.On r (fun l => l.phase = .running ∧ l.deferred = false ∧ l.holding = false) ∧
    k.Loose r

/-- A request whose header block is whole may have its call begun, or be answered at once. -/
def Core.MayBegin (k : Core D) (r : Ref) : Prop :=
  k.lines.length ≤ maxStreams ∧ k.goawaySent = false ∧ k.continuing ≠ some r

/-- The id is past the last stream of every GOAWAY written. -/
def Core.Beyond (k : Core D) (id : StreamId) : Prop := ∀ last ∈ goaways k.trace, last < id

/-- A stream of a connection takes a step of its life. With `nice`, no GOAWAY is written
while a request's header block is open. -/
inductive Plain (B : Nat) (nice : Prop) : Core D → Core D → Prop where
  | calm {k k' : Core D} : Calm B k k' → Plain B nice k k'
  | classify {k : Core D} (r : Ref) (g o : Bool) : k.On r (·.phase = .headers) →
      Plain B nice k (k.edit r fun l => { l with grpc := g, isOpen := o })
  | launch {k : Core D} (r : Ref) :
      k.On r (fun l => l.phase = .running ∨ (l.phase = .headers ∧ k.MayBegin r)) →
      Plain B nice k (k.edit r fun l =>
        { l with
          phase := .running
          collecting := l.collecting || (l.grpc && !l.gathering)
          gathering := l.gathering || l.grpc })
  | started {k : Core D} (r : Ref) (id : StreamId) : r ∈ k.refs →
      k.On r (fun l => l.id = id ∧ l.phase ≠ .headers) → Plain B nice k (k.log (.started id))
  | answering {k : Core D} (r : Ref) : k.Loose r →
      k.On r (fun l =>
        l.deferred = false ∧ l.holding = false ∧ (l.phase = .headers → k.MayBegin r)) →
      Plain B nice k (k.edit r fun l => { l with phase := .writing })
  | defer {k : Core D} (r : Ref) : k.Loose r → k.On r (·.phase = .running) →
      Plain B nice k (k.edit r fun l => { l with deferred := true })
  | holdFor {k : Core D} (r : Ref) : k.Loose r → k.On r (·.phase = .running) →
      Plain B nice k (k.edit r fun l => { l with holding := true })
  | undefer {k : Core D} (r : Ref) : Plain B nice k (k.edit r fun l => { l with deferred := false })
  | unhold {k : Core D} (r : Ref) : Plain B nice k (k.edit r fun l => { l with holding := false })
  | closeIn {k : Core D} (r : Ref) : Plain B nice k (k.edit r fun l => { l with isOpen := false })
  | failEvents {k : Core D} (r : Ref) : k.On r (·.phase = .writing) →
      Plain B nice k (k.edit r fun l => { l with evFailed := true })
  -- The queues.
  | enqueue {k : Core D} (r : Ref) : k.Givable r →
      Plain B nice k { k with pending := k.pending ++ [r] }
  | dequeue {k : Core D} : Plain B nice k { k with pending := k.pending.tail }
  | give {k : Core D} (r : Ref) : k.Givable r → Plain B nice k { k with inHand := k.inHand ++ [r] }
  | returned {k : Core D} (r : Ref) : k.Givable r →
      Plain B nice k { k with answered := k.answered ++ [r] }
  | collect {k : Core D} : Plain B nice k { k with answered := [] }
  -- Leaving.
  | leave {k : Core D} (r : Ref) (id : StreamId) (why : Cause) : r ∈ k.refs → k.Loose r →
      k.On r (fun l => l.id = id ∧ l.held = 0 ∧ l.starved = false ∧
        (l.phase = .headers → k.continuing ≠ some r)) →
      (why = .refusedGoaway → nice → k.Beyond id) →
      Plain B nice k
        { k.log (.left id why) with lines := k.lines.filter fun l => l.ref != r }
  | recycle {k : Core D} (r : Ref) : r ∉ k.refs → r ∉ k.spare → r < k.nextRef →
      Plain B nice k { k with spare := r :: k.spare }
  | dropSpares {k : Core D} : Plain B nice k { k with spare := [] }
  | refuse {k : Core D} (id : StreamId) : (nice → k.Beyond id) →
      Plain B nice k (k.log (.wrote (.rstStream id .refusedStream)))
  | goaway {k : Core D} (code : ErrorCode) : k.goawaySent = false →
      (nice → k.reading = true → ∀ l ∈ k.lines, l.phase ≠ .headers) →
      Plain B nice k
        { k.log (.wrote (.goaway k.lastStream code)) with goawaySent := true }
  | goawayLost {k : Core D} : Plain B nice k { k with goawaySent := true, reading := false }

/-! ## The frame reader -/

/-- A stream as it is opened. -/
def Line.opened (r : Ref) (id : StreamId) (window : Int) : Line where
  ref := r
  id := id
  phase := .headers
  isOpen := true
  holding := false
  deferred := false
  grpc := false
  trailing := false
  block := []
  evFailed := false
  recvWindow := defaultWindow
  unacked := 0
  owed := 0
  unread := 0
  collecting := false
  gathering := false
  mixed := false
  taking := 0
  held := 0
  starved := false
  sendWindow := window
  reset := false
  wanted := 0
  pristine := true

/-- The frame reader moves, the bytes of DATA frames apart. -/
inductive Front (B : Nat) (nice : Prop) : Core D → Core D → Prop where
  | plain {k k' : Core D} : Plain B nice k k' → Front B nice k k'
  | listened {k : Core D} : Front B nice k { k with attention := false }
  | handedBack {k : Core D} (r : Ref) (reuse : Bool) : r ∈ k.inHand →
      Front B nice k
        { k with
          pending := if reuse then k.pending.tail else k.pending
          inHand := k.inHand.erase r ++ if reuse then k.pending.head?.toList else []
          answered := k.answered ++ [r] }
  -- Frames and header blocks.
  | read {k : Core D} (f : Frame) : Front B nice k (k.log (.read f))
  | noted {k : Core D} (b : Bytes) : Front B nice k (k.log (.fed b))
  | allowed {k : Core D} : Front B nice k (k.log .allowed)
  | decoded {k : Core D} (d : D) : Front B nice k { k with decoder := d }
  | header {k : Core D} (x : Option Ref) (block : Bytes) (ignoring : StreamId) :
      Front B nice k { k with continuing := x, trailerBlock := block, ignoring }
  | trail {k : Core D} (r : Ref) (t : Bool) :
      Front B nice k (k.edit r fun l => { l with trailing := t })
  | extend {k : Core D} (r : Ref) (b : Bytes) :
      Front B nice k (k.edit r fun l => { l with block := l.block ++ b })
  | strayed {k : Core D} : Front B nice k { k with astray := true, reading := false }
  -- A new stream, on a spare or a new reference.
  | append {k : Core D} (r : Ref) (id : StreamId) (spare : List Ref) (nextRef : Ref) :
      (∀ l ∈ k.lines, l.phase ≠ .headers) → k.lastStream < id →
      (k.spare = r :: spare ∧ nextRef = k.nextRef ∨
        k.spare = spare ∧ r = k.nextRef ∧ nextRef = k.nextRef + 1) →
      Front B nice k
        { k with
          lines := k.lines ++ [.opened r id k.peerWindow], lastStream := id, spare, nextRef }
  -- The client's settings and windows.
  | grew {k : Core D} (r : Ref) (n : Nat) :
      k.On r (fun l => l.sendWindow + n + written l.id k.trace ≤
        k.peerWindow + increments l.id k.trace) →
      Front B nice k (k.edit r fun l => { l with sendWindow := l.sendWindow + n })
  | connGrew {k : Core D} (n : Nat) :
      k.sendWindow + n + writtenAll k.trace ≤ defaultWindow + increments 0 k.trace →
      k.sendWindow + n ≤ maxWindow → Front B nice k { k with sendWindow := k.sendWindow + n }
  | connOverflow {k : Core D} (n : Nat) :
      k.sendWindow + n + writtenAll k.trace ≤ defaultWindow + increments 0 k.trace →
      Front B nice k { k with sendWindow := k.sendWindow + n, reading := false }
  | shifted {k : Core D} (v : Nat) : k.reading = true →
      v ∈ (windowTerms k.trace).offered → v ≤ maxWindow →
      Front B nice k
        { k with
          peerWindow := v
          lines := k.lines.map fun l =>
            { l with sendWindow := l.sendWindow + (v - k.peerWindow) } }
  | shiftRefused {k : Core D} (v : Nat) (w : Line → Int) : k.reading = true →
      v ∈ (windowTerms k.trace).offered → v ≤ maxWindow →
      (∀ l ∈ k.lines, w l ≤ max l.sendWindow (l.sendWindow + (v - k.peerWindow))) →
      Front B nice k
        { k with
          peerWindow := v
          lines := k.lines.map fun l => { l with sendWindow := w l }
          reading := false }
  | framed {k : Core D} (v : Nat) : v ∈ (frameTerms k.trace).offered → defaultMaxFrame ≤ v →
      Front B nice k { k with peerMaxFrame := v }
  | acknowledged {k : Core D} : k.reading = true →
      k.peerWindow = ((windowTerms k.trace).offered.getLastD (windowTerms k.trace).now : Nat) →
      k.peerMaxFrame = (frameTerms k.trace).offered.getLastD (frameTerms k.trace).now →
      Front B nice k (k.log (.wrote .settingsAck))

/-- What can happen to a connection. -/
inductive Move (B : Nat) (nice : Prop) : Core D → Core D → Prop where
  | front {k k' : Core D} : Front B nice k k' → Move B nice k k'
  | taking {k k' : Core D} : Taking B k k' → Move B nice k k'

end Nilo.Http2
