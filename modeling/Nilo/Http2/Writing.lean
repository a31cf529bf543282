import Nilo.Http2.Conn

/-!
# Writing answers

Whole answers (`writeStream`), streamed ones lent through a pipe (`pump`), event
streams (`pumpEvents`, `heartbeats`), and the pass over all of them
(`writeReady`). DATA is written in four places and each takes both windows and
the peer's frame size into account; the loops they share are `dataFrames`.
-/

namespace Nilo.Http2

open Nilo.Lib Nilo.Text

variable {D : Type}

/-- The room both windows leave for DATA on a stream. -/
def Conn.room (c : Conn D) (r : Ref) : Int := min c.sendWindow (c.get r).sendWindow

/-- One DATA frame: out, and off both windows. -/
def emitData (r : Ref) (payload : Bytes) (endStream : Bool) : M D Unit := do
  emit (.data (← stream r).id payload endStream)
  modify fun c => { c with sendWindow := c.sendWindow - payload.length }
  update r fun s => { s with sendWindow := s.sendWindow - payload.length }

/-- How much of `left` bytes the next DATA frame takes: what the windows, the frame size and
the turn allow. -/
def Conn.portion (c : Conn D) (r : Ref) (left quantum : Nat) : Nat :=
  (min (min (min (left : Int) (c.room r)) c.peerMaxFrame) quantum).toNat

/-- DATA frames for as much of `bytes` as the windows, the frame size and the turn allow;
how much went. `endsWith` marks the frame that ends the bytes as the end of the stream. -/
def dataFrames (r : Ref) (endsWith : Bool) : Nat → Nat → Bytes → M D Nat
  | 0, _, _ => pure 0
  | fuel + 1, quantum, bytes => do
    if bytes = [] ∨ quantum = 0 then pure 0
    else if (← get).room r ≤ 0 then pure 0
    else do
      let n := (← get).portion r bytes.length quantum
      emitData r (bytes.take n) (endsWith && n == bytes.length)
      let more ← dataFrames r endsWith fuel (quantum - n) (bytes.drop n)
      return n + more

/-- The whole answer is out. A client that is still sending is asked to stop. -/
def finished (r : Ref) : M D Unit := do
  let s ← stream r
  when s.isOpen (emit (.rstStream s.id .noError))
  modify (·.forget r .answered)

/-- The body of a whole answer, and its trailers once the body is gone. -/
def writeBody (r : Ref) (s : Stream) : M D Bool := do
  let left := s.data.drop s.dataSent
  let n ← dataFrames r s.noTrailers (left.length + 1) left.length left
  update r fun s => { s with dataSent := s.dataSent + n }
  if n < left.length then return false
  else do
    when (!s.noTrailers) do
      emitAll (headerBlockFrames s.id s.trailers true (← get).peerMaxFrame)
    finished r
    return true

/-- Write as much of one answer as the windows allow. True when it is all gone and the
stream has been let go of. -/
def writeStream (r : Ref) : M D Bool := do
  let s ← stream r
  when (!s.headSent) do
    emitAll (headerBlockFrames s.id s.headBlock s.trailersOnly (← get).peerMaxFrame)
    update r fun s => { s with headSent := true }
  if !s.headSent && s.trailersOnly then
    finished r
    return true
  else writeBody r s

/-- An answer made here is written at once. -/
def ready (r : Ref) : M D Unit := do
  update r fun s => { s with phase := .writing }
  let _ ← writeStream r

/-- Answer without running anything: one HEADERS frame carrying the status. -/
def answerNow (h : Host) (r : Ref) (code : Nat) (message : String) : M D Unit := do
  update r fun s => { s with headBlock := h.trailersOnly code (ascii message), trailersOnly := true }
  ready r

/-- The failure body every refusal of the App's own carries. -/
def statusBody (status : Nat) (message : String) : Bytes :=
  ascii "\x7b\"error\":\"" ++ ascii message ++ ascii "\",\"status\":" ++
    ascii (toString status) ++ ascii "\x7d"

/-- Answer as HTTP without running anything: a status and the failure body. -/
def answerStatus (h : Host) (r : Ref) (status : Nat) (message : String) : M D Unit := do
  let body := statusBody status message
  update r fun s =>
    { s with headBlock := h.httpHead status body.length, data := body, noTrailers := true }
  ready r

/-- A request that is not a well-formed HTTP/2 one: a stream error, and nothing else. -/
def malformed (r : Ref) : M D Unit := do
  emit (.rstStream (← stream r).id .protocolError)
  modify (·.forget r .malformed)

/-! ## The outbound pipes -/

inductive Pumped where
  | idle | moved | more
deriving DecidableEq, Repr

/-- The updates the flood count lets pass for the DATA written. -/
def Conn.earnCredit (c : Conn D) : Conn D :=
  let earned := c.outBytes / creditBytes
  if earned = 0 then c
  else
    { c with
      outBytes := c.outBytes - earned * creditBytes
      outCredit := min (c.outCredit + earned * 2) maxControlRun }

/-- The pipe of a stream's answer, changed in place. -/
def updateOut (r : Ref) (f : Outbox → Outbox) : M D Unit :=
  update r fun s => { s with out := s.out.map f }

/-- The head of a streamed answer, if it has not gone. -/
def pumpHead (r : Ref) (o : Outbox) : M D Bool :=
  match o.headToWrite with
  | none => pure false
  | some block => do
    emitAll (headerBlockFrames (← stream r).id block false (← get).peerMaxFrame)
    updateOut r (·.headWritten)
    return true

/-- As much of the piece the call lent as the windows and the quantum allow: how much went,
whether that is all of it, and what is left of the turn. -/
def pumpPiece (r : Ref) (o : Outbox) : M D (Nat × Bool × Nat) := do
  let left := o.lent.drop o.sent
  let n ← dataFrames r false (left.length + 1) pumpQuantum left
  modify fun c => { c with outBytes := c.outBytes + n }
  let complete := decide (o.sent + n = o.lent.length)
  when (n ≠ 0 ∨ complete) (updateOut r (·.wrote (o.sent + n) complete))
  modify (·.earnCredit)
  let now := (← get).now
  update r fun s =>
    { s with
      stuckSince :=
        if complete then 0 else if n ≠ 0 ∨ s.stuckSince = 0 then now else s.stuckSince }
  return (n, complete, pumpQuantum - n)

/-- The frames that end a streamed body: its head alone, its trailers, or an empty DATA. -/
def Outbox.endFrames (o : Outbox) (id : StreamId) (maxFrame : Nat) : List Sent :=
  if o.headOnly then headerBlockFrames id o.head true maxFrame
  else if o.trailers ≠ [] then headerBlockFrames id o.trailers true maxFrame
  else [.data id [] true]

/-- The end of a streamed body. -/
def pumpEnd (r : Ref) (o : Outbox) : M D Unit := do
  emitAll (o.endFrames (← stream r).id (← get).peerMaxFrame)
  updateOut r (·.ended)
  update r fun s => { s with stuckSince := 0 }

/-- The piece the call lent, when there is one. -/
def pumpPending (r : Ref) (o : Outbox) : M D (Nat × Bool × Nat) :=
  if o.pending then pumpPiece r o else pure (0, true, pumpQuantum)

/-- One stream's turn: its head if it has not gone, as much of the piece its call lent as
both windows and the quantum allow, and the end of its body when that is all written. -/
def pump (r : Ref) (o : Outbox) : M D Pumped := do
  if o.isOver then return .idle
  else do
    let headMoved ← pumpHead r o
    let (n, complete, quantum) ← pumpPending r o
    if o.ending && complete then
      pumpEnd r o
      return .moved
    else if !complete && quantum = 0 then return .more
    else return if headMoved || n ≠ 0 then .moved else .idle

/-- The puts of an event source in one turn: how much of the turn they used. -/
def putEvents (r : Ref) : Nat → List Bytes → M D Nat
  | _, [] => pure 0
  | quantum, bytes :: rest => do
    let n ← dataFrames r false (bytes.length + 1) quantum bytes
    modify fun c => { c with outBytes := c.outBytes + n }
    let more ← putEvents r (quantum - n) rest
    return n + more

def nextTurn : M D EventTurn := do
  match (← get).env.turns with
  | [] => return {}
  | t :: rest => do
    modify fun c => { c with env := { c.env with turns := rest } }
    return t

/-- The quiet stretch of an event stream begins again. -/
def quietFrom (now : Nat) (ev : EventSource) : EventSource :=
  { ev with dueNs := now + ev.keepaliveMs * nsPerMs }

/-- The head of an event stream, if it has not gone: whether it moved. -/
def pumpEventHead (r : Ref) : M D Bool := do
  let s ← stream r
  if s.evHead then return false
  else do
    update r fun s => { s with evHead := true }
    match s.out with
    | none => return false
    | some o => return (← pump r o) != .idle

/-- An event stream after a turn that wrote `wrote` bytes. -/
def Stream.turned (s : Stream) (wrote now : Nat) (blocked : Bool) : Stream :=
  { s with
    evBlocked := blocked
    stuckSince := if !blocked then 0 else if 0 < wrote ∨ s.stuckSince = 0 then now else s.stuckSince
    events :=
      if 0 < wrote then s.events.map fun ev => if ev.keepaliveMs ≠ 0 then quietFrom now ev else ev
      else s.events }

/-- One event stream's turn: its head if it has not gone, then what the rooms posted. -/
def pumpEvents (r : Ref) : M D Pumped := do
  let headMoved ← pumpEventHead r
  let turn ← nextTurn
  let wrote ← putEvents r pumpQuantum turn.puts
  if turn.outcome = .outOfMemory then
    emit (.rstStream (← stream r).id .internalError)
    update r fun s => { s with evFailed := true, evBlocked := false }
    return .idle
  else do
    when (0 < wrote) (modify (·.earnCredit))
    let now := (← get).now
    let blocked := turn.outcome == .blocked
    update r (·.turned wrote now blocked)
    if blocked && decide (pumpQuantum ≤ wrote) then return .more
    else return if headMoved || decide (0 < wrote) then .moved else .idle

/-- What the turn of the stream at position `at_` did goes to `pumpNext` and `outMore`. -/
def Conn.pumped (c : Conn D) (at_ : Nat) : Pumped → Conn D
  | .idle => c
  | .moved => { c with pumpNext := at_ + 1 }
  | .more => { c with pumpNext := at_ + 1, outMore := true }

/-- The turn of the stream at position `at_`. -/
def pumpOne (at_ : Nat) (r : Ref) : M D Unit := do
  let s ← stream r
  if s.phase = .writing ∧ s.events.isSome then
    let p ← pumpEvents r
    modify (·.pumped at_ p)
  else match s.out with
    | none => pure ()
    | some o =>
      if s.reset then updateOut r (·.fail .reset)
      else do
        let p ← pump r o
        modify (·.pumped at_ p)

def pumpFrom : List (Nat × Ref) → M D Unit
  | [] => pure ()
  | (at_, r) :: rest => do pumpOne at_ r; pumpFrom rest

/-- Event streams that could not be written, reset above. -/
def forgetFailed : List Ref → M D Unit
  | [] => pure ()
  | r :: rest => do
    when (← stream r).evFailed (modify (·.forget r .eventsFailed))
    forgetFailed rest

/-- A round of at most `pumpQuantum` bytes to each stream that has some, from where the last
round stopped. -/
def pumpOutputs : M D Unit := do
  modify fun c => { c with outMore := false }
  let c ← get
  if c.shared.streaming = 0 ∨ c.streams = [] then pure ()
  else do
    let places := (List.range c.refs.length).zip c.refs
    pumpFrom (places.rotateLeft (c.pumpNext % c.refs.length))
    forgetFailed (← get).refs

/-- An event stream owes a comment. -/
def Stream.owesComment (s : Stream) (now : Nat) : Bool :=
  match s.events with
  | none => false
  | some ev =>
    s.phase == .writing && ev.keepaliveMs != 0 && decide (ev.dueNs ≤ now) && s.stuckSince == 0

/-- The comment each event stream owes when it has said nothing for its `keepaliveMs`. -/
def heartbeatsFrom : List Ref → M D Unit
  | [] => pure ()
  | r :: rest => do
    let now := (← get).now
    when ((← stream r).owesComment now) do
      update r fun s => { s with events := s.events.map (quietFrom now) }
      when (3 ≤ (← get).room r) do
        emitData r (ascii ":\n\n") false
        modify fun c => { c with outBytes := c.outBytes + 3 }
    heartbeatsFrom rest

def heartbeats : M D Unit := do
  heartbeatsFrom (← get).refs
  modify (·.earnCredit)

/-- A streamed answer whose call has returned: let the stream go once the end is written. -/
def settleReturned (r : Ref) (o : Outbox) : M D Unit := do
  if o.done then finished r
  else if o.failure.isSome then modify (·.forget r .pipeFailed)
  else when o.abandoned do
    emit (.rstStream (← stream r).id .internalError)
    modify (·.forget r .abandoned)

def settleOne (r : Ref) : M D Unit := do
  let s ← stream r
  match s.out with
  | some o => when (s.phase = .writing ∧ s.events.isNone) (settleReturned r o)
  | none => pure ()

def settleFrom : List Ref → M D Unit
  | [] => pure ()
  | r :: rest => do settleOne r; settleFrom rest

/-- An event stream handed over by a call that has returned: counted, its client's side
shut, and its first comment due a quiet stretch from now. -/
def takeEvents (r : Ref) : M D Unit := do
  update r fun s => { s with evSeen := true }
  modify fun c => { c with eventsOpen := c.eventsOpen + 1 }
  when (← stream r).isOpen do
    update r fun s => { s with isOpen := false }
    modify (·.letGo r)
  let now := (← get).now
  update r fun s =>
    { s with inbox := s.inbox.fail .gone, events := s.events.map (quietFrom now) }

/-! ## The pass over every answer -/

/-- The answered calls come off the queue: dropped, cancelled, or ready to be written. -/
def takeOne (r : Ref) : M D Unit := do
  let s ← stream r
  if s.reset then modify (·.forget r .callReset)
  else if s.cancel then
    emit (.rstStream s.id .cancel)
    modify (·.forget r .cancelled)
  else update r fun s => { s with phase := .writing }

def takeAnswered : List Ref → M D Unit
  | [] => pure ()
  | r :: rest => do takeOne r; takeAnswered rest

/-- Whole answers, as far as the windows let them go; whether one is blocked. -/
def writeAnswers : List Ref → Bool → M D Bool
  | [], blocked => pure blocked
  | r :: rest, blocked => do
    let s ← stream r
    if s.phase ≠ .writing then writeAnswers rest blocked
    else do
      when (s.events.isSome && !s.evSeen) (takeEvents r)
      if s.out.isSome then writeAnswers rest blocked
      else do
        let gone ← writeStream r
        writeAnswers rest (blocked || !gone)

/-- Take the answered calls off the queue and write every answer as far as the windows let
it go. -/
def writeReady : M D Unit := do
  let answered := (← get).shared.answered
  modify fun c => { c with shared := c.shared.takeAll.2 }
  takeAnswered answered
  let blocked ← writeAnswers (← get).refs false
  modify fun c =>
    { c with
      blockedSince := if !blocked then 0 else if c.blockedSince = 0 then c.now else c.blockedSince }
  pumpOutputs
  when ((← get).eventsOpen ≠ 0) heartbeats
  settleFrom (← get).refs

/-- Turns of one event stream while each runs out before the stream does. -/
def lastTurns (r : Ref) : Nat → M D Unit
  | 0 => pure ()
  | fuel + 1 => do
    when ((← pumpEvents r) = .more) (lastTurns r fuel)

/-- The connection is going: each event stream gets what was posted if the windows take it
and then its end, or a reset if an event is left unfinished. -/
def endOne (r : Ref) : M D Unit := do
  let s ← stream r
  when (s.phase = .writing ∧ s.evSeen) do
    lastTurns r 65
    let s ← stream r
    if s.evFailed then modify (·.forget r .eventsFailed)
    else do
      emit (if s.evBlocked then .rstStream s.id .cancel else .data s.id [] true)
      modify (·.forget r .eventsEnded)

def endEventsFrom : List Ref → M D Unit
  | [] => pure ()
  | r :: rest => do endOne r; endEventsFrom rest

def endEvents : M D Unit := do endEventsFrom (← get).refs

end Nilo.Http2
