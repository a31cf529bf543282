import Nilo.Ws.Frame

/-!
# An open WebSocket (`Socket`, `http/websocket.zig`)

`receive` with everything it goes through: the header read out of the buffer or waited for, the
payload unmasked as it is copied, control frames answered in the middle of a message, the wait
between two frames, which gives the message buffer back when it has gone on for a while and pings a
peer that stays silent, and every way a connection ends.

What the peer and the server do is a list of events, in the order they happen.
-/

namespace Nilo.Ws

open Text (Bytes)
open Mem (Fault)

/-- What happens to a connection from outside: a read brings bytes, a wait comes to its limit, a room
posts, the server stops. -/
inductive Event where
  | bytes (first : UInt8) (more : Bytes)
  | quiet
  | post (framed : Bytes)
  | stop
deriving DecidableEq, Repr

/-- How the stream ends when the events are over. -/
inductive Ending where
  | fin
  | reset
deriving DecidableEq, Repr

inductive Kind where
  | text
  | binary
deriving DecidableEq, Repr

structure Message where
  kind : Kind
  data : Bytes
deriving DecidableEq, Repr

inductive Error where
  | protocolError
  | messageTooBig
  | readFailed
  | endOfStream
deriving DecidableEq, Repr

/-- What is written: a frame of this end's own, or a post that a room has framed. -/
inductive Sent where
  | frame (opcode : Opcode) (data : Bytes)
  | post (framed : Bytes)
deriving DecidableEq, Repr

structure Socket where
  /-- The read buffer. -/
  held : Bytes
  coming : List Event
  ending : Ending
  sent : List Sent
  /-- What the rooms have posted and this connection has not written yet. -/
  posts : List Bytes
  stopping : Bool
  /-- Set once a close frame has gone out. -/
  closed : Bool
  saidGoodbye : Bool
  awaitingPong : Bool
  idleMs : Nat
  maxMessage : Nat
  /-- The message buffer, where it is parked between messages. -/
  slot : Option Nat
  /-- How many message buffers have been taken. -/
  taken : Nat
deriving DecidableEq, Repr

/-- How a step of `receive` stops: with an error, or at a check of the build. -/
inductive Halt where
  | failed (e : Error)
  | fault (f : Fault)
deriving DecidableEq, Repr

inductive Answer where
  | message (m : Message)
  | over
  | halt (h : Halt)
deriving DecidableEq, Repr

/-! ## Writing -/

def Socket.writeFrame (self : Socket) (opcode : Opcode) (data : Bytes) : Socket :=
  { self with sent := self.sent ++ [.frame opcode data] }

/-- Write out everything waiting for this connection. -/
def Socket.deliver (self : Socket) : Socket :=
  { self with sent := self.sent ++ self.posts.map .post, posts := [] }

def Socket.send (self : Socket) (kind : Kind) (data : Bytes) : Socket :=
  if self.closed then self
  else self.deliver.writeFrame (if kind = .text then .text else .binary) data

/-- Data past 125 bytes is cut to 125. -/
def Socket.ping (self : Socket) (data : Bytes) : Socket :=
  if self.closed then self else self.writeFrame .ping (data.take maxControl)

def Socket.close (self : Socket) (code : Close) (reason : Bytes) : Socket :=
  if self.closed then self
  else { self.deliver with closed := true }.writeFrame .close (closePayload code reason)

def Socket.closeWith (self : Socket) (code : Close) : Socket := self.close code []

/-- Say goodbye properly, then report. -/
def Socket.fail {α : Type} (self : Socket) (e : Error) : Socket × Except Halt α :=
  (self.closeWith .protocolError, .error (.failed e))

def Socket.tooBig {α : Type} (self : Socket) : Socket × Except Halt α :=
  (self.closeWith .tooBig, .error (.failed .messageTooBig))

/-! ## Reading -/

/-- Read until `n` bytes are held or the stream ends. A read has no limit of its own, and what a room
posts or the server asks meanwhile waits. -/
def peekFrom (n : Nat) (self : Socket) : List Event → Socket × Option Ending
  | [] => ({ self with coming := [] }, if n ≤ self.held.length then none else some self.ending)
  | event :: rest =>
    if n ≤ self.held.length then ({ self with coming := event :: rest }, none)
    else
      match event with
      | .bytes first more => peekFrom n { self with held := self.held ++ first :: more } rest
      | .quiet => peekFrom n self rest
      | .post framed => peekFrom n { self with posts := self.posts ++ [framed] } rest
      | .stop => peekFrom n { self with stopping := true } rest

def Socket.peek (self : Socket) (n : Nat) : Socket × Option Ending := peekFrom n self self.coming

def Socket.toss (self : Socket) (n : Nat) : Socket := { self with held := self.held.drop n }

/-- Read `n` bytes past the read buffer, which is empty. -/
def Socket.readSliceAll (self : Socket) (n : Nat) : Socket × Except Ending Bytes :=
  match self.peek n with
  | (self, none) => (self.toss n, .ok (self.held.take n))
  | (self, some e) => ({ self with held := [] }, .error e)

/-- Wait for the rest of a header. -/
def Socket.fillHeader (self : Socket) : Socket × Except Halt Frame :=
  let between := self.held.isEmpty
  match self.peek 2 with
  | (self, some .fin) => (self, .error (.failed .endOfStream))
  | (self, some .reset) =>
    (self, .error (.failed (if between then .endOfStream else .readFailed)))
  | (self, none) =>
    match self.peek (headerSize (self.held.getD 1 0)) with
    | (self, some _) => self.fail .readFailed
    | (self, none) =>
      match headerFrom self.held with
      | some frame => (self, .ok frame)
      | none => (self, .error (.fault .range))

/-- A header out of the read buffer, where it almost always is, or waited for. -/
def Socket.findHeader (self : Socket) : Socket × Except Halt Frame :=
  match headerFrom self.held with
  | some frame => (self, .ok frame)
  | none => self.fillHeader

/-- The next frame's header, consumed. `room` is what is left of the message buffer. -/
def Socket.nextHeader (self : Socket) (room : Nat) : Socket × Except Halt Frame :=
  match self.findHeader with
  | (self, .error h) => (self, .error h)
  | (self, .ok frame) =>
    if !frame.wellFormed .client then self.fail .protocolError
    else if !frame.opcode.isControl && frame.len > room then self.tooBig
    else (self.toss frame.size, .ok frame)

/-- One frame's payload, unmasked: what is held, and what is not held is read past the buffer. -/
def Socket.readPayload (self : Socket) (len : Nat) (key : Bytes) : Socket × Except Ending Bytes :=
  let front := self.held.take len
  let self := self.toss front.length
  if front.length = len then (self, .ok (unmaskInto front key 0))
  else
    match self.readSliceAll (len - front.length) with
    | (self, .error e) => (self, .error e)
    | (self, .ok rest) =>
      (self, .ok (unmaskInto front key 0 ++ unmaskInto rest key front.length))

/-- Whether the conversation carries on. -/
def Socket.handleControl (self : Socket) (frame : Frame) : Socket × Except Halt Bool :=
  if frame.len > maxControl then (self, .error (.fault .range))
  else
    match self.readPayload frame.len frame.mask with
    | (self, .error _) => self.fail .readFailed
    | (self, .ok data) =>
      match frame.opcode with
      | .ping => (self.writeFrame .pong data, .ok true)
      | .pong => (self, .ok true)
      | .close =>
        if !closeIsWellFormed data then self.fail .protocolError
        else
          let self := { self with saidGoodbye := true }
          (if self.closed then self else { self with closed := true }.writeFrame .close data,
            .ok false)
      | _ => self.fail .protocolError

/-! ## Waiting -/

inductive Woken where
  | readable
  | posted
  | timedOut
  | closed
deriving DecidableEq, Repr

/-- A wait with a limit that receives into the read buffer. The end of the stream is readable, and the
caller's own read meets it. -/
def Socket.waitFilling (self : Socket) : Socket × Woken :=
  match self.coming with
  | [] => (self, .readable)
  | .bytes first more :: rest =>
    ({ self with held := self.held ++ first :: more, coming := rest }, .readable)
  | .quiet :: rest => ({ self with coming := rest }, .timedOut)
  | .post framed :: rest => ({ self with posts := self.posts ++ [framed], coming := rest }, .posted)
  | .stop :: rest => ({ self with stopping := true, coming := rest }, .closed)

/-- A wait that only listens; with a limit of zero it has none. -/
def waitFrom (limit : Nat) (self : Socket) : List Event → Socket × Woken
  | [] => ({ self with coming := [] }, .readable)
  | .bytes first more :: rest => ({ self with coming := .bytes first more :: rest }, .readable)
  | .quiet :: rest =>
    if limit = 0 then waitFrom limit self rest else ({ self with coming := rest }, .timedOut)
  | .post framed :: rest =>
    ({ self with posts := self.posts ++ [framed], coming := rest }, .posted)
  | .stop :: rest => ({ self with stopping := true, coming := rest }, .closed)

def Socket.wait (self : Socket) (limit : Nat) : Socket × Woken := waitFrom limit self self.coming

def Socket.giveScratch (self : Socket) : Socket := { self with slot := none }

/-- The message buffer, taken the first time a message needs one. -/
def Socket.takeScratch (self : Socket) : Socket × Nat :=
  match self.slot with
  | some buf => (self, buf)
  | none => ({ self with slot := some self.taken, taken := self.taken + 1 }, self.taken)

def idlePeekMs : Nat := 200

/-- Park until there is something to do; the message buffer goes back when it stays quiet. -/
def Socket.park (self : Socket) (mayGive : Bool) : Socket × Woken :=
  if self.idleMs ≠ 0 ∧ self.idleMs ≤ idlePeekMs then self.waitFilling
  else
    match self.waitFilling with
    | (self, .timedOut) =>
      let self := if mayGive then self.giveScratch else self
      self.wait (if self.idleMs = 0 then 0 else self.idleMs - idlePeekMs)
    | woken => woken

/-! ## receive -/

/-- What `receive` holds of a message: what is collected, and the buffer it is collected in. -/
structure Collecting where
  filled : Bytes
  kind : Option Kind
  buf : Option Nat
deriving DecidableEq, Repr

inductive Turn where
  | again (c : Collecting)
  | answer (a : Answer)

/-- A message with every frame in. -/
def Socket.handOver (self : Socket) (kind : Kind) (data : Bytes) : Socket × Answer :=
  if kind = .text ∧ validText data = false then
    (self.closeWith .invalidPayload, .halt (.failed .protocolError))
  else (self, .message ⟨kind, data⟩)

/-- The kind of the message that a data frame belongs to: a new one where none is begun, the one begun
where it continues. -/
def messageKind (begun : Option Kind) : Opcode → Option Kind
  | .text => if begun.isSome then none else some .text
  | .binary => if begun.isSome then none else some .binary
  | .continuation => begun
  | _ => none

/-- The buffer a message is collected in: taken only once there are bytes to keep. -/
def Socket.bufferFor (self : Socket) (c : Collecting) : Socket × Nat :=
  match c.buf with
  | some buf => if self.maxMessage = 0 then self.takeScratch else (self, buf)
  | none => self.takeScratch

/-- A data frame whose header is read: handed over where it lies, or collected. -/
def Socket.takeData (self : Socket) (c : Collecting) (frame : Frame) (kind : Kind) : Socket × Turn :=
  if c.filled.length = 0 ∧ frame.fin = true ∧ frame.len ≤ self.held.length then
    let data := unmaskInto (self.held.take frame.len) frame.mask 0
    let (self, a) := (self.toss data.length).handOver kind data
    (self, .answer a)
  else
    let (self, buf) := self.bufferFor c
    -- The bytes go into a buffer that is held, and within it.
    if self.slot ≠ some buf ∨ self.maxMessage < c.filled.length + frame.len then
      (self, .answer (.halt (.fault .range)))
    else
      match self.readPayload frame.len frame.mask with
      | (self, .error _) => (self.closeWith .protocolError, .answer (.halt (.failed .readFailed)))
      | (self, .ok data) =>
        let filled := c.filled ++ data
        if frame.fin then
          let (self, a) := self.handOver kind filled
          (self, .answer a)
        else (self, .again ⟨filled, some kind, some buf⟩)

/-- A control frame may arrive in the middle of a message, and leaves what is collected alone. -/
def Socket.takeControl (self : Socket) (c : Collecting) (frame : Frame) : Socket × Turn :=
  match self.handleControl frame with
  | (self, .error h) => (self, .answer (.halt h))
  | (self, .ok true) => (self, .again c)
  | (self, .ok false) => (self, .answer .over)

/-- The rest of a turn once something has arrived. -/
def Socket.takeFrame (self : Socket) (c : Collecting) : Socket × Turn :=
  let self := { self with awaitingPong := false }
  if self.maxMessage < c.filled.length then (self, .answer (.halt (.fault .overflow)))
  else
    match self.nextHeader (self.maxMessage - c.filled.length) with
    | (self, .error (.failed .endOfStream)) =>
      ({ self with closed := true }.giveScratch, .answer .over)
    | (self, .error h) => (self, .answer (.halt h))
    | (self, .ok frame) =>
      if frame.opcode.isControl then self.takeControl c frame
      else
        match messageKind c.kind frame.opcode with
        | none => (self.closeWith .protocolError, .answer (.halt (.failed .protocolError)))
        | some kind => self.takeData { c with kind := some kind } frame kind

/-- One turn of the loop. -/
def Socket.turn (self : Socket) (c : Collecting) : Socket × Turn :=
  let self := self.deliver
  if self.stopping then ((self.closeWith .goingAway).giveScratch, .answer .over)
  else if self.held.length ≠ 0 then self.takeFrame c
  else
    let mayGive := decide (c.filled.length = 0)
    let c := if mayGive then { c with buf := none } else c
    match self.park mayGive with
    | (self, .posted) => (self, .again c)
    | (self, .readable) => self.takeFrame c
    | (self, .timedOut) =>
      if self.awaitingPong then (self.closeWith .goingAway, .answer .over)
      else ({ self with awaitingPong := true }.ping [], .again c)
    | (self, .closed) =>
      if self.stopping then ((self.closeWith .goingAway).giveScratch, .answer .over)
      else ({ self with closed := true }, .answer .over)

/-- The turns of the loop; each takes an event or a header at least. -/
def receiveWithin : Nat → Socket → Collecting → Socket × Answer
  | 0, self, _ => (self, .halt (.fault .overflow))
  | n + 1, self, c =>
    match self.turn c with
    | (self, .answer a) => (self, a)
    | (self, .again c) => receiveWithin n self c

/-- An event, and the bytes it brings. -/
def Event.size : Event → Nat
  | .bytes _ more => more.length + 2
  | _ => 1

/-- How many bytes and events there are still to come. -/
def Socket.pending (self : Socket) : Nat :=
  self.held.length + (self.coming.map Event.size).sum

/-- The next message, or that the connection is over. -/
def Socket.receive (self : Socket) : Socket × Answer :=
  if self.closed then (self.giveScratch, .over)
  else receiveWithin (self.pending + 1) self ⟨[], none, none⟩

/-- `n` messages asked for, one after another. -/
def receives : Nat → Socket → Socket × List Answer
  | 0, self => (self, [])
  | n + 1, self =>
    let (self, a) := self.receive
    let (self, more) := receives n self
    (self, a :: more)

/-- A connection just upgraded, which may hold bytes that came with the request. -/
def Socket.upgraded (held : Bytes) (coming : List Event) (ending : Ending) (idleMs maxMessage : Nat) :
    Socket :=
  { held := held, coming := coming, ending := ending, sent := [], posts := [], stopping := false
    closed := false, saidGoodbye := false, awaitingPong := false, idleMs := idleMs
    maxMessage := maxMessage, slot := none, taken := 0 }

end Nilo.Ws
