import Nilo.Room.Floor

/-!
# An event stream over HTTP/2 (`http/stream.zig`, `Http2Events`)

A stream sits in rooms and is given what they kept for it; from then on the connection calls `step`
whenever it has a turn for the stream, and `leave` at the end. What `step` does is cut where it
touches something shared: the bell it clears before it looks, each `take` under a seat's lock, each
reference it lets go. Between two of these anything may happen on the floor. What a write is given
by the windows and the turn, and whether it fails, is the wire's to say (`Turn`).
-/

namespace Nilo.Rooms

open Text (Bytes ascii)

/-! ## How an event is written -/

/-- `Lines`: a line ends at CRLF, at LF and at a lone CR. -/
def lines : Bytes → Bytes → List Bytes
  | line, [] => [line]
  | line, [ch] => if ch = 10 ∨ ch = 13 then [line, []] else [line ++ [ch]]
  | line, ch :: ch' :: rest =>
    if ch = 10 then line :: lines [] (ch' :: rest)
    else if ch = 13 then
      if ch' = 10 then line :: lines [] rest else line :: lines [] (ch' :: rest)
    else lines (line ++ [ch]) (ch' :: rest)

def writeData (text : Bytes) : Bytes :=
  if text = [] then ascii "data:\n"
  else (lines [] text).flatMap fun line => ascii "data: " ++ line ++ [10]

/-- `writeEvent`, of the event a post is (`eventOf`). -/
def writeEvent (post : Post) : Bytes :=
  (if post.name = [] then [] else ascii "event: " ++ post.name ++ [10]) ++
    (if post.id = [] then [] else ascii "id: " ++ post.id ++ [10]) ++ writeData post.data ++ [10]

/-- `{d}`. -/
def decimalOf (n : Nat) : Bytes := (Nat.toDigits 10 n).map fun ch => UInt8.ofNat ch.toNat

/-- The event begun and not finished. -/
inductive Held where
  | retry (millis : Nat)
  | post (p : PostId)
deriving DecidableEq, Repr

namespace Held

/-- What `write` formats. -/
def text (h : Heap) : Held → Bytes
  | .retry millis => ascii "retry: " ++ decimalOf millis ++ [10, 10]
  | .post p =>
    match h[p]? with
    | none => []
    | some cell => writeEvent cell.post

/-- The reference it comes with. -/
def refs : Held → List PostId
  | .retry _ => []
  | .post p => [p]

end Held

/-! ## One write -/

inductive Fault where
  /-- No memory to format the event. -/
  | format
  /-- `put` fails, after some of the bytes. -/
  | put
  /-- No memory to keep what is left of it. -/
  | keep
deriving DecidableEq, Repr

/-- What the connection's wire has for one write: how many bytes the windows and the turn have room
for, how many of the bytes it is given `put` then takes, and what goes wrong. -/
structure Turn where
  room : Nat
  sent : Nat
  fault : Option Fault
deriving DecidableEq, Repr

/-- `put` takes some of the bytes when there is room. -/
def Turn.puts (t : Turn) (bytes : Bytes) : Nat := min (max t.sent 1) bytes.length

inductive Written where
  | whole
  | part
  | failed
deriving DecidableEq, Repr

/-- What is left of the held event once some of it has gone. -/
structure Remainder where
  pending : Bytes
  pendingAt : Nat
deriving DecidableEq, Repr

/-- `write`: how it went, what is left to write then, and the bytes that went out. -/
def write (text : Bytes) (left : Remainder) (t : Turn) : Written × Remainder × Bytes :=
  if t.room = 0 then (.part, left, [])
  else if left.pending = [] then
    if t.fault = some .format then (.failed, left, [])
    else if t.fault = some .put then (.failed, left, text.take t.sent)
    else if t.puts text = text.length then (.whole, left, text)
    else if t.fault = some .keep then (.failed, left, text.take (t.puts text))
    else (.part, ⟨text.drop (t.puts text), 0⟩, text.take (t.puts text))
  else
    let bytes := left.pending.drop left.pendingAt
    if t.fault = some .put then (.failed, left, bytes.take t.sent)
    else if left.pendingAt + t.puts bytes < left.pending.length then
      (.part, { left with pendingAt := left.pendingAt + t.puts bytes }, bytes.take (t.puts bytes))
    else (.whole, ⟨[], 0⟩, bytes.take (t.puts bytes))

/-! ## The stream -/

structure Http2Events where
  retryMs : Option Nat
  /-- What each room kept for a client coming back. -/
  replays : List (List PostId)
  held : Option Held
  left : Remainder
deriving DecidableEq, Repr

/-- The first post the rooms kept that is not written yet. -/
def nextReplay : List (List PostId) → Option (PostId × List (List PostId))
  | [] => none
  | [] :: replays =>
    match nextReplay replays with
    | none => none
    | some (p, replays) => some (p, [] :: replays)
  | (p :: posts) :: replays => some (p, posts :: replays)

/-- `retry:`, then the history, in the order they are owed. -/
def Http2Events.nextOwed (e : Http2Events) : Option (Held × Http2Events) :=
  match e.retryMs with
  | some millis => some (.retry millis, { e with retryMs := none })
  | none =>
    match nextReplay e.replays with
    | none => none
    | some (p, replays) => some (.post p, { e with replays := replays })

def Http2Events.refs (e : Http2Events) : List PostId :=
  e.replays.flatten ++ e.held.toList.flatMap Held.refs

inductive Stepped where
  | drained
  | blocked
deriving DecidableEq, Repr

inductive Phase where
  /-- The handler seats it. -/
  | seating
  /-- Between two calls of `step`, with what the last one returned. -/
  | idle (last : Option Stepped)
  -- Inside `step`, past the bell.
  | finish
  | owed
  | walk (seating : Seating)
  | took (seating : Seating) (p : PostId)
  /-- `step` returned an error. -/
  | failed
  -- Inside `leave`.
  | leaving
  | letGoHeld
  | letGoReplays
  | gone
deriving DecidableEq, Repr

def Phase.refs : Phase → List PostId
  | .took _ p => [p]
  | _ => []

/-- A stream and the floor its rooms are on. The last six fields only record what happened. -/
structure Feed where
  floor : Floor
  /-- The connection of the floor the stream is. -/
  c : Nat
  events : Http2Events
  phase : Phase
  /-- The bytes written for the stream. -/
  wire : Bytes
  /-- The posts it was given of what the rooms kept. -/
  given : List PostId
  /-- The posts that came to its seats, and those it took from them, each with its room. -/
  got : List (Nat × PostId)
  taken : List (Nat × PostId)
  /-- A seat was full when a post came to it. -/
  lost : Bool
  /-- The references of its own it took, and those it let go. -/
  owned : List PostId
  released : List PostId
deriving DecidableEq, Repr

namespace Floor

/-- A reference a caller holds is let go. -/
def letGo (f : Floor) (p : PostId) : Floor := f.release (f.held.idxOf p)

/-- A caller that has a post takes a reference of its own. -/
def addRef (f : Floor) (p : PostId) : Floor := { f with heap := f.heap.addRef p, held := p :: f.held }

/-- `take`, with the ticket the walk over the seats has in hand. -/
def takeAt (f : Floor) (room : Nat) (ticket : Ticket) : Option (PostId × Floor) :=
  match f.rooms[room]? with
  | none => none
  | some r =>
    match r.take ticket with
    | none => none
    | some (p, r) => some (p, { f with rooms := f.rooms.set room r, held := p :: f.held })

/-- The post a step puts into a seat of a connection's, with its room, and whether the seat was
full. -/
def comes (c : Nat) (f : Floor) : Act → Option (Nat × PostId × Bool)
  | .put room false =>
    match f.rooms[room]? with
    | none => none
    | some r =>
      match r.roster with
      | none => none
      | some (p, place) =>
        if place < r.here then
          match r.roll[place]? with
          | none => none
          | some index =>
            match r.seats[index]? with
            | none => none
            | some seat =>
              if seat.waker = some c ∧ ¬(seat.textOnly = true ∧ f.heap.kind p = .binary) then
                some (room, p, decide (seat.ring.count = r.backlog))
              else none
        else none
  | _ => none

end Floor

/-- What only the connection itself does. -/
def Act.isOf (c : Nat) : Act → Bool
  | .sitAfter c' _ _ _ _ => c' == c
  | .unlink c' _ => c' == c
  | .giveUp c' => c' == c
  | .take c' _ _ => c' == c
  | .look c' => c' == c
  | _ => false

inductive Ev where
  /-- Somebody else does something. -/
  | other (a : Act)
  | sit (room : Nat) (lastId : Bytes) (into : Nat)
  | handOver
  /-- `step` is called. -/
  | call
  /-- `step` or `leave` goes on. -/
  | go (t : Turn)
  | leave
deriving DecidableEq, Repr

namespace Feed

def start (rooms : List Options) (conns c : Nat) (retryMs : Option Nat) : Feed where
  -- the bell starts rung
  floor := (Floor.start rooms conns).ring (some c)
  c := c
  events := ⟨retryMs, [], none, ⟨[], 0⟩⟩
  phase := .seating
  wire := []
  given := []
  got := []
  taken := []
  lost := false
  owned := []
  released := []

/-- The references the stream holds. -/
def refs (s : Feed) : List PostId := s.events.refs ++ s.phase.refs

/-- The references it came by. -/
def gained (s : Feed) : List PostId := s.given ++ s.taken.map (·.2) ++ s.owned

/-- Others let go only of what is theirs. -/
def mayRelease (s : Feed) : Act → Bool
  | .release k =>
    match s.floor.held[k]? with
    | none => true
    | some p => decide (s.refs.count p < s.floor.held.count p)
  | _ => true

def other (s : Feed) (a : Act) : Feed :=
  if a.isOf s.c || !s.mayRelease a then s
  else
    match s.floor.comes s.c a with
    | none => { s with floor := s.floor.act a }
    | some (room, p, full) =>
      { s with floor := s.floor.act a, got := s.got ++ [(room, p)], lost := s.lost || full }

/-- `seatIn`, for a client that comes back. -/
def sit (s : Feed) (room : Nat) (lastId : Bytes) (into : Nat) : Feed :=
  let f := s.floor.sitAfter s.c room true lastId into
  if s.phase ≠ .seating ∨ f = s.floor then s
  else
    let posts := f.held.take (f.held.length - s.floor.held.length)
    { s with
      floor := f
      events := { s.events with replays := s.events.replays ++ [posts] }
      given := s.given ++ posts }

def rung (s : Feed) : Bool :=
  match s.floor.conns[s.c]? with
  | none => false
  | some conn => conn.rung

/-- The top of `step`. -/
def call (s : Feed) : Feed :=
  match s.phase with
  | .idle _ =>
    let s' := { s with floor := s.floor.look s.c }
    if s.rung = false ∧ s.events.held = none then { s' with phase := .idle (some .drained) }
    else { s' with phase := .finish }
  | _ => s

/-- An event that is written, and its reference let go. -/
def release (s : Feed) (item : Held) : Feed :=
  match item with
  | .retry _ => s
  | .post p => { s with floor := s.floor.letGo p, released := s.released ++ [p] }

/-- The held event is written, as far as it goes; `next` is where `step` goes on then. -/
def writeHeld (s : Feed) (item : Held) (t : Turn) (next : Phase) : Feed :=
  let out := write (item.text s.floor.heap) s.events.left t
  let s := { s with events := { s.events with left := out.2.1 }, wire := s.wire ++ out.2.2 }
  match out.1 with
  | .failed => { s with phase := .failed }
  | .part => { s with phase := .idle (some .blocked) }
  | .whole => release { s with events := { s.events with held := none }, phase := next } item

/-- One event for `deliverSeats`: kept by a reference of its own if only some of it went. -/
def writeTaken (s : Feed) (seating : Seating) (p : PostId) (t : Turn) : Feed :=
  let out := write ((Held.post p).text s.floor.heap) s.events.left t
  let s := { s with events := { s.events with left := out.2.1 }, wire := s.wire ++ out.2.2 }
  match out.1 with
  | .failed => release { s with phase := .failed } (.post p)
  | .part =>
    release { s with
      floor := s.floor.addRef p
      owned := s.owned ++ [p]
      events := { s.events with held := some (.post p) }
      phase := .idle (some .blocked) } (.post p)
  | .whole => release { s with phase := .walk seating } (.post p)

def go (s : Feed) (t : Turn) : Feed :=
  match s.phase with
  | .finish =>
    match s.events.held with
    | none => { s with phase := .owed }
    | some item => s.writeHeld item t .owed
  | .owed =>
    match s.events.nextOwed with
    | none =>
      match s.floor.conns[s.c]? with
      | none => s
      | some conn => { s with phase := .walk conn.first }
    | some (item, events) =>
      writeHeld { s with events := { events with held := some item } } item t .owed
  | .walk seating =>
    match seating.room with
    | none => { s with phase := .idle (some .drained) }
    | some room =>
      match s.floor.takeAt room seating.ticket with
      | none => { s with phase := .walk (after s.floor.rooms room seating.ticket) }
      | some (p, f) =>
        { s with
          floor := f
          phase := .took seating p
          taken := s.taken ++ [(room, p)] }
  | .took seating p => s.writeTaken seating p t
  | .leaving =>
    match s.floor.conns[s.c]? with
    | none => s
    | some conn =>
      if conn.leaving ≠ none then { s with floor := s.floor.giveUp s.c }
      else
        match conn.first.room with
        | some room => { s with floor := s.floor.unlink s.c room }
        | none => { s with phase := .letGoHeld }
  | .letGoHeld =>
    let s' := { s with
      events := { s.events with held := none, left := ⟨[], 0⟩ }, phase := .letGoReplays }
    match s.events.held with
    | none => s'
    | some item => s'.release item
  | .letGoReplays =>
    match nextReplay s.events.replays with
    | none => { s with phase := .gone }
    | some (p, replays) => release { s with events := { s.events with replays := replays } } (.post p)
  | _ => s

/-- `leave`: never while `step` runs. -/
def leave (s : Feed) : Feed :=
  match s.phase with
  | .seating | .idle _ | .failed => { s with phase := .leaving }
  | _ => s

def step (s : Feed) : Ev → Feed
  | .other a => s.other a
  | .sit room lastId into => s.sit room lastId into
  | .handOver => if s.phase = .seating then { s with phase := .idle none } else s
  | .call => s.call
  | .go t => s.go t
  | .leave => s.leave

def run (s : Feed) (evs : List Ev) : Feed := evs.foldl step s

end Feed

end Nilo.Rooms
