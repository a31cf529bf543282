import Nilo.Lib.Ring
import Nilo.Std.Text

/-!
# A room (`http/room.zig`)

Posts live in one heap, each with the number of those that hold it, and are named by their place
there. A room is an array of seats, the roll that keeps the taken ones in front, and a ring of
kept posts; a seat is a ring of posts waiting for the connection that sits in it, and the next
room that connection sits in. Every function here is what the source does under one lock, or
with no lock at all.
-/

namespace Nilo.Rooms

open Lib (RingBuf)
open Text (Bytes)

/-! ## Posts -/

inductive Kind where
  | text
  | binary
deriving DecidableEq, Repr

/-- What happens to a post for a connection whose backlog is full. -/
inductive Full where
  | dropOldest
  | dropNewest
deriving DecidableEq, Repr

structure Post where
  kind : Kind
  name : Bytes
  id : Bytes
  data : Bytes
deriving DecidableEq, Repr

/-- `@sizeOf(Post)`: a `usize`, three `u32` and two bytes. -/
def sizeOfPost : Nat := 24

/-- How long the frame header in front of a message is. -/
def headerLen (len : Nat) : Nat := if len < 126 then 2 else if len ≤ 65535 then 4 else 10

/-- `block().len`: the post, its header and its bytes in one allocation. -/
def Post.size (p : Post) : Nat :=
  sizeOfPost + headerLen p.data.length + p.data.length + p.name.length + p.id.length

/-- A post where it lives: its references, and how many times its block was freed. -/
structure Cell where
  post : Post
  refs : Nat
  freed : Nat
deriving DecidableEq, Repr

abbrev PostId := Nat

abbrev Heap := List Cell

namespace Heap

/-- `reserve`: a new post with its maker's reference. -/
def alloc (h : Heap) (p : Post) : Heap := h ++ [⟨p, 1, 0⟩]

def addRef (h : Heap) (p : PostId) : Heap :=
  match h[p]? with
  | none => h
  | some cell => h.set p { cell with refs := cell.refs + 1 }

/-- Let a reference go, and free the post if it was the last. -/
def release (h : Heap) (p : PostId) : Heap :=
  match h[p]? with
  | none => h
  | some cell =>
    h.set p { cell with
      refs := cell.refs - 1
      freed := if cell.refs = 1 then cell.freed + 1 else cell.freed }

def refs (h : Heap) (p : PostId) : Nat :=
  match h[p]? with
  | none => 0
  | some cell => cell.refs

def size (h : Heap) (p : PostId) : Nat :=
  match h[p]? with
  | none => 0
  | some cell => cell.post.size

def id (h : Heap) (p : PostId) : Bytes :=
  match h[p]? with
  | none => []
  | some cell => cell.post.id

def kind (h : Heap) (p : PostId) : Kind :=
  match h[p]? with
  | none => .text
  | some cell => cell.post.kind

end Heap

/-! ## Seats and rooms -/

/-- Where a connection sits, and proof it is still the one sitting there. -/
structure Ticket where
  index : Nat
  era : Nat
deriving DecidableEq, Repr

/-- One room a connection sits in, and through that seat the next one. -/
structure Seating where
  room : Option Nat
  ticket : Ticket
deriving DecidableEq, Repr

def Seating.nowhere : Seating := ⟨none, ⟨0, 0⟩⟩

structure Seat where
  taken : Bool
  /-- A `u32` that goes around. -/
  era : Nat
  slot : Nat
  /-- The connection whose bell is in the seat. -/
  waker : Option Nat
  textOnly : Bool
  ring : RingBuf PostId
  dropped : Nat
  next : Seating
deriving DecidableEq, Repr

structure Room where
  seats : List Seat
  roll : List Nat
  backlog : Nat
  full : Full
  kept : RingBuf PostId
  keptBytes : Nat
  keptLimit : Nat
  here : Nat
  /-- The roster's lock while a broadcast holds it: the post, and the next place on the roll. -/
  roster : Option (PostId × Nat)
deriving DecidableEq, Repr

structure Options where
  seats : Nat
  backlog : Nat
  history : Nat
  historyBytes : Nat
  full : Full
deriving DecidableEq, Repr

def initWith (o : Options) : Room where
  seats := List.replicate o.seats ⟨false, 0, 0, none, false, .empty o.backlog, 0, .nowhere⟩
  roll := List.range o.seats
  backlog := o.backlog
  full := o.full
  kept := .empty o.history
  keptBytes := 0
  keptLimit := o.historyBytes
  here := 0
  roster := none

namespace Seat

/-- Put a post at the end of the seat's ring, with a reference of its own. -/
def queue (h : Heap) (seat : Seat) (p : PostId) : Heap × Seat :=
  (h.addRef p, { seat with ring := seat.ring.push p })

def miss (seat : Seat) : Seat := { seat with dropped := seat.dropped + 1 }

/-- `put`: push one post into one seat, applying the policy if it is full. -/
def put (h : Heap) (backlog : Nat) (full : Full) (seat : Seat) (p : PostId) : Heap × Seat :=
  if seat.textOnly = true ∧ h.kind p = .binary then (h, seat.miss)
  else if seat.ring.count = backlog then
    match full with
    | .dropNewest => (h, seat.miss)
    | .dropOldest =>
      match seat.ring.front with
      | none => (h, seat)
      | some old => queue (h.release old) { seat.miss with ring := seat.ring.pop } p
  else queue h seat p

/-- Whether `put` gets as far as the bell. -/
def rings (h : Heap) (backlog : Nat) (full : Full) (seat : Seat) (p : PostId) : Bool :=
  !(decide (seat.textOnly = true ∧ h.kind p = .binary)) &&
    !(decide (seat.ring.count = backlog ∧ full = .dropNewest))

/-- `drain`: release everything queued for a seat. -/
def drainGo : Nat → Heap → RingBuf PostId → Heap × RingBuf PostId
  | 0, h, ring => (h, ring)
  | n + 1, h, ring =>
    match ring.front with
    | none => (h, ring)
    | some p => drainGo n (h.release p) ring.pop

def drain (h : Heap) (seat : Seat) : Heap × Seat :=
  let (h, ring) := drainGo seat.ring.count h seat.ring
  (h, { seat with ring := ring })

end Seat

namespace Room

/-- `put` on the seat at `index`. -/
def putAt (h : Heap) (r : Room) (index : Nat) (p : PostId) : Heap × Room :=
  match r.seats[index]? with
  | none => (h, r)
  | some seat =>
    let (h, seat) := seat.put h r.backlog r.full p
    (h, { r with seats := r.seats.set index seat })

/-- `take`: the next post waiting for the seat a ticket is for. -/
def take (r : Room) (ticket : Ticket) : Option (PostId × Room) :=
  match r.seats[ticket.index]? with
  | none => none
  | some seat =>
    if seat.taken = false ∨ seat.era ≠ ticket.era then none
    else if seat.ring.count = 0 then none
    else
      match seat.ring.front with
      | none => none
      | some p =>
        some (p, { r with
          seats := r.seats.set ticket.index { seat with ring := seat.ring.pop } })

/-- `takeSeat`: the seat at the front of the roll's free half. -/
def takeSeat (r : Room) : Option (Ticket × Room) :=
  if r.here = r.seats.length then none
  else
    match r.roll[r.here]? with
    | none => none
    | some index =>
      match r.seats[index]? with
      | none => none
      | some seat =>
        let era := (seat.era + 1) % 2 ^ 32
        some (⟨index, era⟩, { r with
          seats := r.seats.set index { seat with
            taken := true, era := era, slot := r.here, dropped := 0, next := .nowhere }
          here := r.here + 1 })

/-- `giveUpSlot`: swap the seat with the last taken one, so the taken half stays dense. -/
def giveUpSlot (r : Room) (slot index : Nat) : Room :=
  let last := r.here - 1
  match r.roll[last]? with
  | none => r
  | some moved =>
    { r with
      roll := (r.roll.set last index).set slot moved
      seats := r.seats.modify moved fun seat => { seat with slot := slot }
      here := last }

/-- `giveUp`: what `stand` does under the roster's lock. -/
def giveUp (h : Heap) (r : Room) (ticket : Ticket) : Heap × Room :=
  match r.seats[ticket.index]? with
  | none => (h, r)
  | some seat =>
    if seat.taken = false ∨ seat.era ≠ ticket.era then (h, r)
    else
      let (h, seat) := seat.drain h
      let seat := { seat with taken := false, waker := none }
      (h, giveUpSlot { r with seats := r.seats.set ticket.index seat } seat.slot ticket.index)

/-! ## The kept posts -/

def forgetOldest (h : Heap) (r : Room) : Heap × Room :=
  match r.kept.front with
  | none => (h, r)
  | some old =>
    (h.release old, { r with kept := r.kept.pop, keptBytes := r.keptBytes - h.size old })

/-- `while (self.kept_count > 0) self.forgetOldest()`. -/
def forgetGo : Nat → Heap → Room → Heap × Room
  | 0, h, r => (h, r)
  | n + 1, h, r =>
    let (h, r) := forgetOldest h r
    forgetGo n h r

/-- `forget`: throw away every kept post. -/
def forget (h : Heap) (r : Room) : Heap × Room := forgetGo r.kept.count h r

/-- `while (self.kept_bytes > self.kept_limit) self.forgetOldest()`, which ends with the last
kept post. -/
def trimGo : Nat → Heap → Room → Heap × Room
  | 0, h, r => (h, r)
  | n + 1, h, r =>
    if r.keptBytes > r.keptLimit then
      let (h, r) := forgetOldest h r
      trimGo n h r
    else (h, r)

/-- `keep`: hold on to one more post, letting the oldest go past either bound. -/
def keep (h : Heap) (r : Room) (p : PostId) : Heap × Room :=
  if h.size p > r.keptLimit then (h, r)
  else
    let h := h.addRef p
    let (h, r) := if r.kept.count = r.kept.slots.length then forgetOldest h r else (h, r)
    let r := { r with kept := r.kept.push p, keptBytes := r.keptBytes + h.size p }
    trimGo r.kept.count h r

/-- The newest of the first `n` kept posts whose id is `lastId`, by its place. -/
def findKept (h : Heap) (r : Room) (lastId : Bytes) : Nat → Option Nat
  | 0 => none
  | n + 1 =>
    match r.kept.get n with
    | none => none
    | some p => if h.id p = lastId then some n else findKept h r lastId n

/-- `keptAfter`: the kept posts after it, as many as fit, each with a reference. -/
def keptAfter (h : Heap) (r : Room) (lastId : Bytes) (into : Nat) : Heap × List PostId :=
  if lastId = [] ∨ r.kept.count = 0 then (h, [])
  else
    match findKept h r lastId r.kept.count with
    | none => (h, [])
    | some found =>
      let posts := (((List.range r.kept.count).drop (found + 1)).take into).filterMap r.kept.get
      (posts.foldl Heap.addRef h, posts)

/-- Nobody here, and nothing kept for anybody. -/
def empty (r : Room) : Bool := decide (r.here = 0 ∧ r.kept.slots.length = 0)

end Room

/-! ## A connection's rooms -/

/-- `after`: the room the connection in this seat sits in after this one. -/
def after (rooms : List Room) (room : Nat) (ticket : Ticket) : Seating :=
  match rooms[room]? with
  | none => .nowhere
  | some r =>
    match r.seats[ticket.index]? with
    | none => .nowhere
    | some seat => seat.next

/-- Change the `next` of one seat. -/
def relink (rooms : List Room) (room : Nat) (ticket : Ticket) (next : Seating) : List Room :=
  rooms.modify room fun r =>
    { r with seats := r.seats.modify ticket.index fun seat => { seat with next := next } }

/-- `find`: this room's seat in a connection's chain. -/
def find (rooms : List Room) (self : Nat) : Nat → Seating → Option Ticket
  | 0, _ => none
  | n + 1, seating =>
    match seating.room with
    | none => none
    | some inRoom =>
      if inRoom = self then some seating.ticket
      else find rooms self n (after rooms inRoom seating.ticket)

/-- `unlink`: take this room's seat out of a connection's chain. The seating is what the holder
(the connection, or the seat before) holds; it is given back as the holder holds it then. -/
def unlink (rooms : List Room) (self : Nat) : Nat → Seating → Option (Ticket × Seating × List Room)
  | 0, _ => none
  | n + 1, seating =>
    match seating.room with
    | none => none
    | some inRoom =>
      let next := after rooms inRoom seating.ticket
      if inRoom = self then
        some (seating.ticket, next, relink rooms inRoom seating.ticket .nowhere)
      else
        match unlink rooms self n next with
        | none => none
        | some (ticket, next, rooms) =>
          some (ticket, seating, relink rooms inRoom seating.ticket next)

end Nilo.Rooms
