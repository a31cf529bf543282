import Nilo.Room.Room

/-!
# Rooms and the connections in them

Any number of rooms, connections and speakers. What a function of the source does under one lock
is one step, and so is what it does between two locks, so a run is any interleaving of `sitAfter`,
`stand`, `say`, `event`, `take`, `release` and `forget` at the granularity of the rosters' and the
seats' locks. A broadcast takes the roster's lock (`handOut`), puts the post into the seats of the
roll's taken half one after another (`put`), and keeps it and lets the lock go (`close`). A step
whose lock is not free waits: it does nothing. A wait for a lock may be cancelled.
-/

namespace Nilo.Rooms

open Text (Bytes)

structure Conn where
  /-- The first room it sits in. -/
  first : Seating
  /-- The seat it has taken out of its chain and not given up yet. -/
  leaving : Option (Nat × Ticket)
  /-- Its bell was rung and it has not looked since. -/
  rung : Bool
deriving DecidableEq, Repr

structure Floor where
  rooms : List Room
  conns : List Conn
  heap : Heap
  /-- The posts made and not handed out yet, each with its room. -/
  waiting : List (Nat × PostId)
  /-- The references callers hold besides: of a speaker that is done, of a connection that took
  a post or was given the kept ones. -/
  held : List PostId
deriving DecidableEq, Repr

inductive Act where
  | sitAfter (c room : Nat) (textOnly : Bool) (lastId : Bytes) (into : Nat)
  | unlink (c room : Nat)
  | giveUp (c : Nat)
  | say (room : Nat) (kind : Kind) (data : Bytes)
  | event (room : Nat) (name id data : Bytes)
  | handOut (k : Nat)
  | cancel (k : Nat)
  | put (room : Nat) (canceled : Bool)
  | close (room : Nat)
  | take (c room : Nat) (canceled : Bool)
  | release (k : Nat)
  | forget (room : Nat)
  | look (c : Nat)
deriving DecidableEq, Repr

namespace Floor

def start (rooms : List Options) (conns : Nat) : Floor where
  rooms := rooms.map initWith
  conns := List.replicate conns ⟨.nowhere, none, false⟩
  heap := []
  waiting := []
  held := []

/-- A chain visits a room once, so it is no longer than there are rooms. -/
def fuel (f : Floor) : Nat := f.rooms.length + 1

/-- `sitAfter` under the roster's lock, for a connection with no seat in the room. -/
def sit (f : Floor) (c room : Nat) (conn : Conn) (r : Room) (textOnly : Bool) (lastId : Bytes)
    (into : Nat) : Floor :=
  match r.takeSeat with
  | none => f
  | some (ticket, r) =>
    let r := { r with seats := r.seats.modify ticket.index fun seat =>
      { seat with waker := some c, textOnly := textOnly, next := conn.first } }
    let out := r.keptAfter f.heap lastId into
    { f with
      rooms := f.rooms.set room r
      conns := f.conns.set c { conn with first := ⟨some room, ticket⟩ }
      heap := out.1
      held := out.2 ++ f.held }

def sitAfter (f : Floor) (c room : Nat) (textOnly : Bool) (lastId : Bytes) (into : Nat) : Floor :=
  match f.conns[c]?, f.rooms[room]? with
  | some conn, some r =>
    if conn.leaving ≠ none then f
    else if (find f.rooms room f.fuel conn.first).isSome then f
    else if r.roster ≠ none then f
    else f.sit c room conn r textOnly lastId into
  | _, _ => f

/-- The first half of `stand`, on the connection's own chain. -/
def unlink (f : Floor) (c room : Nat) : Floor :=
  match f.conns[c]? with
  | none => f
  | some conn =>
    if conn.leaving ≠ none then f
    else
      match Rooms.unlink f.rooms room f.fuel conn.first with
      | none => f
      | some (ticket, first, rooms) =>
        let conn := { conn with first := first, leaving := some (room, ticket) }
        { f with rooms := rooms, conns := f.conns.set c conn }

/-- The second, under the roster's lock. -/
def giveUp (f : Floor) (c : Nat) : Floor :=
  match f.conns[c]? with
  | none => f
  | some conn =>
    match conn.leaving with
    | none => f
    | some (room, ticket) =>
      match f.rooms[room]? with
      | none => f
      | some r =>
        if r.roster ≠ none then f
        else
          let out := r.giveUp f.heap ticket
          { f with
            rooms := f.rooms.set room out.2
            heap := out.1
            conns := f.conns.set c { conn with leaving := none } }

/-- A post is made unless nobody would get it. -/
def reserve (f : Floor) (room : Nat) (post : Post) : Floor :=
  match f.rooms[room]? with
  | none => f
  | some r =>
    if r.empty then f
    else { f with heap := f.heap.alloc post, waiting := f.waiting ++ [(room, f.heap.length)] }

def hasBreak (text : Bytes) : Bool := text.any fun ch => ch == 13 || ch == 10

def event (f : Floor) (room : Nat) (name id data : Bytes) : Floor :=
  if hasBreak name || hasBreak id then f else f.reserve room ⟨.text, name, id, data⟩

/-- The roster's lock is taken for a post. -/
def handOut (f : Floor) (k : Nat) : Floor :=
  match f.waiting[k]? with
  | none => f
  | some (room, p) =>
    match f.rooms[room]? with
    | none => f
    | some r =>
      if r.roster ≠ none then f
      else
        { f with
          rooms := f.rooms.set room { r with roster := some (p, 0) }
          waiting := f.waiting.eraseIdx k }

/-- The wait for the roster's lock is cancelled. -/
def cancel (f : Floor) (k : Nat) : Floor :=
  match f.waiting[k]? with
  | none => f
  | some (_, p) => { f with waiting := f.waiting.eraseIdx k, held := p :: f.held }

def ring (f : Floor) (waker : Option Nat) : Floor :=
  match waker with
  | none => f
  | some c => { f with conns := f.conns.modify c fun conn => { conn with rung := true } }

/-- The bell `put` rings, if it rings one. -/
def bell (f : Floor) (r : Room) (index : Nat) (p : PostId) : Option Nat :=
  match r.seats[index]? with
  | none => none
  | some seat => if seat.rings f.heap r.backlog r.full p then seat.waker else none

/-- The post under way goes to the next seat of the roll's taken half. -/
def put (f : Floor) (room : Nat) (canceled : Bool) : Floor :=
  match f.rooms[room]? with
  | none => f
  | some r =>
    match r.roster with
    | none => f
    | some (p, place) =>
      if place < r.here then
        match r.roll[place]? with
        | none => f
        | some index =>
          if canceled then
            { f with rooms := f.rooms.set room { r with roster := some (p, place + 1) } }
          else
            let out := r.putAt f.heap index p
            let rooms := f.rooms.set room { out.2 with roster := some (p, place + 1) }
            ring { f with rooms := rooms, heap := out.1 } (f.bell r index p)
      else f

/-- It has been to every seat: it is kept, and the lock let go. -/
def close (f : Floor) (room : Nat) : Floor :=
  match f.rooms[room]? with
  | none => f
  | some r =>
    match r.roster with
    | none => f
    | some (p, place) =>
      if place < r.here then f
      else
        let out := if r.kept.slots.length ≠ 0 ∧ f.heap.kind p = .text then r.keep f.heap p
          else (f.heap, r)
        { f with
          rooms := f.rooms.set room { out.2 with roster := none }
          heap := out.1
          held := p :: f.held }

/-- The next post waiting for a connection in a room it sits in, and the room without it. -/
def next (f : Floor) (c room : Nat) : Option (PostId × Room) :=
  match f.conns[c]? with
  | none => none
  | some conn =>
    if conn.leaving ≠ none then none
    else
      match find f.rooms room f.fuel conn.first, f.rooms[room]? with
      | some ticket, some r => r.take ticket
      | _, _ => none

def take (f : Floor) (c room : Nat) (canceled : Bool) : Floor :=
  if canceled then f
  else
    match f.next c room with
    | none => f
    | some (p, r) => { f with rooms := f.rooms.set room r, held := p :: f.held }

def release (f : Floor) (k : Nat) : Floor :=
  match f.held[k]? with
  | none => f
  | some p => { f with heap := f.heap.release p, held := f.held.eraseIdx k }

def forget (f : Floor) (room : Nat) : Floor :=
  match f.rooms[room]? with
  | none => f
  | some r =>
    if r.roster ≠ none then f
    else
      let out := r.forget f.heap
      { f with rooms := f.rooms.set room out.2, heap := out.1 }

/-- The connection looks: its bell is quiet again. -/
def look (f : Floor) (c : Nat) : Floor :=
  { f with conns := f.conns.modify c fun conn => { conn with rung := false } }

def act (f : Floor) : Act → Floor
  | .sitAfter c room textOnly lastId into => f.sitAfter c room textOnly lastId into
  | .unlink c room => f.unlink c room
  | .giveUp c => f.giveUp c
  | .say room kind data => f.reserve room ⟨kind, [], [], data⟩
  | .event room name id data => f.event room name id data
  | .handOut k => f.handOut k
  | .cancel k => f.cancel k
  | .put room canceled => f.put room canceled
  | .close room => f.close room
  | .take c room canceled => f.take c room canceled
  | .release k => f.release k
  | .forget room => f.forget room
  | .look c => f.look c

def run (f : Floor) (acts : List Act) : Floor := acts.foldl act f

end Floor

end Nilo.Rooms
