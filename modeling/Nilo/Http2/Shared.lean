import Mathlib.Data.List.Basic

/-!
# What the fibers share (`Shared` in `http/h2conn.zig`)

The queue of calls started and not yet taken by a fiber, the fibers spawned that
have not begun their first call (`fresh`), and the queue of answered calls. Every
function is one hold of the connection's lock. A call is the reference of its
stream; the intrusive lists of the source are lists.
-/

namespace Nilo.Http2

/-- The identity of a stream object: the pointer the source holds. -/
abbrev Ref := Nat

structure Shared where
  /-- Answered calls, oldest first, not yet taken by the connection. -/
  answered : List Ref := []
  /-- Calls started and not yet taken by a fiber, oldest first. -/
  pending : List Ref := []
  /-- Fibers spawned that have not begun their first call. -/
  fresh : Nat := 0
  /-- Calls whose fiber has not handed them back yet. -/
  running : Nat := 0
  /-- Set once by the connection on its way out. -/
  closed : Bool := false
  /-- A call has told the connection something through its pipe. -/
  attention : Bool := false
  /-- Streams whose call has opened an outbound pipe and that are not let go of. -/
  streaming : Nat := 0
  /-- The connection will write nothing more. -/
  dead : Bool := false
deriving DecidableEq, Repr

namespace Shared

/-- A call has something to tell the connection, unless it has gone. -/
def poke (s : Shared) : Shared := if s.closed then s else { s with attention := true }

/-- A call is queued behind the ones before it. -/
def enqueue (s : Shared) (r : Ref) : Shared := { s with pending := s.pending ++ [r] }

/-- The oldest queued call, handed to a fiber about to be spawned for it, unless a fiber
that has not begun is there to take it. -/
def takeFirstIfNoneFresh (s : Shared) : Option Ref × Shared :=
  if s.fresh ≠ 0 then (none, s)
  else match s.pending with
    | [] => (none, s)
    | head :: rest => (some head, { s with pending := rest, fresh := s.fresh + 1 })

/-- The oldest queued call, taken for good. -/
def takeQueued (s : Shared) : Option Ref × Shared :=
  match s.pending with
  | [] => (none, s)
  | head :: rest => (some head, { s with pending := rest })

/-- A call's fiber, done: queued for the connection, or freed if there is none any more. -/
def finish (s : Shared) (r : Ref) : Shared :=
  { s with
    answered := if s.closed then s.answered else s.answered ++ [r]
    running := s.running - 1 }

/-- `finish`, and the call this fiber runs next: the oldest one queued, read in the same
hold of the lock. -/
def finishNext (s : Shared) (r : Ref) : Option Ref × Shared :=
  let (next, s) := s.takeQueued
  (next, s.finish r)

/-- The answered calls, taken by the connection. -/
def takeAll (s : Shared) : List Ref × Shared := (s.answered, { s with answered := [] })

/-- A fiber that was spawned begins its first call, or was never spawned after all. -/
def unfresh (s : Shared) : Shared := { s with fresh := s.fresh - 1 }

end Shared
end Nilo.Http2
