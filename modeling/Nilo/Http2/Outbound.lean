import Nilo.Http2.Frame

/-!
# The outbound pipe of a request (`http/outbound.zig`)

A handler that streams its answer never writes to the socket: it *lends* what it
has to the connection and waits until the connection has put it in its writer.
What is lent is the buffer of the stream and the slices handed past it; here it
is the bytes they make. Every function is one hold of the connection's
`Monitor`.
-/

namespace Nilo.Http2

/-- Why a lend ended without being written. -/
inductive OutFailure where
  | reset | slow | gone
deriving DecidableEq, Repr

structure Outbox where
  /-- The header block of the answer, and whether it ends the stream (a HEAD). -/
  head : Bytes := []
  headOnly : Bool := false
  opened : Bool := false
  headSent : Bool := false
  /-- What is lent, and how much of it the connection has written. -/
  lent : Bytes := []
  sent : Nat := 0
  pending : Bool := false
  /-- The last lend was written, as against failed. -/
  consumed : Bool := false
  /-- The body is over, with the trailers' header block when there are any. -/
  ending : Bool := false
  trailers : Bytes := []
  /-- The call returned leaving the body to the connection. -/
  handed : Bool := false
  /-- The end of the stream is written. -/
  done : Bool := false
  failure : Option OutFailure := none
deriving DecidableEq, Repr

namespace Outbox

/-! ## The call's side -/

/-- The connection has stopped writing for good: the pipe fails now. -/
def goneLocked (o : Outbox) (dead : Bool) : Outbox :=
  if dead then { o with failure := o.failure.or (some .gone), pending := false } else o

/-- Say what the answer's head is. -/
def open_ (head : Bytes) (headOnly dead : Bool) : Outbox :=
  { head, headOnly, opened := true : Outbox }.goneLocked dead

/-- Lend one piece. A call that cannot wait leaves everything it wrote, in order, for
the connection to write when it has returned. -/
def lend (o : Outbox) (piece : Bytes) (canPark dead : Bool) : Outbox :=
  let o := o.goneLocked dead
  if o.failure.isSome then o
  else if canPark then { o with lent := piece, sent := 0, pending := true, consumed := false }
  else { o with lent := o.lent ++ piece, pending := true }

/-- End the body, with the trailers' header block when there are any. -/
def finish (o : Outbox) (trailers : Bytes) (dead : Bool) : Outbox :=
  let o := o.goneLocked dead
  if o.failure.isSome then o else { o with ending := true, trailers }

/-- The body is the connection's from here. -/
def handedOver (o : Outbox) : Outbox := { o with handed := true }

/-! ## The connection's side -/

/-- The call's pipe is over: failed, or its end written. -/
def isOver (o : Outbox) : Bool := o.failure.isSome || o.done

/-- The header block still to write, unless the body decides its flags. -/
def headToWrite (o : Outbox) : Option Bytes :=
  if o.opened && !o.headSent && !o.headOnly then some o.head else none

def headWritten (o : Outbox) : Outbox := { o with headSent := true }

/-- `sent` bytes of the lent piece are in the connection's writer. -/
def wrote (o : Outbox) (sent : Nat) (complete : Bool) : Outbox :=
  if complete then { o with sent, pending := false, consumed := true } else { o with sent }

def ended (o : Outbox) : Outbox := { o with done := true }

/-- Nothing more will be written. The first reason stands. -/
def fail (o : Outbox) (why : OutFailure) : Outbox :=
  { o with failure := o.failure.or (some why), pending := false }

/-- The call returned without ending its body or being failed. -/
def abandoned (o : Outbox) : Bool :=
  !o.pending && !o.ending && !o.done && !o.handed && o.failure.isNone

end Outbox
end Nilo.Http2
