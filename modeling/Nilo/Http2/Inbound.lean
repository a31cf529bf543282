import Nilo.Http2.Frame

/-!
# The inbound pipe of a request (`http/inbound.zig`)

What the client sends after its headers, from the connection's fiber to the
request's. The connection reads a stream's DATA into `buf`; the call reads it
out (`pull`), or asks for the body whole (`whole`), after which the stream is
*collecting* and nothing is read out of it any more. What the call has to tell
the connection waits in `freed`, `owed`, `cont` and `want` until the connection
takes it.

Every function here is one hold of the connection's `Monitor`, so each is one
step. The buffer is the unread bytes `buf[rd..len]`: where they lie in memory,
and how that memory grows, is not modelled. How long a wait lasts is the
environment's choice: a wait that ran out is the step `timedOut`.
-/

namespace Nilo.Http2

/-- Why a read ended without the body. -/
inductive Failure where
  | gone | slow | deadline | length
deriving DecidableEq, Repr

structure Inbox where
  /-- The bytes of the body not yet read. -/
  buf : Bytes := []
  /-- Every byte of DATA the stream has carried, dropped ones included. -/
  total : Nat := 0
  ended : Bool := false
  failure : Option Failure := none
  /-- Nothing reads the bytes out: they are held for `whole`. -/
  collecting : Bool := false
  /-- The most a collecting stream keeps unread. -/
  limit : Nat := 0
  /-- Bytes past `limit` were dropped. -/
  overLimit : Bool := false
  /-- Bytes a read took out of the buffer: memory the budget gets back. -/
  freed : Nat := 0
  /-- Bytes the client may be given window for. -/
  owed : Nat := 0
  /-- Bytes read since the connection was last told. -/
  since : Nat := 0
  cont : Bool := false
  contAsked : Bool := false
  /-- Room the call wants charged to the budget before it copies. -/
  want : Nat := 0
  granted : Bool := false
  /-- Whether a wait may park. -/
  canPark : Bool := true
deriving DecidableEq, Repr

/-- How many bytes a call reads before it tells the connection: a half window. -/
def creditEvery : Nat := defaultWindow / 2

namespace Inbox

/-! ## The connection's side -/

/-- Room for the next bytes of DATA: how many are kept and how many dropped. -/
structure Slot where
  keep : Nat
  drop : Nat
deriving DecidableEq, Repr

/-- Room for the next `n` bytes: a collecting stream keeps no more than its limit. -/
def begin (x : Inbox) (n : Nat) : Slot :=
  let keep := if x.collecting then min n (x.limit - x.buf.length) else n
  { keep, drop := n - keep }

/-- How many bytes stayed, and whether the stream is collecting *now*. -/
structure Committed where
  kept : Nat
  collecting : Bool
deriving DecidableEq, Repr

/-- How many of the bytes that were kept stay: a call that asked for the whole body
since `begin` made the stream collecting, and its limit then applies to them too. -/
def stays (x : Inbox) (kept : Nat) : Nat :=
  if x.collecting then min kept (x.limit - x.buf.length) else kept

/-- The bytes are in the buffer, and `dropped` more were thrown away. -/
def commit (x : Inbox) (kept : Bytes) (dropped : Nat) : Committed × Inbox :=
  let stays := x.stays kept.length
  let thrown := dropped + (kept.length - stays)
  ({ kept := stays, collecting := x.collecting },
    { x with
      buf := x.buf ++ kept.take stays
      total := x.total + (kept.length + dropped)
      overLimit := x.overLimit || decide (0 < thrown) })

/-- The client has sent everything. -/
def finish (x : Inbox) : Inbox := { x with ended := true }

/-- The body will not be completed. The first reason stands. -/
def fail (x : Inbox) (why : Failure) : Inbox :=
  { x with failure := x.failure.or (some why) }

/-- The room the call is waiting to be given, or 0. -/
def wanted (x : Inbox) : Nat :=
  if x.granted || x.failure.isSome then 0 else x.want

/-- What the call has told the connection since it last asked. -/
structure Taken where
  freed : Nat
  owed : Nat
  cont : Bool
  want : Nat
  collecting : Bool
deriving DecidableEq, Repr

def take (x : Inbox) : Taken × Inbox :=
  ({ freed := x.freed, owed := x.owed, cont := x.cont, want := x.wanted,
     collecting := x.collecting },
    { x with freed := 0, owed := 0, cont := false, since := 0 })

/-- Say the room is the call's. False when it has stopped waiting. -/
def grant (x : Inbox) (n : Nat) : Bool × Inbox :=
  if x.granted || x.want != n || x.failure.isSome then (false, x)
  else (true, { x with granted := true })

/-! ## The call's side: the pipe after the step, and whether the connection is poked -/

/-- Ask for `100 Continue`, unless the body has started to arrive. -/
def askContinue (x : Inbox) : Inbox × Bool :=
  if x.contAsked || x.ended || decide (0 < x.total) then (x, false)
  else ({ x with contAsked := true, cont := true }, true)

/-- From here on the window is given back as bytes arrive; what arrived while nothing
was reading is owed at once. -/
def whole (x : Inbox) : Inbox × Bool :=
  if x.collecting then (x, false)
  else ({ x with collecting := true, owed := x.owed + x.buf.length }, true)

/-- What `whole` hands the call once it need not wait: the bytes as they lie, or why not. -/
inductive Whole where
  | wait
  | body (b : Bytes)
  | bodyTooLarge | bodyTooSlow | endOfStream
deriving DecidableEq, Repr

/-- A message that arrived whole is the call's even if the stream was reset after. -/
def wholeResult (x : Inbox) (max : Nat) : Whole :=
  if x.ended && (x.failure == none || x.failure == some .gone) then
    if x.overLimit || decide (max < x.buf.length) then .bodyTooLarge else .body x.buf
  else match x.failure with
    | some .slow | some .deadline => .bodyTooSlow
    | some .gone | some .length => .endOfStream
    | none => if x.overLimit || decide (max < x.buf.length) then .bodyTooLarge else .wait

/-- Wait for room the budget has to be told about: `n` bytes, before the copy is made. -/
def reserve (x : Inbox) (n : Nat) : Inbox × Bool :=
  if !x.canPark then (x, false)
  else ({ x with want := n, granted := false }, true)

/-- The wait of `reserve` is over: the room was given, or it failed. -/
def reserved (x : Inbox) : Inbox := { x with want := 0 }

/-- `n` bytes were read out: the budget's memory and the client's window again, said to
the connection once a half window of them has been. -/
def released (x : Inbox) (n : Nat) : Inbox × Bool :=
  let y := { x with freed := x.freed + n, owed := x.owed + n, since := x.since + n }
  if creditEvery ≤ y.since then ({ y with since := 0 }, true) else (y, false)

/-- Copy out what is buffered, at most `n` bytes; an empty buffer or a failed pipe gives none. -/
def pull (x : Inbox) (n : Nat) : Inbox × Bool :=
  if x.failure.isSome && !(x.ended && x.failure == some .gone) then (x, false)
  else if x.buf = [] then (x, false)
  else
    let m := min x.buf.length n
    { x with buf := x.buf.drop m }.released m

/-- A wait whose bound passed, or with nothing to park on. -/
def timedOut (x : Inbox) (why : Failure) : Inbox := x.fail why

end Inbox
end Nilo.Http2
