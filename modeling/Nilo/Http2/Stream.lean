import Nilo.Http2.Inbound
import Nilo.Http2.Outbound
import Nilo.Http2.Request
import Nilo.Http2.Shared

/-!
# One call, from its HEADERS frame to the last frame of its answer

The `Stream` of `http/h2conn.zig`, with what its call can do to it while it runs
(`CallOp`): everything a call touches is its own stream, so each of those is one
step of the call's fiber. Left out are the fields no modelled function reads: the
arena and the allocators, the lease of a static directory, and the flags a
handler asks whether its client has gone.
-/

namespace Nilo.Http2

/-- `running` is a call whose fiber has been given it, until its answer is handed back and
`writing` starts. -/
inductive Phase where
  | headers | running | writing
deriving DecidableEq, Repr

/-- An event stream handed to the connection: when it next owes a comment. -/
structure EventSource where
  keepaliveMs : Nat := 0
  dueNs : Nat := 0
deriving DecidableEq, Repr

structure Stream where
  ref : Ref
  id : StreamId := 0
  phase : Phase := .headers
  /-- The header block as it arrives, then the fields it decodes to. -/
  block : Bytes := []
  fields : List Field := []
  headersOverLimit : Bool := false
  endsWithHeaders : Bool := false
  /-- The HEADERS frame that is arriving is the client's trailers. -/
  trailing : Bool := false
  /-- The client has more to send: no END_STREAM yet, and no reset. -/
  isOpen : Bool := true
  inbox : Inbox := {}
  /-- Every byte of DATA so far, and what the client said it would be. -/
  received : Nat := 0
  announced : Option Nat := none
  /-- Bytes past the limit were dropped while the stream was collecting. -/
  overLimit : Bool := false
  collecting : Bool := false
  piped : Bool := false
  deferred : Bool := false
  inlineOk : Bool := false
  /-- Held for the connection's fiber to run when its stream ends. -/
  holding : Bool := false
  cancel : Bool := false
  grpc : Bool := false
  selfDependent : Bool := false
  limit : Nat := 0
  headersNs : Nat := 0
  untilNs : Nat := 0
  collectUntilNs : Nat := 0
  /-- Bytes the stream may be given window for, since its window was last topped up. -/
  unacked : Nat := 0
  /-- Bytes counted in the connection's `collected`. -/
  held : Nat := 0
  /-- Its window is owed a top-up the connection's budget held back. -/
  starved : Bool := false
  recvWindow : Int := defaultWindow
  sendWindow : Int := 0
  reset : Bool := false
  out : Option Outbox := none
  stuckSince : Nat := 0
  events : Option EventSource := none
  evSeen : Bool := false
  evHead : Bool := false
  evBlocked : Bool := false
  evFailed : Bool := false
  -- The answer, filled by the call's fiber.
  headBlock : Bytes := []
  data : Bytes := []
  trailers : Bytes := []
  trailersOnly : Bool := false
  noTrailers : Bool := false
  headSent : Bool := false
  dataSent : Nat := 0
  /-- History: bytes of the DATA frame being read that are in no account yet. -/
  taking : Nat := 0
  /-- History: bytes were read out of the pipe after the body had been asked for whole. -/
  mixed : Bool := false
deriving DecidableEq, Repr

namespace Stream

/-- Still being sent, and held for `Inbox.whole`. -/
def arriving (s : Stream) : Bool := s.phase != .headers && s.isOpen && s.collecting

/-- A streamed answer whose last frame is already written. -/
def answerEnded (s : Stream) : Bool :=
  match s.out with
  | none => false
  | some o => o.done

/-- The call has begun its answer through its pipe. -/
def answerStarted (s : Stream) : Bool :=
  match s.out with
  | none => false
  | some o => o.opened

def field (s : Stream) (name : Bytes) : Option Bytes := fieldOf s.fields name

/-- The pipe of its answer, if it has one, told that nothing more is written. -/
def failOut (s : Stream) (why : OutFailure) : Stream :=
  { s with out := s.out.map (·.fail why) }

end Stream

/-- A whole answer as the call's fiber leaves it. -/
structure Answer where
  headBlock : Bytes := []
  data : Bytes := []
  trailers : Bytes := []
  trailersOnly : Bool := false
  noTrailers : Bool := false
deriving DecidableEq, Repr

def Stream.answered (s : Stream) (a : Answer) : Stream :=
  { s with
    headBlock := a.headBlock, data := a.data, trailers := a.trailers,
    trailersOnly := a.trailersOnly, noTrailers := a.noTrailers }

/-- What a call does to its stream while it runs. -/
inductive CallOp where
  | pull (n : Nat)
  | whole
  | askContinue
  | reserve (n : Nat)
  | reserved
  | timedOut (why : Failure)
  /-- The read said the stream is gone: nobody is left to answer (`readMessage`). -/
  | giveUp
  /-- The client was too slow: the call is cancelled and not answered (`readMessage`). -/
  | cancel
  | openOut (head : Bytes) (headOnly : Bool)
  | lend (piece : Bytes)
  | finishOut (trailers : Bytes)
  | handOver (keepaliveMs : Nat)
deriving DecidableEq, Repr

/-- The stream after a step of its call, and whether the connection is poked. -/
def CallOp.run (dead : Bool) (s : Stream) : CallOp → Stream × Bool
  | .pull n =>
    let r := s.inbox.pull n
    ({ s with inbox := r.1, mixed := s.mixed || s.inbox.collecting }, r.2)
  | .whole => let r := s.inbox.whole; ({ s with inbox := r.1 }, r.2)
  | .askContinue => let r := s.inbox.askContinue; ({ s with inbox := r.1 }, r.2)
  | .reserve n => let r := s.inbox.reserve n; ({ s with inbox := r.1 }, r.2)
  | .reserved => ({ s with inbox := s.inbox.reserved }, false)
  | .timedOut why => ({ s with inbox := s.inbox.timedOut why }, false)
  | .giveUp => ({ s with reset := true }, false)
  | .cancel => ({ s with cancel := true }, false)
  | .openOut head headOnly =>
    if s.grpc || s.out.isSome then (s, false)
    else ({ s with out := some (Outbox.open_ head headOnly dead) }, true)
  | .lend piece =>
    ({ s with out := s.out.map fun o => o.lend piece s.inbox.canPark dead }, s.out.isSome)
  | .finishOut trailers =>
    ({ s with out := s.out.map fun o => o.finish trailers dead }, s.out.isSome)
  | .handOver keepaliveMs =>
    if s.out.isNone then (s, false)
    else
      ({ s with
        events := some { keepaliveMs }
        out := s.out.map (·.handedOver) }, true)

end Nilo.Http2
