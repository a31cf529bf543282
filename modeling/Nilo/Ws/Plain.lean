import Nilo.Ws.Socket

/-!
# The plain reassembly of a stream

What the bytes of a peer come to, without reads, buffers or waits: the frames they are cut into, each
with its payload, and the messages, pongs and close frames that the frames make.
-/

namespace Nilo.Ws

open Text (Bytes)

/-! ## The frames of a stream -/

/-- A frame with its payload unmasked; none where the stream ends within it. -/
structure Framed where
  head : Frame
  payload : Option Bytes
deriving DecidableEq, Repr

/-- The payload behind a header. -/
def payloadOf (body : Bytes) (head : Frame) : Option Bytes :=
  if body.length < head.len then none
  else some (unmaskInto (body.take head.len) head.mask 0)

/-- The frames, and what is left of a stream that ends within a header. -/
def framesWithin : Nat → Bytes → List Framed × Bytes
  | 0, b => ([], b)
  | n + 1, b =>
    match headerFrom b with
    | none => ([], b)
    | some head =>
      let body := b.drop head.size
      let (more, tail) := framesWithin n (body.drop head.len)
      (⟨head, payloadOf body head⟩ :: more, tail)

def framesOf (b : Bytes) : List Framed × Bytes := framesWithin b.length b

def closing (code : Close) : Sent := .frame .close (closePayload code [])

/-- What one frame does: something is sent, and a message goes on or the conversation is answered. -/
inductive Step where
  | more (kind : Option Kind) (filled : Bytes) (sent : List Sent)
  | done (a : Answer) (sent : List Sent)
deriving DecidableEq, Repr

def Step.failed (e : Error) (code : Close) : Step := .done (.halt (.failed e)) [closing code]

/-- A control frame, in the middle of a message or not: a ping is answered with its payload, a close
frame echoed. -/
def controlStep (kind : Option Kind) (filled : Bytes) (opcode : Opcode) (data : Bytes) : Step :=
  match opcode with
  | .ping => .more kind filled [.frame .pong data]
  | .pong => .more kind filled []
  | .close =>
    if closeIsWellFormed data then .done .over [.frame .close data]
    else .failed .protocolError .protocolError
  | _ => .failed .protocolError .protocolError

/-- A fragment more of a message; the last one ends it, and text has to be UTF-8. -/
def dataStep (kind : Kind) (filled : Bytes) (fin : Bool) (data : Bytes) : Step :=
  if !fin then .more (some kind) (filled ++ data) []
  else if kind = .text ∧ validText (filled ++ data) = false then
    .failed .protocolError .invalidPayload
  else .done (.message ⟨kind, filled ++ data⟩) []

def step (max : Nat) (kind : Option Kind) (filled : Bytes) (f : Framed) : Step :=
  if !f.head.wellFormed .client then .failed .protocolError .protocolError
  else if f.head.opcode.isControl then
    match f.payload with
    | none => .failed .readFailed .protocolError
    | some data => controlStep kind filled f.head.opcode data
  else if f.head.len > max - filled.length then .failed .messageTooBig .tooBig
  else
    match messageKind kind f.head.opcode, f.payload with
    | none, _ => .failed .protocolError .protocolError
    | some _, none => .failed .readFailed .protocolError
    | some kind, some data => dataStep kind filled f.head.fin data

def Answer.isMessage : Answer → Bool
  | .message _ => true
  | _ => false

end Nilo.Ws
