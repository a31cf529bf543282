import Mathlib.Data.List.Basic

/-!
# HTTP/2 frames (`http/h2.zig`)

The vocabulary of the wire and nothing else: what a frame is, what its types,
flags, settings and error codes are called, and the frames this side writes.
A frame that is received keeps its payload as bytes, because what the
connection does with it is decided by reading them; a frame that is written is
the call of the `write…` function that wrote it.
-/

namespace Nilo.Http2

abbrev Bytes := List UInt8

/-- A stream identifier, `u31` on the wire. -/
abbrev StreamId := Nat

inductive FrameType where
  | data | headers | priority | rstStream | settings | pushPromise | ping | goaway
  | windowUpdate | continuation
  | unknown (code : Nat)
deriving DecidableEq, Repr

namespace Flags

def endStream : UInt8 := 0x1
def ack : UInt8 := 0x1
def endHeaders : UInt8 := 0x4
def padded : UInt8 := 0x8
def priority : UInt8 := 0x20

end Flags

/-- §7: a connection error goes out in a GOAWAY, a stream error in a RST_STREAM. -/
inductive ErrorCode where
  | noError | protocolError | internalError | flowControlError | streamClosed
  | frameSizeError | refusedStream | cancel | compressionError | enhanceYourCalm
deriving DecidableEq, Repr

inductive Setting where
  | headerTableSize | enablePush | maxConcurrentStreams | initialWindowSize
  | maxFrameSize | maxHeaderListSize
  | other (id : Nat)
deriving DecidableEq, Repr

/-- The setting a 16-bit identifier names. -/
def Setting.ofNat : Nat → Setting
  | 1 => .headerTableSize
  | 2 => .enablePush
  | 3 => .maxConcurrentStreams
  | 4 => .initialWindowSize
  | 5 => .maxFrameSize
  | 6 => .maxHeaderListSize
  | n => .other n

/-- The size every frame may be until the peer says more (§6.5.2), and the size
this side never raises. -/
def defaultMaxFrame : Nat := 16384

/-- The window every stream and the connection start with (§6.9.2). -/
def defaultWindow : Nat := 65535

/-- The largest a flow-control window may grow (§6.9.1). -/
def maxWindow : Nat := 2147483647

/-- A frame as it is received: `Header.parse` of its nine bytes, and what follows. -/
structure Frame where
  type : FrameType
  flags : UInt8
  stream : StreamId
  payload : Bytes
deriving DecidableEq, Repr

namespace Frame

def len (f : Frame) : Nat := f.payload.length

def has (f : Frame) (flag : UInt8) : Bool := f.flags &&& flag != 0

end Frame

/-- A big-endian number. -/
def readInt (b : Bytes) : Nat := b.foldl (fun n x => n * 256 + x.toNat) 0

/-- The frames this side writes, one constructor for each way of writing one. -/
inductive Sent where
  | settings
  | settingsAck
  | pingAck (data : Bytes)
  | windowUpdate (stream : StreamId) (increment : Nat)
  | rstStream (stream : StreamId) (code : ErrorCode)
  | goaway (lastStream : StreamId) (code : ErrorCode)
  | headers (stream : StreamId) (fragment : Bytes) (endStream endHeaders : Bool)
  | continuation (stream : StreamId) (fragment : Bytes) (endHeaders : Bool)
  | data (stream : StreamId) (payload : Bytes) (endStream : Bool)
deriving DecidableEq, Repr

namespace Sent

/-- The payload length in the frame's header. -/
def len : Sent → Nat
  | settings => 4 * 6
  | settingsAck => 0
  | pingAck d => d.length
  | windowUpdate _ _ => 4
  | rstStream _ _ => 4
  | goaway _ _ => 8
  | headers _ b _ _ => b.length
  | continuation _ b _ => b.length
  | data _ b _ => b.length

/-- The DATA bytes a frame carries for a stream. -/
def dataOn (id : StreamId) : Sent → Nat
  | data s b _ => if s = id then b.length else 0
  | _ => 0

/-- The DATA bytes a frame carries, whichever stream they are for. -/
def dataLen : Sent → Nat
  | data _ b _ => b.length
  | _ => 0

end Sent

/-- The frames of a header block after its first: as many CONTINUATION frames as
`maxFrame` makes of it (§6.10). -/
def continuationFrames (stream : StreamId) (maxFrame : Nat) : Nat → Bytes → List Sent
  | 0, _ => []
  | fuel + 1, rest =>
    let n := min rest.length maxFrame
    let last := n == rest.length
    .continuation stream (rest.take n) last ::
      if last then [] else continuationFrames stream maxFrame fuel (rest.drop n)

/-- A header block as one HEADERS frame and the CONTINUATION frames it needs.
END_STREAM goes on the HEADERS frame, whatever follows. -/
def headerBlockFrames (stream : StreamId) (block : Bytes) (endStream : Bool) (maxFrame : Nat) :
    List Sent :=
  let n := min block.length maxFrame
  let last := n == block.length
  .headers stream (block.take n) endStream last ::
    if last then [] else continuationFrames stream maxFrame block.length (block.drop n)

theorem mem_continuationFrames {stream maxFrame fuel : Nat} {rest : Bytes} {f : Sent}
    (h : f ∈ continuationFrames stream maxFrame fuel rest) :
    ∃ b e, f = .continuation stream b e ∧ b.length ≤ maxFrame := by
  induction fuel generalizing rest with
  | zero => simp [continuationFrames] at h
  | succ fuel ih =>
    rw [continuationFrames, List.mem_cons] at h
    rcases h with rfl | h
    · exact ⟨_, _, rfl, by rw [List.length_take]; omega⟩
    · split at h
      · simp at h
      · exact ih h

/-- Every frame of a header block carries no DATA and fits the peer's frame size. -/
theorem mem_headerBlockFrames {stream maxFrame : Nat} {block : Bytes} {e : Bool} {f : Sent}
    (h : f ∈ headerBlockFrames stream block e maxFrame) :
    f.dataLen = 0 ∧ f.len ≤ maxFrame := by
  rw [headerBlockFrames, List.mem_cons] at h
  rcases h with rfl | h
  · refine ⟨rfl, ?_⟩
    rw [Sent.len, List.length_take]
    omega
  · split at h
    · simp at h
    · obtain ⟨b, e, rfl, hb⟩ := mem_continuationFrames h
      exact ⟨rfl, hb⟩

end Nilo.Http2
