import Nilo.Http2.Calls

/-!
# Reading frames

`readFrame` and the handlers behind it. A frame is a whole frame: a client that
goes while one is being read is the step that ends the input, and what a handler
had done by then is what it had done when it reached the `take` that failed.

A frame read while `continuing` points at a stream that has left the table is the
one place the code follows a pointer to memory that is not a stream of the
connection any more. A recycled stream has the id 0, so the frame is refused as
one for another stream unless it is a CONTINUATION on stream 0; that one, and any
frame at all when the memory was freed, sends the code into the stray stream. What
it hands the decoder there is recorded, and the model goes no further (`Stop.stray`).
-/

namespace Nilo.Http2

open Nilo.Lib Nilo.Text

variable {D : Type}

/-- The content of a frame without its padding, or none when the padding is longer than the
frame. -/
def unpad (f : Frame) : Option Bytes :=
  if !f.has Flags.padded then some f.payload
  else match f.payload with
    | [] => none
    | pad :: rest => if rest.length < pad.toNat then none else some (rest.take (rest.length - pad.toNat))

/-- The stream a priority says the stream depends on, without the exclusive bit (§6.3). -/
def dependsOn (five : Bytes) : StreamId := readInt (five.take 4) % 2 ^ 31

/-- The header block fragment of a HEADERS frame, and whether it depends on itself. -/
def headersFragment (f : Frame) : Option (Bytes × Bool) :=
  match unpad f with
  | none => none
  | some content =>
    if !f.has Flags.priority then some (content, false)
    else if content.length < 5 then none
    else some (content.drop 5, dependsOn (content.take 5) == f.stream)

/-- Hand one whole block to the decoder. -/
def feed (k : Codec D) (block : Bytes) : M D (List Field × Bool) := do
  modify (·.log (.fed block))
  match k.decode (← get).decoder block maxHeaderList with
  | none => stop .compression
  | some (d, fields, overLimit) => do
    modify fun c => { c with decoder := d }
    return (fields, overLimit)

/-- The client reset the stream, or this side did. A call that is still running keeps its
stream until it returns; one that is not is freed at once. -/
def onReset (r : Ref) : M D Unit := do
  let s ← stream r
  if s.phase = .running then
    if s.holding then
      modify (·.release r)
      modify (·.discard r .reset)
    else do
      update r fun s => { s with reset := true }
      when s.isOpen do
        update r fun s => { s with isOpen := false }
        modify (·.letGo r)
      update r fun s => { (s.failOut .reset) with inbox := s.inbox.fail .gone, stuckSince := 0 }
  else modify (·.discard r .reset)

/-- The DATA did not add up to the `content-length` the client sent: a stream error. -/
def lengthMismatch (r : Ref) : M D Unit := do
  emit (.rstStream (← stream r).id .protocolError)
  update r fun s => { s with inbox := s.inbox.fail .length }
  onReset r

/-- The client has sent all of the request: its body is whole, and the call waiting for it is
woken. Held to what it said its length was. -/
def endInbound (h : Host) (r : Ref) : M D Unit := do
  let s ← stream r
  if s.announced.isSome ∧ s.announced ≠ some s.received then lengthMismatch r
  else do
    update r fun s => { s with isOpen := false }
    modify (·.unstarve r)
    modify fun c => { c with controlRun := 0 }
    update r fun s => { s with inbox := s.inbox.finish }
    when s.deferred do
      update r fun s => { s with deferred := false }
      when s.holding (modify (·.release r))
      start h r

/-- The client's trailers are decoded, because the table has to stay in step, and they end
the stream. -/
def trailersDone (h : Host) (k : Codec D) (r : Ref) : M D Unit := do
  update r fun s => { s with trailing := false }
  let _ ← feed k (← get).trailerBlock
  modify fun c => { c with trailerBlock := [] }
  let s ← stream r
  if s.reset then pure ()
  else if s.phase = .writing then update r fun s => { s with isOpen := false }
  else endInbound h r

/-- The header block is whole: decode it, and run the call. Or, when it was the client's
trailers, the stream ends. -/
def headersDone (h : Host) (k : Codec D) (r : Ref) : M D Unit := do
  modify fun c => { c with continuing := none }
  let s ← stream r
  if s.trailing then trailersDone h k r
  else do
    let (fields, overLimit) ← feed k s.block
    update r fun s => { s with fields, headersOverLimit := s.headersOverLimit || overLimit }
    if s.selfDependent then malformed r
    else if (← get).goawaySent then
      modify (·.forget r .refusedGoaway)
      emit (.rstStream s.id .refusedStream)
    else if maxStreams < (← get).streams.length then
      modify fun c => { c with refused := c.refused + 1 }
      when (maxRefused < (← get).refused) (stop .calm)
      modify (·.forget r .refusedCap)
      emit (.rstStream s.id .refusedStream)
    else do
      update r fun s =>
        { s with
          limit :=
            match s.field (ascii ":path") with
            | some path => h.bodyLimit ((s.field (ascii ":method")).getD []) path
            | none => s.limit
          grpc := isGrpcContentType ((s.field (ascii "content-type")).getD [])
          isOpen := !s.endsWithHeaders }
      dispatch h r

/-- More of the header block that is arriving, which is bounded however many frames carry it. -/
def appendBlockBytes (r : Ref) (bytes : Bytes) : M D Unit := do
  if (← stream r).trailing then
    when (maxHeaderBlock < (← get).trailerBlock.length + bytes.length) (stop .calm)
    modify fun c => { c with trailerBlock := c.trailerBlock ++ bytes }
  else do
    when (maxHeaderBlock < (← stream r).block.length + bytes.length) (stop .calm)
    update r fun s => { s with block := s.block ++ bytes }

/-- The trailers of a forgotten stream are whole: decoded and dropped. -/
def endIgnored (k : Codec D) : M D Unit := do
  modify fun c => { c with ignoring := 0, ignoreUntilNs := 0 }
  let _ ← feed k (← get).trailerBlock
  modify fun c => { c with trailerBlock := [] }

/-- A CONTINUATION of the trailers of a forgotten stream. -/
def ignoreBlock (k : Codec D) (f : Frame) : M D Unit := do
  when (f.payload = [] ∧ !f.has Flags.endHeaders) control
  when (maxHeaderBlock < (← get).trailerBlock.length + f.len) (stop .calm)
  modify fun c => { c with trailerBlock := c.trailerBlock ++ f.payload }
  when (f.has Flags.endHeaders) (endIgnored k)

/-- Trailers from the client, on a call the connection still has. -/
def onTrailers (h : Host) (k : Codec D) (f : Frame) (fragment : Bytes) (r : Ref) : M D Unit := do
  let s ← stream r
  when (s.phase = .headers ∨ (!s.isOpen ∧ !s.reset)) (stop .protocol)
  when (!f.has Flags.endStream) (stop .protocol)
  modify fun c => { c with trailerBlock := [] }
  update r fun s => { s with trailing := true }
  appendBlockBytes r fragment
  if f.has Flags.endHeaders then headersDone h k r
  else modify fun c => { c with continuing := some r }

/-- Trailers of a stream already forgotten: decoded, because the table has to stay in step,
and dropped. A HEADERS that does not end the stream is the connection error. -/
def onLateTrailers (h : Host) (k : Codec D) (f : Frame) (fragment : Bytes) : M D Unit := do
  when (!f.has Flags.endStream) (stop .protocol)
  control
  modify fun c =>
    { c with
      trailerBlock := fragment
      ignoring := f.stream
      ignoreUntilNs := Conn.collectUntil h c.lastReadNs h.maxBody }
  when (f.has Flags.endHeaders) (endIgnored k)

/-- A stream for a new request, counted against the connection's allowance. -/
def newRequest (h : Host) (id : StreamId) : M D Ref := do
  let c ← get
  let opened :=
    { c with
      lastStream := id
      callsLeft := c.callsLeft - 1
      spent := if c.callsLeft ≠ 0 then c.callsLeft == 1 else c.spent }.newStream h id
  set opened.2
  return opened.1

/-- The HEADERS frame of a new request. The block is read before anything else is decided:
it has to be decoded whatever happens to the call. -/
def onRequest (h : Host) (k : Codec D) (f : Frame) (fragment : Bytes) (selfDependent : Bool) :
    M D Unit := do
  let r ← newRequest h f.stream
  let at_ := (← get).lastReadNs
  update r fun s =>
    { s with
      selfDependent
      headersNs := at_
      collectUntilNs := Conn.collectUntil h at_ h.maxBody }
  appendBlockBytes r fragment
  update r fun s => { s with endsWithHeaders := f.has Flags.endStream }
  if f.has Flags.endHeaders then headersDone h k r
  else modify fun c => { c with continuing := some r }

def onHeaders (h : Host) (k : Codec D) (f : Frame) : M D Unit := do
  when (f.stream = 0 ∨ f.stream % 2 = 0) (stop .protocol)
  match headersFragment f with
  | none => stop .protocol
  | some (fragment, selfDependent) =>
    match (← get).find f.stream with
    | some r => onTrailers h k f fragment r
    | none =>
      if f.stream ≤ (← get).lastStream then onLateTrailers h k f fragment
      else onRequest h k f fragment selfDependent

/-- A CONTINUATION of the block `continuing` is at, in the stream it points at. -/
def onContinuation (h : Host) (k : Codec D) (f : Frame) : M D Unit := do
  if (← get).ignoring ≠ 0 then ignoreBlock k f
  else match (← get).continuing with
    | none => stop .protocol
    | some r => do
      when (f.payload = [] ∧ !f.has Flags.endHeaders) control
      appendBlockBytes r f.payload
      when (f.has Flags.endHeaders) (headersDone h k r)

/-- What the calls do on their own fibers while the bytes of a frame are read. -/
def meanwhile : M D Unit :=
  modify fun c =>
    (c.env.between.filter fun p => p.1 ∈ c.inHand).foldl (fun c p => c.callStep p.1 p.2) c

/-- The bytes of a DATA frame into the pipe of a call that is running, and whether its stream
is collecting: `commit` decides that under the pipe's lock, and it may have become so since
`begin`. -/
def takeBytes (content : Bytes) (r : Ref) : M D Bool := do
  let slot := (← stream r).inbox.begin content.length
  meanwhile
  when (0 < slot.drop) (update r fun s => { s with overLimit := true })
  modify (·.hold r slot.keep)
  let kept := content.take slot.keep
  let done := ((← stream r).inbox.commit kept slot.drop).1
  update r fun s =>
    { s with
      inbox := (s.inbox.commit kept slot.drop).2
      taking := if done.collecting then s.taking else s.taking - done.kept }
  when (done.kept < slot.keep) do
    modify (·.giveBack r (slot.keep - done.kept))
    update r fun s => { s with overLimit := true }
  update r fun s => { s with collecting := done.collecting }
  return done.collecting

/-- DATA for a call that is running: its bytes, and then its end or its window. -/
def takeData (h : Host) (f : Frame) (content : Bytes) (r : Ref) : M D Unit := do
  let collecting ← takeBytes content r
  let s ← stream r
  if s.announced.isSome ∧ s.announced.getD 0 < s.received then lengthMismatch r
  else if f.has Flags.endStream then endInbound h r
  else if collecting then credit h r f.len
  else if content.length < f.len then credit h r (f.len - content.length)

/-- DATA on a stream whose client has more to send. -/
def onOpenData (h : Host) (f : Frame) (content : Bytes) (r : Ref) : M D Unit := do
  update r fun s =>
    { s with recvWindow := s.recvWindow - f.len, taking := s.taking + f.len }
  when ((← stream r).recvWindow < 0) (stop .flowControl)
  update r fun s => { s with received := s.received + content.length }
  if (← stream r).phase = .writing then
    -- answered, or being, before the client has finished: nothing reads it
    if f.has Flags.endStream then update r fun s => { s with isOpen := false }
  else takeData h f content r

/-- DATA on a stream the connection has. -/
def onStreamData (h : Host) (f : Frame) (content : Bytes) (r : Ref) : M D Unit := do
  let s ← stream r
  when (s.phase = .headers) (stop .protocol)
  if s.reset || (!s.isOpen && s.answerEnded) then when (content = []) control
  else if !s.isOpen then
    emit (.rstStream s.id .streamClosed)
    onReset r
  else do
    when (content = [] ∧ !f.has Flags.endStream) control
    onOpenData h f content r

/-- The connection's window pays for the whole frame, padding included, and is given back
as the bytes arrive. -/
def payConnection (n : Nat) : M D Unit := do
  modify fun c => { c with recvWindow := c.recvWindow - n }
  when ((← get).recvWindow < 0) (stop .flowControl)
  consumed n

def onData (h : Host) (f : Frame) : M D Unit := do
  when (f.stream = 0) (stop .protocol)
  payConnection f.len
  match unpad f with
  | none => stop .protocol
  | some content =>
    match (← get).find f.stream with
    | some r => onStreamData h f content r
    | none => do
      when ((← get).lastStream < f.stream) (stop .protocol)
      when (content = []) control

/-- The initial window changes: every stream's window moves with it, and one lifted past
2^31-1 is a connection error (§6.9.2). -/
def moveWindows (delta : Int) : List Ref → M D Unit
  | [] => pure ()
  | r :: rest => do
    update r fun s => { s with sendWindow := s.sendWindow + delta }
    when ((maxWindow : Int) < (← stream r).sendWindow) (stop .flowControl)
    moveWindows delta rest

def applySetting (id : Setting) (value : Nat) : M D Unit := do
  match id with
  | .initialWindowSize => do
    when (maxWindow < value) (stop .flowControl)
    let c ← get
    set { c with peerWindow := value }
    moveWindows (value - c.peerWindow) c.refs
  | .maxFrameSize => do
    when (value < defaultMaxFrame ∨ 16777215 < value) (stop .protocol)
    modify fun c => { c with peerMaxFrame := value }
  | .enablePush => if 1 < value then stop .protocol
  | _ => pure ()

/-- The pairs of a SETTINGS frame, in order. -/
def settingPairs : Nat → Bytes → List (Setting × Nat)
  | 0, _ => []
  | n + 1, b =>
    (Setting.ofNat (readInt (b.take 2)), readInt ((b.drop 2).take 4)) :: settingPairs n (b.drop 6)

def applySettings : List (Setting × Nat) → M D Unit
  | [] => pure ()
  | (id, value) :: rest => do applySetting id value; applySettings rest

def onSettings (k : Codec D) (f : Frame) : M D Unit := do
  when (f.stream ≠ 0) (stop .protocol)
  if f.has Flags.ack then
    when (f.len ≠ 0) (stop .frameSize)
    modify fun c => { c.log .allowed with decoder := k.allow c.decoder 0 }
  else do
    when (f.len % 6 ≠ 0) (stop .frameSize)
    control
    applySettings (settingPairs (f.len / 6) f.payload)
    emit .settingsAck

/-- A WINDOW_UPDATE for a streamed answer that this side has written DATA for. -/
def spendCredit : M D Bool := do
  if (← get).outCredit = 0 then return false
  else do
    modify fun c => { c with outCredit := c.outCredit - 1 }
    return true

/-- The increment of a WINDOW_UPDATE. -/
def incrementOf (f : Frame) : Nat := readInt f.payload % 2 ^ 31

def onWindowUpdate (f : Frame) : M D Unit := do
  when (f.len ≠ 4) (stop .frameSize)
  let increment := incrementOf f
  when (!(← get).writing) do
    when (!(← spendCredit)) control
  if f.stream = 0 then
    when (increment = 0) (stop .protocol)
    modify fun c => { c with sendWindow := c.sendWindow + increment }
    if (maxWindow : Int) < (← get).sendWindow then stop .flowControl
  else do
    when ((← get).lastStream < f.stream) (stop .protocol)
    match (← get).find f.stream with
    | none => pure ()
    | some r => do
      let s ← stream r
      if s.reset || s.answerEnded then pure ()
      else if increment = 0 then
        emit (.rstStream s.id .protocolError)
        onReset r
      else do
        update r fun s => { s with sendWindow := s.sendWindow + increment }
        if (maxWindow : Int) < (← stream r).sendWindow then
          emit (.rstStream s.id .flowControlError)
          onReset r

def onPing (f : Frame) : M D Unit := do
  when (f.stream ≠ 0) (stop .protocol)
  when (f.len ≠ 8) (stop .frameSize)
  if !f.has Flags.ack then
    control
    emit (.pingAck f.payload)

def onRstStream (f : Frame) : M D Unit := do
  when (f.stream = 0) (stop .protocol)
  when (f.len ≠ 4) (stop .frameSize)
  when ((← get).lastStream < f.stream) (stop .protocol)
  match (← get).find f.stream with
  | none => pure ()
  | some r => do
    let s ← stream r
    when (s.phase = .headers ∨ (s.phase = .running ∧ s.isOpen)) control
    onReset r

def onPriority (f : Frame) : M D Unit := do
  when (f.stream = 0) (stop .protocol)
  when (f.len ≠ 5) (stop .frameSize)
  control
  if dependsOn f.payload = f.stream then
    emit (.rstStream f.stream .protocolError)
    match (← get).find f.stream with
    | none => pure ()
    | some r => onReset r

def onGoaway (f : Frame) : M D Unit := do
  when (f.stream ≠ 0) (stop .protocol)
  when (f.len < 8) (stop .frameSize)
  modify fun c => { c with peerGoaway := true }

/-- The code goes on in memory that is no stream of the table, and the model stops. -/
def goAstray : M D Unit := do
  modify fun c => { c with astray := true }
  stop .stray

/-- Only the CONTINUATION frames of the block that is open may come next (§6.10). -/
def checkContinuing (f : Frame) : M D Unit := do
  match (← get).continuing with
  | none => pure ()
  | some r =>
    if r ∈ (← get).refs then
      if f.type ≠ .continuation ∨ f.stream ≠ (← stream r).id then stop .protocol
    else if r ∈ (← get).spare then
      when (f.type ≠ .continuation ∨ f.stream ≠ 0) (stop .protocol)
      when (f.has Flags.endHeaders) (modify (·.log (.fed f.payload)))
      goAstray
    else goAstray

def checkIgnoring (f : Frame) : M D Unit := do
  let c ← get
  when (c.ignoring ≠ 0 ∧ (f.type ≠ .continuation ∨ f.stream ≠ c.ignoring)) (stop .protocol)

def readOne (h : Host) (k : Codec D) (f : Frame) : M D Unit := do
  modify fun c =>
    { c.log (.read f) with
      lastReadNs := if c.env.waited || c.lastReadNs == 0 then c.now else c.lastReadNs }
  when (defaultMaxFrame < f.len) (stop .frameSize)
  checkContinuing f
  checkIgnoring f
  match f.type with
  | .data => onData h f
  | .headers => onHeaders h k f
  | .continuation => onContinuation h k f
  | .settings => onSettings k f
  | .ping => onPing f
  | .windowUpdate => onWindowUpdate f
  | .rstStream => onRstStream f
  | .priority => onPriority f
  | .goaway => onGoaway f
  | .pushPromise => stop .protocol
  | .unknown _ => control

/-- One frame, and then what the calls have said while it was read. -/
def readFrame (h : Host) (k : Codec D) (f : Frame) : M D Unit := do
  readOne h k f
  service h
  admitCalls h

end Nilo.Http2
