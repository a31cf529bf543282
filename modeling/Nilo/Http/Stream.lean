import Nilo.Std.Text

/-!
# Bodies in pieces (`http/stream.zig`, `Http1.piece` and `Http1.end` in `http/framing.zig`)

A stream buffers what is written and puts it out as pieces. The record of what is open is what its
functions read and change: the promise of a length, a body that is over, one that was broken off. What
went over the wire is kept as bytes.
-/

namespace Nilo.Streaming

open Text (Bytes ascii)

/-! ## HTTP/1 -/

/-- A field, as `Http1` writes it. -/
structure Header where
  name : Bytes
  value : Bytes
deriving DecidableEq

/-- The trailers an answer carries, and whether there is a writer for them. -/
structure Trailers where
  list : List Header := []
  writers : Bool := false
deriving DecidableEq

/-- What a drain is handed: slices, the last of them `splat` times. -/
structure Data where
  front : List Bytes
  pattern : Bytes
  splat : Nat
deriving DecidableEq

/-- How many bytes it holds. -/
def Data.count (d : Data) : Nat := (d.front.map List.length).sum + d.pattern.length * d.splat

def Data.bytes (d : Data) : Bytes := d.front.flatten ++ (List.replicate d.splat d.pattern).flatten

def crlf : Bytes := [13, 10]

/-- `{x}`. -/
def hexOf (n : Nat) : Bytes := (Nat.toDigits 16 n).map fun ch => UInt8.ofNat ch.toNat

def writeChunkHeader (len : Nat) : Bytes := hexOf len ++ crlf

def endChunk : Bytes := crlf

def writeLastChunk : Bytes := ascii "0\r\n\r\n"

def writeLastChunkWith (trailers : List Header) : Bytes :=
  if trailers.length = 0 then writeLastChunk
  else ascii "0\r\n" ++ trailers.flatMap (fun t => t.name ++ ascii ": " ++ t.value ++ crlf) ++ crlf

/-- One piece, in a chunk of its own where the body is chunked. -/
def Http1.piece (chunked : Bool) (buffered : Bytes) (data : Data) : Bytes :=
  (if chunked then writeChunkHeader (buffered.length + data.count) else []) ++
    buffered ++ data.front.flatten ++ (List.replicate data.splat data.pattern).flatten ++
      if chunked then endChunk else []

/-- `Http1.end`: the marker, where there is one. -/
def Http1.ending (marked : Bool) (trailers : Trailers) : Bytes :=
  if marked then
    if trailers.writers && decide (trailers.list.length > 0) then writeLastChunkWith trailers.list
    else writeLastChunk
  else []

/-! ## The stream -/

/-- What an open stream is. -/
structure Open where
  chunked : Bool
  /-- Answering a HEAD. -/
  drop : Bool
  promised : Option Nat := none
  written : Nat := 0
  finished : Bool := false
  aborted : Bool := false
deriving DecidableEq

inductive Error where
  | writeFailed
  | streamAborted
deriving DecidableEq

structure Stream where
  /-- How much the writer's buffer takes. -/
  room : Nat
  buffered : Bytes
  /-- The record of the stream, none once its end is written. -/
  record : Option Open
  /-- The flag that the connection cannot carry another request, if there is one. -/
  forceClose : Option Bool
  /-- A middleware holds the answer. -/
  hold : Bool
  trailers : Trailers
  /-- The flag that the body has ended, if there is one. -/
  ended : Option Bool
  wire : Bytes
deriving DecidableEq

namespace Stream

/-- `drain`: what is buffered and then the data leave as one piece. It takes all it is given or
fails. -/
def drain (self : Stream) (data : Data) : Except Error Nat × Stream :=
  let total := self.buffered.length + data.count
  if (self.record.map Open.aborted).getD false then
    (.error .writeFailed, { self with buffered := [] })
  else
    match self.record.filter fun o => !o.finished with
    | none => (.ok data.count, { self with buffered := [] })
    | some o =>
      if total = 0 || o.drop then (.ok data.count, { self with buffered := [] })
      else
        let sent : Stream := { self with
          buffered := []
          wire := self.wire ++ Http1.piece o.chunked self.buffered data }
        match o.promised with
        | none => (.ok data.count, sent)
        | some promised =>
          if o.written + total > promised then (.error .writeFailed, self)
          else (.ok data.count, { sent with record := some { o with written := o.written + total } })

/-- `std.Io.Writer.writeSplat`. -/
def writeSplat (self : Stream) (data : Data) : Except Error Nat × Stream :=
  if self.buffered.length + data.count ≤ self.room then
    (.ok data.count, { self with buffered := self.buffered ++ data.bytes })
  else self.drain data

/-- The loop of `writeAll`; every round takes a byte at least. -/
def writeFrom (self : Stream) : Nat → Bytes → Except Error Unit × Stream
  | 0, _ => (.ok (), self)
  | n + 1, bytes =>
    if bytes.length = 0 then (.ok (), self)
    else match self.writeSplat ⟨[], bytes, 1⟩ with
      | (.error e, after) => (.error e, after)
      | (.ok taken, after) => after.writeFrom n (bytes.drop taken)

def writeAll (self : Stream) (bytes : Bytes) : Except Error Unit × Stream :=
  self.writeFrom (bytes.length + 1) bytes

/-- `std.Io.Writer.defaultFlush`: a drain that succeeds leaves the buffer empty. -/
def flushBuffer (self : Stream) : Except Error Unit × Stream :=
  if self.buffered.length = 0 then (.ok (), self)
  else match self.drain ⟨[], [], 1⟩ with
    | (.error e, after) => (.error e, after)
    | (.ok _, after) => (.ok (), after)

/-- `close`: the promise checked, then the marker. -/
def close (self : Stream) (o : Open) : Stream :=
  let short := match o.promised with
    | none => false
    | some promised => !o.drop && decide (o.written < promised)
  { self with
    forceClose := if short then self.forceClose.map fun _ => true else self.forceClose
    wire := self.wire ++ Http1.ending (o.chunked && !o.drop) self.trailers }

def abort (self : Stream) : Except Error Unit × Stream :=
  match self.record with
  | none => (.error .streamAborted, self)
  | some o => (.error .streamAborted, { self with
      record := some { o with aborted := true }
      forceClose := self.forceClose.map fun _ => true
      room := 0
      buffered := [] })

def finish (self : Stream) : Except Error Unit × Stream :=
  match self.record with
  | none => (.ok (), self)
  | some before =>
    if before.finished || before.aborted then (.ok (), self)
    else match self.flushBuffer with
      | (.error e, after) => (.error e, after)
      | (.ok (), after) =>
        match after.record with
        | none => (.ok (), after)
        | some o =>
          if after.hold then
            (.ok (), { after with record := some { o with finished := true }, room := 0, buffered := [] })
          else (.ok (), { (after.close o) with
            record := none
            ended := after.ended.map fun _ => true
            room := 0
            buffered := [] })

end Stream

/-- What a handler does with a stream. -/
inductive Call where
  | writeAll (bytes : Bytes)
  /-- A write with a repeated slice, as formatting makes them. -/
  | writeSplat (data : Data)
  | flush
  | finish
  | abort
deriving DecidableEq

/-- The bytes that a call writes. -/
def Call.bytes : Call → Bytes
  | .writeAll bytes => bytes
  | .writeSplat data => data.bytes
  | _ => []

def Stream.step (self : Stream) : Call → Except Error Unit × Stream
  | .writeAll bytes => self.writeAll bytes
  | .writeSplat data =>
    match self.writeSplat data with
    | (.error e, after) => (.error e, after)
    | (.ok _, after) => (.ok (), after)
  | .flush => self.flushBuffer
  | .finish => self.finish
  | .abort => self.abort

theorem Stream.step_writeAll (self : Stream) (bytes : Bytes) :
    self.step (.writeAll bytes) = self.writeAll bytes := rfl

theorem Stream.step_writeSplat (self : Stream) (data : Data) : self.step (.writeSplat data) =
    match self.writeSplat data with
    | (.error e, after) => (.error e, after)
    | (.ok _, after) => (.ok (), after) := rfl

theorem Stream.step_finish (self : Stream) : self.step .finish = self.finish := rfl

end Nilo.Streaming
