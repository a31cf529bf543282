import Nilo.Std.Mem
import Nilo.Std.Utf8

/-!
# The WebSocket frame (`core/ws_frame.zig`, RFC 6455 §5)

How a frame header is read, which headers are refused, how a payload is unmasked, and what a close
frame may carry. A header is read the same whatever stands behind it (`headerFrom_append`), and a
payload unmasked in pieces is the payload unmasked whole (`unmaskInto_append`).
-/

namespace Nilo.Ws

open Text (Bytes)

inductive Opcode where
  | continuation
  | text
  | binary
  | close
  | ping
  | pong
  | other (code : Nat)
deriving DecidableEq, Repr

def Opcode.code : Opcode → Nat
  | .continuation => 0
  | .text => 1
  | .binary => 2
  | .close => 8
  | .ping => 9
  | .pong => 10
  | .other code => code

/-- `@fromBackingInt`. -/
def Opcode.ofCode : Nat → Opcode
  | 0 => .continuation
  | 1 => .text
  | 2 => .binary
  | 8 => .close
  | 9 => .ping
  | 10 => .pong
  | code => .other code

def Opcode.isControl (self : Opcode) : Bool := self.code &&& 0x8 != 0

/-- Why a connection is closed. -/
inductive Close where
  | goingAway
  | protocolError
  | invalidPayload
  | tooBig
  | internal
  | other (code : Nat)
deriving DecidableEq, Repr

def Close.code : Close → Nat
  | .goingAway => 1001
  | .protocolError => 1002
  | .invalidPayload => 1007
  | .tooBig => 1009
  | .internal => 1011
  | .other code => code

/-- The most a control frame can carry. -/
def maxControl : Nat := 125

inductive Sender where
  | client
  | server
deriving DecidableEq, Repr

/-- A frame header, as it was found on the wire. -/
structure Frame where
  fin : Bool
  reserved : Bool
  masked : Bool
  opcode : Opcode
  len : Nat
  mask : Bytes
  /-- How many bytes of the stream this header took. -/
  size : Nat
deriving DecidableEq, Repr

def Frame.wellFormed (self : Frame) (sender : Sender) : Bool :=
  if self.reserved then false
  else if self.masked != (sender == .client) then false
  else
    let wide := self.size - 2 - (if self.masked then 4 else 0)
    if wide == 2 && self.len < 126 then false
    else if wide == 8 && (self.len ≤ 0xffff || self.len >>> 63 != 0) then false
    else if self.opcode.isControl && (self.len > maxControl || !self.fin) then false
    else true

/-- How long a header is, from its second byte. -/
def headerSize (lead : UInt8) : Nat :=
  let extra := if lead &&& 0x7f = 126 then 2 else if lead &&& 0x7f = 127 then 8 else 0
  2 + extra + (if lead &&& 0x80 ≠ 0 then 4 else 0)

/-- A frame header out of bytes already in hand, or none when there are not yet enough of them. -/
def headerFrom (bytes : Bytes) : Option Frame :=
  match bytes with
  | first :: second :: _ =>
    let size := headerSize second
    if bytes.length < size then none
    else
      let short := second &&& 0x7f
      let masked := decide (second &&& 0x80 ≠ 0)
      some
        { fin := decide (first &&& 0x80 ≠ 0)
          reserved := decide (first &&& 0x70 ≠ 0)
          masked := masked
          opcode := Opcode.ofCode (first &&& 0x0f).toNat
          len :=
            if short = 126 then Mem.readBe ((bytes.drop 2).take 2)
            else if short = 127 then Mem.readBe ((bytes.drop 2).take 8)
            else short.toNat
          mask := if masked then (bytes.drop (size - 4)).take 4 else [0, 0, 0, 0]
          size := size }
  | _ => none

def validText (bytes : Bytes) : Bool := Utf8.utf8ValidateSlice bytes

def closeIsWellFormed (payload : Bytes) : Bool :=
  if payload.length = 0 then true
  else if payload.length < 2 then false
  else
    let code := Mem.readBe (payload.take 2)
    let known := (1000 ≤ code && code ≤ 1003) || (1007 ≤ code && code ≤ 1014) ||
      (3000 ≤ code && code ≤ 4999)
    if !known then false else validText (payload.drop 2)

/-- The loop of `reasonFits`: back to the byte that starts the character. -/
def startOf (reason : Bytes) : Nat → Nat
  | 0 => 0
  | n + 1 => if (reason.getD (n + 1) 0) &&& 0xc0 = 0x80 then startOf reason n else n + 1

/-- The most of `reason` that fits beside a close code, cut on a character boundary. -/
def reasonFits (reason : Bytes) : Nat :=
  if reason.length ≤ maxControl - 2 then reason.length else startOf reason (maxControl - 2)

/-- The payload of a close frame: the code, and as much of the reason as fits. -/
def closePayload (code : Close) (reason : Bytes) : Bytes :=
  [UInt8.ofNat (code.code / 256), UInt8.ofNat code.code] ++ reason.take (reasonFits reason)

/-- The client's masking undone. `offset` is how far into the message these bytes are. The wide
steps of the loop are all the one pattern of four bytes. -/
def unmaskInto (src key : Bytes) (offset : Nat) : Bytes :=
  let rotated := (List.range 4).map fun k => key.getD ((k + offset) % 4) 0
  src.mapIdx fun i b => b ^^^ rotated.getD (i % 4) 0

/-! ## Lemmas -/

@[simp] theorem length_unmaskInto (src key : Bytes) (offset : Nat) :
    (unmaskInto src key offset).length = src.length := by
  simp [unmaskInto]

theorem unmaskInto_eq (src key : Bytes) (offset : Nat) :
    unmaskInto src key offset = src.mapIdx fun i b => b ^^^ key.getD ((i + offset) % 4) 0 := by
  have hrotated : ∀ i, ((List.range 4).map fun k => key.getD ((k + offset) % 4) 0).getD (i % 4) 0 =
      key.getD ((i + offset) % 4) 0 := by
    intro i
    have hlt : i % 4 < 4 := Nat.mod_lt i (by decide)
    rw [List.getD_eq_getElem?_getD, List.getElem?_map, List.getElem?_range hlt, Option.map_some,
      Option.getD_some, Nat.mod_add_mod]
  simp only [unmaskInto, hrotated]

/-- A payload read in pieces is unmasked as the whole of it. -/
theorem unmaskInto_append (front rest key : Bytes) (offset : Nat) :
    unmaskInto (front ++ rest) key offset =
      unmaskInto front key offset ++ unmaskInto rest key (offset + front.length) := by
  rw [unmaskInto_eq, unmaskInto_eq, unmaskInto_eq, List.mapIdx_append]
  congr 2
  funext i b
  rw [Nat.add_assoc, Nat.add_comm front.length offset]

/-- There is a header as soon as its bytes are all there. -/
theorem headerFrom_isSome {first second : UInt8} {rest : Bytes}
    (h : headerSize second ≤ rest.length + 2) :
    ∃ f, headerFrom (first :: second :: rest) = some f ∧ f.size = headerSize second := by
  refine ⟨_, if_neg ?_, rfl⟩
  rw [List.length_cons, List.length_cons]
  omega

theorem headerFrom_short {first second : UInt8} {rest : Bytes}
    (h : rest.length + 2 < headerSize second) : headerFrom (first :: second :: rest) = none := by
  refine if_pos ?_
  rw [List.length_cons, List.length_cons]
  omega

theorem headerFrom_some {bytes : Bytes} {f : Frame} (h : headerFrom bytes = some f) :
    ∃ first second rest, bytes = first :: second :: rest ∧ f.size = headerSize second ∧
      f.size ≤ bytes.length := by
  match bytes with
  | [] => cases h
  | [_] => cases h
  | first :: second :: rest =>
    rcases Nat.lt_or_ge (rest.length + 2) (headerSize second) with hshort | hlong
    · rw [headerFrom_short hshort] at h
      cases h
    · obtain ⟨f', hf, hsize⟩ := @headerFrom_isSome first second rest hlong
      rw [hf] at h
      cases h
      exact ⟨first, second, rest, rfl, hsize, hsize ▸ hlong⟩

end Nilo.Ws
