import Nilo.Lib.Front
import Nilo.Std.Mem

/-!
# The protobuf wire format (`proto/wire.zig`)

Varints, keys and length delimited bytes, read off the front of what is left of the input, and the
writer, which fills its buffer from the end toward the start.
-/

namespace Nilo.Proto

open Text (Bytes)
open Mem (Fault Run readLe writeLe)
open Lib (Front)
open Lib.Front (fail lift upTo)

/-- `Error`, less `OutOfMemory`. -/
inductive Error where
  | truncated
  | varintTooLong
  | invalidKey
  | wrongWireType
  | invalidUtf8
  | tooDeep
  | unexpectedEndGroup
deriving DecidableEq, Repr

def maxDepth : Nat := 100

/-- `unnamed` is the `_` of the source: the numbers 6 and 7. -/
inductive WireType where
  | varint
  | fixed64
  | len
  | startGroup
  | endGroup
  | fixed32
  | unnamed
deriving DecidableEq, Repr

/-- `@backingInt`. -/
def WireType.bits : WireType → Nat
  | .varint => 0
  | .fixed64 => 1
  | .len => 2
  | .startGroup => 3
  | .endGroup => 4
  | .fixed32 => 5
  | .unnamed => 6

/-- `@fromBackingInt`, of three bits. -/
def WireType.ofBits : Nat → WireType
  | 0 => .varint
  | 1 => .fixed64
  | 2 => .len
  | 3 => .startGroup
  | 4 => .endGroup
  | 5 => .fixed32
  | _ => .unnamed

structure Key where
  number : Nat
  wire : WireType
deriving DecidableEq, Repr

/-- `@clz` of a `u64`. -/
def clz64 (v : Nat) : Nat := if v = 0 then 64 else 63 - v.log2

/-- How many bytes `v` takes as a varint. -/
def varintLen (v : Nat) : Nat := (70 - clz64 (v ||| 1)) / 7

/-! ## Reader -/

abbrev Read (β : Type) : Type := Front UInt8 Error β

/-- The loop of the source with its check of the end: with ten bytes in hand it runs the same one
without, and is done by the tenth byte. -/
def varintSlow (shift result : Nat) : Bytes → Except Error (Nat × Bytes)
  | [] => .error .truncated
  | b :: rest =>
    if shift = 63 then
      -- The tenth byte may carry one bit and no continuation.
      if b > 1 then .error .varintTooLong else .ok (result ||| b.toNat <<< 63, rest)
    else if b < 0x80 then .ok (result ||| (b.toNat &&& 0x7f) <<< shift, rest)
    else varintSlow (shift + 7) (result ||| (b.toNat &&& 0x7f) <<< shift) rest

def varint : Read Nat := fun b =>
  match b with
  | [] => .error .truncated
  | b0 :: rest => if b0 < 0x80 then .ok (b0.toNat, rest) else varintSlow 0 0 (b0 :: rest)

def splitKey (v : Nat) : Except Error Key :=
  if v > 2 ^ 32 - 1 then .error .invalidKey
  else
    let wire := v % 8
    if wire > 5 then .error .invalidKey
    else
      let number := v >>> 3
      if number = 0 then .error .invalidKey else .ok ⟨number, WireType.ofBits wire⟩

def key : Read Key := do
  let v ← varint
  lift (splitKey v)

def take (n : Nat) : Read Bytes := fun b =>
  if n > b.length then .error .truncated else .ok (b.take n, b.drop n)

def fixed (k : Nat) : Read Nat := do
  let b ← take k
  pure (readLe b)

def fixed64 : Read Nat := fixed 8

def fixed32 : Read Nat := fixed 4

/-- The payload of a length delimited field. -/
def bytes : Read Bytes := do
  let n ← varint
  take n

def discard {β : Type} (r : Read β) : Read Unit := do
  let _ ← r
  pure ()

/-- A turn of the loop in a group: the key that ends it, or a field in it. -/
def groupTurn (inside : Key → Read Unit) (number : Nat) : Read (Option Unit) := do
  let inner ← key
  if inner.wire = .endGroup then
    if inner.number ≠ number then fail .unexpectedEndGroup else pure (some ())
  else do
    inside inner
    pure none

def skipWith (group : Nat → Read Unit) (k : Key) : Read Unit :=
  match k.wire with
  | .varint => discard varint
  | .fixed64 => discard fixed64
  | .fixed32 => discard fixed32
  | .len => discard bytes
  | .startGroup => group k.number
  | .endGroup => fail .unexpectedEndGroup
  | .unnamed => fail .invalidKey

/-- Step over a field the type does not know. `depthLeft` bounds the groups a field can nest. -/
def skip : Nat → Key → Read Unit
  | 0 => skipWith fun _ => fail .tooDeep
  | depthLeft + 1 => skipWith fun number => upTo .truncated (groupTurn (skip depthLeft) number)

/-! ## Writer -/

/-- Fills `buf` from its end toward its start; `pos` is where what is written begins. -/
structure Writer where
  buf : Bytes
  pos : Nat
deriving DecidableEq, Repr

/-- `w.pos -= n`, and then `b` from there on. -/
def Writer.put (w : Writer) (n : Nat) (b : Bytes) : Run Writer :=
  if w.pos < n then .error .overflow
  else if w.pos - n + b.length > w.buf.length then .error .range
  else .ok ⟨w.buf.take (w.pos - n) ++ b ++ w.buf.drop (w.pos - n + b.length), w.pos - n⟩

/-- The bytes the loop writes: a `u64` has nine with a continuation bit at the most. -/
def varintDigits : Nat → Nat → Bytes
  | 0, v => [UInt8.ofNat v]
  | n + 1, v =>
    if v < 0x80 then [UInt8.ofNat v] else (UInt8.ofNat v ||| 0x80) :: varintDigits n (v >>> 7)

def Writer.varint (w : Writer) (value : Nat) : Run Writer :=
  w.put (varintLen value) (varintDigits 9 value)

def Writer.key (w : Writer) (number : Nat) (wire : WireType) : Run Writer :=
  w.varint (number <<< 3 ||| wire.bits)

def Writer.raw (w : Writer) (b : Bytes) : Run Writer := w.put b.length b

def Writer.fixed64 (w : Writer) (v : Nat) : Run Writer := w.put 8 (writeLe 8 v)

def Writer.fixed32 (w : Writer) (v : Nat) : Run Writer := w.put 4 (writeLe 4 v)

/-! ## A key -/

/-- A field number of the wire. -/
def Numbered (number : Nat) : Prop := 1 ≤ number ∧ number < 2 ^ 29

theorem splitKey_of {number : Nat} (hn : Numbered number) {wire : WireType}
    (hw : wire ≠ .unnamed) : splitKey (number * 8 + wire.bits) = .ok ⟨number, wire⟩ := by
  obtain ⟨hpos, hlt⟩ := hn
  have hbits : wire.bits ≤ 5 := by
    cases wire with
    | unnamed => exact absurd rfl hw
    | _ => decide
  have hlow : (number * 8 + wire.bits) % 8 = wire.bits := by omega
  have hhigh : (number * 8 + wire.bits) >>> 3 = number := by
    rw [Nat.shiftRight_eq_div_pow]
    omega
  have hwire : WireType.ofBits wire.bits = wire := by
    cases wire with
    | unnamed => exact absurd rfl hw
    | _ => rfl
  rw [splitKey, if_neg (by omega), hlow, if_neg (by omega), hhigh, if_neg (by omega), hwire]

theorem shiftLeft_or_bits (number : Nat) (wire : WireType) :
    number <<< 3 ||| wire.bits = number * 8 + wire.bits := by
  have hbits : wire.bits < 2 ^ 3 := by cases wire <;> decide
  rw [Nat.shiftLeft_eq, Nat.mul_comm, ← Nat.two_pow_add_eq_or_of_lt hbits, Nat.mul_comm]

end Nilo.Proto
