import Nilo.Proto.Utf8
import Nilo.Proto.Wire

/-!
# Scalars

The values a protobuf type of the source can hold, and the scalars among them: how many bits each
travels as (`scalarBits` of `proto/encode.zig`), and how it is read back (`readScalar` of
`proto/decode.zig`).
-/

namespace Nilo.Proto

open Text (Bytes)
open Mem (Run writeLe)
open Lib (Front)
open Lib.Front (fail)

/-- A Zig value. An integer, a float or an enum is its bits; a null is `null` and what is not null
is the value itself; `undefined` is memory nobody has written. -/
inductive Value where
  | bool (b : Bool)
  | word (v : BitVec 32)
  | long (v : BitVec 64)
  | text (b : Bytes)
  | null
  | slice (items : List Value)
  | member (index : Nat) (value : Value)
  | struct (fields : List Value)
  | undefined
deriving Repr

/-- `schema.Scalar`. An enumeration has the values of its Zig type, in order, and whether the type
is exhaustive. -/
inductive Scalar where
  | bool
  | int32
  | int64
  | uint32
  | uint64
  | sint32
  | sint64
  | fixed32
  | fixed64
  | sfixed32
  | sfixed64
  | float
  | double
  | enumeration (values : List (BitVec 32)) (exhaustive : Bool)
  | string
  | bytes
deriving DecidableEq, Repr

def scalarWire : Scalar → WireType
  | .bool | .int32 | .int64 | .uint32 | .uint64 | .sint32 | .sint64 | .enumeration .. => .varint
  | .fixed64 | .sfixed64 | .double => .fixed64
  | .fixed32 | .sfixed32 | .float => .fixed32
  | .string | .bytes => .len

def Scalar.isText : Scalar → Bool
  | .string | .bytes => true
  | _ => false

def isClosedScalar : Scalar → Bool
  | .enumeration _ exhaustive => exhaustive
  | _ => false

/-- What the Zig types of the scalars differ in: a `bool`, four bytes, eight bytes, a slice. -/
inductive Width where
  | bool
  | word
  | long
  | text
deriving DecidableEq

def Scalar.width : Scalar → Width
  | .bool => .bool
  | .int32 | .uint32 | .sint32 | .fixed32 | .sfixed32 | .float | .enumeration .. => .word
  | .int64 | .uint64 | .sint64 | .fixed64 | .sfixed64 | .double => .long
  | .string | .bytes => .text

/-- Whether a value is one of the scalar's Zig type. -/
def Scalar.holds (s : Scalar) (v : Value) : Bool :=
  match s.width, v with
  | .bool, .bool _ => true
  | .word, .word v =>
    match s with
    | .enumeration values exhaustive => !exhaustive || values.contains v
    | _ => true
  | .long, .long _ => true
  | .text, .text _ => true
  | _, _ => false

/-- `zero` of `schema.zig`. -/
def Scalar.zero (s : Scalar) : Value :=
  match s.width with
  | .bool => .bool false
  | .word =>
    match s with
    | .enumeration (first :: _) true => .word first
    | _ => .word 0
  | .long => .long 0
  | .text => .text []

/-! ## Writing -/

def zigzag {w : Nat} (v : BitVec w) : BitVec w := v <<< 1 ^^^ v.sshiftRight (w - 1)

/-- The 64 bits a number travels as, before it is cut to a varint or a fixed width. -/
def scalarBits (s : Scalar) : Value → Nat
  | .bool b => b.toNat
  | .word v =>
    match s with
    | .int32 | .enumeration .. => (v.signExtend 64).toNat
    | .sint32 => (zigzag v).toNat
    | _ => v.toNat
  | .long v =>
    match s with
    | .sint64 => (zigzag v).toNat
    | _ => v.toNat
  | _ => 0

def isZero (s : Scalar) : Value → Bool
  | .text b => b.isEmpty
  | v => scalarBits s v == 0

def payloadLen (s : Scalar) (v : Value) : Nat :=
  match scalarWire s, v with
  | .varint, v => varintLen (scalarBits s v)
  | .fixed64, _ => 8
  | .fixed32, _ => 4
  | .len, .text b => varintLen b.length + b.length
  | _, _ => 0

def writePayload (s : Scalar) (w : Writer) (v : Value) : Run Writer :=
  match scalarWire s, v with
  | .varint, v => w.varint (scalarBits s v)
  | .fixed64, v => w.fixed64 (scalarBits s v)
  | .fixed32, v => w.fixed32 (scalarBits s v % 2 ^ 32)
  | .len, .text b => do
    let w ← w.raw b
    w.varint b.length
  | _, _ => .ok w

/-! ## Reading -/

def unzigzag {w : Nat} (u : BitVec w) : BitVec w := u >>> 1 ^^^ (0 - (u &&& 1))

/-- One value, the wire type having been checked by whoever chose this field. -/
def readScalar : Scalar → Read Value
  | .bool => do return .bool ((← varint) != 0)
  | .int32 | .uint32 | .enumeration .. => do return .word (BitVec.ofNat 32 (← varint))
  | .int64 | .uint64 => do return .long (BitVec.ofNat 64 (← varint))
  | .sint32 => do return .word (unzigzag (BitVec.ofNat 32 (← varint)))
  | .sint64 => do return .long (unzigzag (BitVec.ofNat 64 (← varint)))
  | .fixed32 | .sfixed32 | .float => do return .word (BitVec.ofNat 32 (← fixed32))
  | .fixed64 | .sfixed64 | .double => do return .long (BitVec.ofNat 64 (← fixed64))
  | .string => do
    let b ← bytes
    if validUtf8 b then pure (.text b) else fail .invalidUtf8
  | .bytes => do return .text (← bytes)

/-- A closed enum's value, or none where the number is not one it names. -/
def readClosed (values : List (BitVec 32)) : Read (Option Value) := do
  let v ← varint
  let raw := BitVec.ofNat 32 v
  pure (if values.contains raw then some (.word raw) else none)

/-- The two above, as each place that reads a scalar chooses between them. -/
def readOne : Scalar → Read (Option Value)
  | .enumeration values true => readClosed values
  | s => do return some (← readScalar s)

end Nilo.Proto
