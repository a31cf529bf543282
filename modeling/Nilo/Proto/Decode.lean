import Nilo.Proto.Schema
import Mathlib.Logic.Function.Basic

/-!
# Reading a message into a struct (`proto/decode.zig`)

A message is read in two passes: `countPass` counts the elements of each repeated field, so that its
slice is made exactly as long as it needs to be, and `readFields` fills everything. Nested messages
are read by `deeper`, the same function one level down.
-/

namespace Nilo.Proto

open Text (Bytes)
open Mem (Fault)
open Lib (Front)
open Lib.Front (fail lift relabel drain)

/-- How a decode stops: with an error of the source, or with a store past the end of a slice. -/
inductive Stop where
  | refused (e : Error)
  | fault (f : Fault)
deriving DecidableEq, Repr

abbrev Reading (β : Type) : Type := Front UInt8 Stop β

def wire {β : Type} (r : Read β) : Reading β := relabel .refused r

theorem wire_ok {β : Type} {r : Read β} {b rest : Bytes} {x : β} :
    wire r b = .ok (x, rest) ↔ r b = .ok (x, rest) := Front.relabel_ok

def tooDeep {β : Type} : Except Stop β := .error (.refused .tooDeep)

/-! ## Pass one: how many of each repeated field -/

/-- What a key of two bytes or more stands for: `1 + index * 2 + packed`, and 0 for what is not
counted. -/
def codeStep (specs : List Spec) (number : Nat) (kind : WireType) (c : Nat) (p : Spec × Nat) : Nat :=
  if p.1.repeated && number == p.1.number then
    let ri := repeatedIndex specs p.2
    if kind = specWire p.1 false then 1 + ri * 2
    else if p.1.packable && kind == .len then 1 + ri * 2 + 1
    else c
  else c

def countCode (specs : List Spec) (number : Nat) (kind : WireType) : Nat :=
  specs.zipIdx.foldl (codeStep specs number kind) 0

def countKey (specs : List Spec) : Read (Nat × Key) := fun b =>
  match b with
  | [] => .error .truncated
  | kb :: rest =>
    if kb < 0x80 then
      if kb < 8 then .error .invalidKey
      else
        let key : Key := ⟨kb.toNat >>> 3, .ofBits (kb.toNat &&& 7)⟩
        .ok (((counts specs)[kb.toNat]?.getD 0, key), rest)
    else
      match varintSlow 0 0 (kb :: rest) with
      | .error e => .error e
      | .ok (v, rest) =>
        match splitKey v with
        | .error e => .error e
        | .ok key => .ok ((countCode specs key.number key.wire, key), rest)

/-- The packable spec that sits at `ri` among the repeated ones. -/
def packableAt (specs : List Spec) (ri : Nat) : Option (Spec × Nat) :=
  specs.zipIdx.find? fun p => p.1.packable && repeatedIndex specs p.2 == ri

/-- How many numbers a packed run of a scalar holds. -/
def runCount (sc : Scalar) (payload : Bytes) : Except Error Nat :=
  match scalarWire sc with
  | .varint =>
    if payload.getLast?.any (· ≥ 0x80) then .error .truncated
    else .ok (payload.countP (· < 0x80))
  | .fixed64 => if payload.length % 8 ≠ 0 then .error .truncated else .ok (payload.length / 8)
  | .fixed32 => if payload.length % 4 ≠ 0 then .error .truncated else .ok (payload.length / 4)
  | _ => .ok 0

/-- `c` names the repeated field, and what it is decides how the run is cut. -/
def packedCount (specs : List Spec) (c : Nat) (payload : Bytes) : Except Error Nat :=
  match packableAt specs ((c - 1) >>> 1) with
  | none => .ok 0
  | some (s, _) =>
    match s.elem with
    | .scalar sc => runCount sc payload
    | .message _ => .ok 0

def counted (counts : Nat → Nat) (c n : Nat) : Nat → Nat :=
  if c = 0 then counts
  else Function.update counts ((c - 1) >>> 1) (counts ((c - 1) >>> 1) + n)

def countStep (specs : List Spec) (depthLeft : Nat) (counts : Nat → Nat) : Read (Nat → Nat) := do
  let (c, k) ← countKey specs
  match k.wire with
  | .varint => do
    let _ ← varint
    pure (counted counts c 1)
  | .fixed64 => do
    let _ ← fixed64
    pure (counted counts c 1)
  | .fixed32 => do
    let _ ← fixed32
    pure (counted counts c 1)
  | .len => do
    let payload ← bytes
    if c = 0 then pure counts
    -- An odd value is one element; an even one is a run.
    else if c &&& 1 = 1 then pure (counted counts c 1)
    else do
      let n ← lift (packedCount specs c payload)
      pure (counted counts c n)
  | _ => do
    skip depthLeft k
    pure counts

def countPass (specs : List Spec) (depthLeft : Nat) (b : Bytes) : Except Error (Nat → Nat) :=
  drain (countStep specs depthLeft) (fun _ => 0) b

/-! ## Pass two: every field -/

/-- The struct that is filled, and how many elements of each repeated field are in place. -/
structure Filling where
  fields : List Value
  fill : Nat → Nat

def Filling.items (st : Filling) (s : Spec) : List Value :=
  match st.fields[s.field]? with
  | some (.slice items) => items
  | _ => []

/-- The slices of the repeated fields, with what they held in front and room for what was counted
behind it. -/
def reserve (specs : List Spec) (counts : Nat → Nat) (fields : List Value) : Filling :=
  specs.zipIdx.foldl (fun st p =>
    if p.1.repeated then
      let ri := repeatedIndex specs p.2
      let old := st.items p.1
      { fields :=
          if counts ri > 0 then
            st.fields.set p.1.field (.slice (old ++ List.replicate (counts ri) .undefined))
          else st.fields
        fill := Function.update st.fill ri old.length }
    else st) ⟨fields, fun _ => 0⟩

def Elem.isClosed : Elem → Bool
  | .scalar s => isClosedScalar s
  | .message _ => false

/-- A closed enum drops the numbers it does not name. -/
def trim (specs : List Spec) (st : Filling) : List Value :=
  specs.zipIdx.foldl (fun fields p =>
    if p.1.repeated && p.1.elem.isClosed then
      let items := (Filling.mk fields st.fill).items p.1
      fields.set p.1.field (.slice (items.take (st.fill (repeatedIndex specs p.2))))
    else fields) st.fields

def Filling.put (st : Filling) (s : Spec) (v : Value) : Filling :=
  { st with fields := st.fields.set s.field v }

/-- `items[fill[ri]] = v; fill[ri] += 1`. -/
def Filling.push (st : Filling) (s : Spec) (ri : Nat) (v : Value) : Reading Filling :=
  if st.fill ri < (st.items s).length then
    pure { fields := st.fields.set s.field (.slice ((st.items s).set (st.fill ri) v))
           fill := Function.update st.fill ri (st.fill ri + 1) }
  else fail (.fault .range)

def pushScalar (sc : Scalar) (s : Spec) (ri : Nat) (st : Filling) : Reading Filling := do
  match ← wire (readOne sc) with
  | some v => st.push s ri v
  | none => pure st

/-- The message a field holds already: of a oneof, where this member is the active one. -/
def Spec.current (s : Spec) (held : Option Value) : Option (List Value) :=
  match s.member, held with
  | none, some (.struct fields) => some fields
  | some m, some (.member j (.struct fields)) => if j = m then some fields else none
  | _, _ => none

/-- What a field holds once `v` is put in it. -/
def Spec.wrap (s : Spec) (v : Value) : Value :=
  match s.member with
  | some m => .member m v
  | none => v

variable (env : Env) (specs : List Spec) (depthLeft : Nat)
variable (deeper : Nat → List Value → Bytes → Except Stop (List Value))

/-- `s` is the spec at `i`. -/
def applyField (s : Spec) (i : Nat) (packedRun : Bool) (st : Filling) : Reading Filling :=
  match s.elem with
  | .message ref => do
    let payload ← wire bytes
    if depthLeft = 0 then lift tooDeep
    else if s.repeated then
      if st.fill (repeatedIndex specs i) < (st.items s).length then do
        let message ← lift (deeper ref (defaults env ref) payload)
        st.push s (repeatedIndex specs i) (.struct message)
      else fail (.fault .range)
    else do
      let old := (s.current st.fields[s.field]?).getD (defaults env ref)
      let message ← lift (deeper ref old payload)
      pure (st.put s (s.wrap (.struct message)))
  | .scalar sc =>
    if s.repeated then
      if packedRun then do
        let run ← wire bytes
        lift (drain (pushScalar sc s (repeatedIndex specs i)) st run)
      else pushScalar sc s (repeatedIndex specs i) st
    else do
      match ← wire (readOne sc) with
      | some v => pure (st.put s (s.wrap v))
      | none => pure st

def findSpec (number : Nat) : Option (Spec × Nat) :=
  specs.zipIdx.find? fun p => p.1.number == number

/-- A key of two bytes or more, a field the type does not know, or a known one with a wire type it
cannot take. -/
def readGeneral (st : Filling) : Reading Filling := do
  let k ← wire key
  match findSpec specs k.number with
  | some (s, i) =>
    if k.wire = specWire s false then applyField env specs depthLeft deeper s i false st
    else if s.packable then
      if k.wire ≠ .len then fail (.refused .wrongWireType)
      else applyField env specs depthLeft deeper s i true st
    else fail (.refused .wrongWireType)
  | none => do
    wire (skip depthLeft k)
    pure st

/-- The action of a one byte key, with its spec. -/
def fastAction (kb : UInt8) : Option (Fast × Spec) :=
  if kb < 0x80 then do
    let ai ← (table specs)[kb.toNat]?.join
    let action ← (actions specs)[ai]?
    let s ← specs[action.spec]?
    pure (action, s)
  else none

def readStep (st : Filling) : Reading Filling := fun b =>
  match b.head?.bind (fastAction specs) with
  | some (action, s) =>
    applyField env specs depthLeft deeper s action.spec action.packedRun st b.tail
  | none => readGeneral env specs depthLeft deeper st b

def mergeFields (ref : Nat) (fields : List Value) (b : Bytes) : Except Stop (List Value) := do
  let specs := specsOf (env.fields ref)
  let counts ←
    if repeatedCount specs > 0 then (countPass specs depthLeft b).mapError .refused
    else .ok fun _ => 0
  let st ← drain (readStep env specs depthLeft deeper) (reserve specs counts fields) b
  pure (trim specs st)

/-- `depthLeft` messages may nest. -/
def mergeMessage : Nat → Nat → List Value → Bytes → Except Stop (List Value)
  | 0 => mergeFields env 0 fun _ _ _ => tooDeep
  | depthLeft + 1 => mergeFields env (depthLeft + 1) (mergeMessage depthLeft)

/-- Apply the fields in `b` on top of a value. -/
def mergeWith (ref : Nat) (fields : List Value) (b : Bytes) (depth : Nat) :
    Except Stop (List Value) := mergeMessage env depth ref fields b

def decodeWith (ref : Nat) (b : Bytes) (depth : Nat) : Except Stop (List Value) :=
  mergeWith env ref (defaults env ref) b depth

def decode (ref : Nat) (b : Bytes) : Except Stop (List Value) := decodeWith env ref b maxDepth

end Nilo.Proto
