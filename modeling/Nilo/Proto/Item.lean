import Nilo.Proto.Decode

/-!
# What a message says, one occurrence of a field after the other

The meaning of an encoding, apart from how it is decoded. An encoding is a list of items, each an
occurrence of a field, and a value absorbs an item by the rules of the protobuf specification: the
last scalar wins, a repeated field appends, a message is merged item by item, and a member of a
oneof merges into itself and replaces any other. `parse` reads the items in one pass.
-/

namespace Nilo.Proto

open Text (Bytes)
open Lib (Front)
open Lib.Front (fail lift many)

/-- An occurrence of a field: the values of a scalar field, more or less than one where it is a
packed run and none for a number a closed enum does not name; the items of a message; or a field the
type does not know. -/
inductive Item where
  | scalars (s : Spec) (vs : List (Option Value))
  | message (s : Spec) (ref : Nat) (items : List Item)
  | unknown

/-- What a field holds after one more value of it. -/
def Spec.add (s : Spec) (held v : Value) : Value :=
  if s.repeated then
    match held with
    | .slice items => .slice (items ++ [v])
    | held => held
  else s.wrap v

def Spec.addAll (s : Spec) (vs : List (Option Value)) (held : Value) : Value :=
  vs.foldl (fun held v =>
    match v with
    | some v => s.add held v
    | none => held) held

mutual

def Item.absorb (env : Env) : Item → List Value → List Value
  | .scalars s vs, fields => fields.modify s.field (s.addAll vs)
  | .message s ref items, fields => fields.modify s.field fun held =>
    s.add held (.struct (absorbAll env items ((s.current held).getD (defaults env ref))))
  | .unknown, fields => fields

def absorbAll (env : Env) : List Item → List Value → List Value
  | [], fields => fields
  | item :: items, fields => absorbAll env items (item.absorb env fields)

end

/-! ## Reading the items -/

variable (env : Env) (specs : List Spec) (depthLeft : Nat)
variable (deeper : Nat → Bytes → Except Error (List Item))

def content (s : Spec) (packedRun : Bool) : Read Item :=
  match s.elem with
  | .message ref => do
    let payload ← bytes
    if depthLeft = 0 then fail .tooDeep
    else do
      let items ← lift (deeper ref payload)
      pure (.message s ref items)
  | .scalar sc =>
    if s.repeated && packedRun then do
      let run ← bytes
      let vs ← lift (many (readOne sc) run)
      pure (.scalars s vs)
    else do
      let v ← readOne sc
      pure (.scalars s [v])

def item : Read Item := do
  let k ← key
  match findSpec specs k.number with
  | some (s, _) =>
    if k.wire = specWire s false then content depthLeft deeper s false
    else if s.packable then
      if k.wire ≠ .len then fail .wrongWireType else content depthLeft deeper s true
    else fail .wrongWireType
  | none => do
    skip depthLeft k
    pure .unknown

def parse : Nat → Nat → Bytes → Except Error (List Item)
  | 0, ref => many (item (specsOf (env.fields ref)) 0 fun _ _ => .error .tooDeep)
  | depthLeft + 1, ref => many (item (specsOf (env.fields ref)) (depthLeft + 1) (parse depthLeft))

end Nilo.Proto
