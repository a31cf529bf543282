import Nilo.Proto.Scalar
import Mathlib.Data.List.Sort

/-!
# What a type says about itself (`proto/schema.zig`)

A message type is the list of its fields, and the message types a program has stand in an
environment, where a field names the type it holds by its place. A struct cannot hold itself by
value, so the types are numbered with what a type holds by value before it; a slice may hold any.
-/

namespace Nilo.Proto

open Text (Bytes)

inductive Elem where
  | scalar (s : Scalar)
  | message (ref : Nat)
deriving DecidableEq, Repr

/-- A member of a oneof, with its number of the union's `wire` table. -/
structure Member where
  number : Nat
  elem : Elem
deriving DecidableEq, Repr

/-- A field of a struct: `T`, `?T`, `[]const T` or `?union(enum)`, its number, and the default value
the struct declares for it. -/
inductive Field where
  | plain (number : Nat) (elem : Elem) (declared : Option Value)
  | optional (number : Nat) (elem : Elem) (declared : Option Value)
  | repeated (number : Nat) (elem : Elem) (unpacked : Bool) (declared : Option Value)
  | oneof (members : List Member) (declared : Option Value)
deriving Repr

abbrev Message : Type := List Field

abbrev Env : Type := List Message

def Env.fields (env : Env) (ref : Nat) : Message := env[ref]?.getD []

def Field.declared : Field → Option Value
  | .plain _ _ declared => declared
  | .optional _ _ declared => declared
  | .repeated _ _ _ declared => declared
  | .oneof _ declared => declared

/-! ## Specs -/

/-- One field number and what it fills. What the source calls the kind is `repeated` and what the
element is; `optional` stands for a `?T` of a message too. -/
structure Spec where
  field : Nat
  number : Nat
  elem : Elem
  repeated : Bool := false
  member : Option Nat := none
  packedRun : Bool := true
  optional : Bool := false
deriving DecidableEq, Repr

def Elem.isNumber : Elem → Bool
  | .scalar s => !s.isText
  | .message _ => false

/-- A repeated field whose elements may arrive as one length delimited run. -/
def Spec.packable (s : Spec) : Bool := s.repeated && s.elem.isNumber

def Field.specs (i : Nat) : Field → List Spec
  | .plain number elem _ => [{ field := i, number, elem }]
  | .optional number elem _ => [{ field := i, number, elem, optional := true }]
  | .repeated number elem unpacked _ =>
    [{ field := i, number, elem, repeated := true, packedRun := !unpacked }]
  | .oneof members _ => members.zipIdx.map fun p =>
    { field := i, number := p.1.number, elem := p.1.elem, member := some p.2 }

/-- Every field number a message reads and writes, in the order of its struct fields. -/
def specsOf (m : Message) : List Spec := m.zipIdx.flatMap fun p => p.1.specs p.2

/-- The same specs in field number order. -/
def sortedSpecs (m : Message) : List Spec :=
  (specsOf m).insertionSort fun a b => a.number ≤ b.number

def specWire (s : Spec) (packedRun : Bool) : WireType :=
  match s.elem with
  | .message _ => .len
  | .scalar sc => if s.repeated && packedRun then .len else scalarWire sc

def repeatedCount (specs : List Spec) : Nat := (specs.filter (·.repeated)).length

/-- Where spec `i` sits among the repeated ones. -/
def repeatedIndex (specs : List Spec) (i : Nat) : Nat := ((specs.take i).filter (·.repeated)).length

/-! ## The tables of one byte keys -/

structure Fast where
  spec : Nat
  packedRun : Bool
deriving DecidableEq, Repr

def actions (specs : List Spec) : List Fast := specs.zipIdx.flatMap fun p =>
  if p.1.number ≥ 16 then []
  else if p.1.packable then [⟨p.2, false⟩, ⟨p.2, true⟩]
  else [⟨p.2, false⟩]

def keyByte (number : Nat) (wire : WireType) : Nat := number <<< 3 ||| wire.bits

/-- The first key byte to an index in `actions`; none is `no_action`. -/
def table (specs : List Spec) : List (Option Nat) :=
  (actions specs).zipIdx.foldl (fun t p =>
    match specs[p.1.spec]? with
    | none => t
    | some s => t.set (keyByte s.number (specWire s (p.1.packedRun && s.packable))) (some p.2))
    (List.replicate 128 none)

/-- For the counting pass, a repeated field's key byte to `1 + index * 2 + packed`. -/
def countsSet (specs : List Spec) (t : List Nat) (p : Spec × Nat) : List Nat :=
  if p.1.number ≥ 16 || !p.1.repeated then t
  else
    let ri := repeatedIndex specs p.2
    let t := t.set (keyByte p.1.number (specWire p.1 false)) (1 + ri * 2)
    if p.1.packable then t.set (keyByte p.1.number .len) (1 + ri * 2 + 1) else t

def counts (specs : List Spec) : List Nat :=
  specs.zipIdx.foldl (countsSet specs) (List.replicate 128 0)

/-! ## Defaults -/

/-- `zero` of a field's type. -/
def Field.zero (nested : Nat → List Value) : Field → Value
  | .plain _ (.scalar s) _ => s.zero
  | .plain _ (.message ref) _ => .struct (nested ref)
  | .optional .. => .null
  | .repeated .. => .slice []
  | .oneof .. => .null

def Field.default (nested : Nat → List Value) (f : Field) : Value :=
  f.declared.getD (f.zero nested)

/-- `n` bounds how deep structs hold structs by value. -/
def defaultsWithin (env : Env) : Nat → Nat → List Value
  | 0, _ => []
  | n + 1, ref => (env.fields ref).map (Field.default (defaultsWithin env n))

/-- A message with every field at its default: what a type holds by value is numbered before it, so
`ref + 1` is deep enough. -/
def defaults (env : Env) (ref : Nat) : List Value := defaultsWithin env (ref + 1) ref

/-! ## Values of a type -/

def Elem.fits (nested : Nat → List Value → Bool) : Elem → Value → Bool
  | .scalar s, v => s.holds v
  | .message ref, .struct fields => nested ref fields
  | .message _, _ => false

def Field.fits (nested : Nat → List Value → Bool) : Field → Value → Bool
  | .plain _ elem _, v => elem.fits nested v
  | .optional .., .null => true
  | .optional _ elem _, v => elem.fits nested v
  | .repeated _ elem _ _, .slice items => items.all (elem.fits nested)
  | .repeated .., _ => false
  | .oneof .., .null => true
  | .oneof members _, .member j v =>
    match members[j]? with
    | some m => m.elem.fits nested v
    | none => false
  | .oneof .., _ => false

def fitsAll (nested : Nat → List Value → Bool) (m : Message) (fields : List Value) : Bool :=
  m.length == fields.length && (m.zip fields).all fun p => p.1.fits nested p.2

/-- The fields of a value of a message type, with messages nested at most `depth` levels below. -/
def fits (env : Env) : Nat → Nat → List Value → Bool
  | 0, ref, fields => fitsAll (fun _ _ => false) (env.fields ref) fields
  | depth + 1, ref, fields => fitsAll (fits env depth) (env.fields ref) fields

/-! ## What is not refused -/

def numberAccepted (n : Nat) : Bool :=
  (1 ≤ n && n ≤ 536870911) && !(19000 ≤ n && n ≤ 19999)

/-- `bound` is below what the types that may be held are numbered. -/
def Elem.accepted (bound : Nat) : Elem → Bool
  | .scalar (.enumeration values exhaustive) => !exhaustive || !values.isEmpty
  | .scalar _ => true
  | .message ref => ref < bound

def Field.accepted (ref count : Nat) : Field → Bool
  | .plain number elem _ => numberAccepted number && elem.accepted ref
  | .optional number elem _ => numberAccepted number && elem.accepted ref
  | .repeated number elem unpacked _ =>
    numberAccepted number && elem.accepted count && (!unpacked || elem.isNumber)
  | .oneof members _ => members.all fun m => numberAccepted m.number && m.elem.accepted ref

/-- The message types the schema does not refuse, with the defaults they declare of their types. -/
structure Accepted (env : Env) : Prop where
  fields : ∀ p ∈ env.zipIdx, p.1.all (Field.accepted p.2 env.length) = true
  numbers : ∀ m ∈ env, ((specsOf m).map (·.number)).Nodup
  declared : ∀ m ∈ env, ∀ f ∈ m, ∀ v, f.declared = some v → ∃ depth, f.fits (fits env depth) v = true

end Nilo.Proto
