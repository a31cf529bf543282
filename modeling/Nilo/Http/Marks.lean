import Nilo.Std.Json
import Mathlib.Data.List.Nodup

/-!
# Marked enums (`http/jsonmark.zig`, the enum branch of `http/json.zig`)

A marker spells the names of an enum for the wire. The reader matches the spellings and takes text only;
the writer of a non-exhaustive enum writes the names as they are declared, and a number for a value that
has none.
-/

namespace Nilo.Mark

open Text (Bytes ascii toLower signed)
open Json (Json)

/-- `std.ascii.toUpper`. -/
def toUpper (ch : UInt8) : UInt8 := if 97 ≤ ch ∧ ch ≤ 122 then ch &&& 0xDF else ch

inductive Case where
  | lowercase
  | uppercase
  | camelCase
  | pascalCase
  | screamingSnakeCase
  | kebabCase
deriving DecidableEq

/-- One name and the spelling it goes out under. -/
structure Rename where
  field : Bytes
  wire : Bytes
deriving DecidableEq

/-- What a marker says of the names. -/
structure Mark where
  renameAll : Option Case := none
  renames : List Rename := []
deriving DecidableEq

/-- Words joined, each shouted after an underscore. -/
def joined (shout : Bool) : Bytes → Bytes
  | [] => []
  | ch :: rest =>
    if ch = 95 then joined true rest else (if shout then toUpper ch else ch) :: joined false rest

def Case.spell (self : Case) (name : Bytes) : Bytes :=
  match self with
  | .lowercase => (name.filter (· != 95)).map toLower
  | .uppercase => (name.filter (· != 95)).map toUpper
  | .screamingSnakeCase => name.map toUpper
  | .kebabCase => name.map fun ch => if ch = 95 then 45 else ch
  | .camelCase => joined false name
  | .pascalCase => joined true name

/-- How `name` is spelled on the wire. -/
def wire (name : Bytes) (m : Mark) : Bytes :=
  match m.renames.find? fun r => r.field == name with
  | some r => r.wire
  | none =>
    match m.renameAll with
    | some c => c.spell name
    | none => name

/-- A non-exhaustive enum with its marker: `checkRenames` keeps the spellings apart. -/
structure EnumType where
  fields : List (Bytes × Int)
  mark : Mark
  names : (fields.map Prod.fst).Nodup
  values : (fields.map Prod.snd).Nodup
  spellings : (fields.map fun field => wire field.1 mark).Nodup

def quote (name : Bytes) : Bytes := 34 :: (name ++ [34])

/-- The branch of `writeValue` for a value that may have no name. -/
def writeValue (e : EnumType) (v : Int) : Bytes :=
  match e.fields.find? fun field => v == field.2 with
  | some field => quote field.1
  | none => signed v

/-- The variant `text` names. -/
def named (e : EnumType) (text : Bytes) : Option Int :=
  (e.fields.find? fun field => text == wire field.1 e.mark).map Prod.snd

inductive ParseError where
  | syntaxError
  | unexpectedToken
  | invalidEnumTag
deriving DecidableEq

/-- A document that holds one enum: its only token has to be text. -/
def readRenamed (e : EnumType) (text : Bytes) : Except ParseError Int :=
  match Json.read text with
  | none => .error .syntaxError
  | some (.string s) =>
    match named e s with
    | some v => .ok v
    | none => .error .invalidEnumTag
  | some _ => .error .unexpectedToken

/-! ## What is read back -/

variable {e : EnumType} {name : Bytes} {v : Int}

theorem eq_of_nodup {α β : Type} {f : α → β} {l : List α} (h : (l.map f).Nodup) {a b : α} (ha : a ∈ l)
    (hb : b ∈ l) (heq : f a = f b) : a = b := List.inj_on_of_nodup_map h ha hb heq

theorem writeValue_named (h : (name, v) ∈ e.fields) : writeValue e v = quote name := by
  rw [writeValue]
  cases hfind : e.fields.find? fun field => v == field.2 with
  | none => exact absurd (beq_self_eq_true v) (by simpa using List.find?_eq_none.mp hfind _ h)
  | some field =>
    have hvalue := List.find?_some hfind
    have hmem := List.mem_of_find?_eq_some hfind
    have hfield := eq_of_nodup e.values h hmem (beq_iff_eq.mp hvalue)
    rw [← hfield]

/-- A spelling names the value it is of. -/
theorem named_iff (e : EnumType) (v : Int) (text : Bytes) :
    named e text = some v ↔ ∃ name, (name, v) ∈ e.fields ∧ text = wire name e.mark := by
  rw [named, Option.map_eq_some_iff]
  constructor
  · rintro ⟨field, hfind, rfl⟩
    have hspelled := List.find?_some hfind
    rw [beq_iff_eq] at hspelled
    exact ⟨field.1, List.mem_of_find?_eq_some hfind, hspelled⟩
  · rintro ⟨name, hmem, rfl⟩
    cases hfind : e.fields.find? fun field => wire name e.mark == wire field.1 e.mark with
    | none => exact absurd (beq_self_eq_true _) (List.find?_eq_none.mp hfind _ hmem)
    | some field =>
      have hspelled := List.find?_some hfind
      rw [beq_iff_eq] at hspelled
      have hfield := eq_of_nodup e.spellings hmem (List.mem_of_find?_eq_some hfind) hspelled
      exact ⟨field, rfl, by rw [← hfield]⟩

theorem readRenamed_iff {text : Bytes} : readRenamed e text = .ok v ↔
    ∃ name, (name, v) ∈ e.fields ∧ Json.read text = some (.string (wire name e.mark)) := by
  rw [readRenamed]
  split
  · next hread =>
    rw [hread]
    exact ⟨fun h => (by cases h), fun ⟨_, _, h⟩ => (by cases h)⟩
  · next s hread =>
    have hnamed := named_iff e v s
    rw [hread]
    constructor
    · intro h
      cases hfound : named e s with
      | none =>
        rw [hfound] at h
        cases h
      | some found =>
        rw [hfound] at h
        cases h
        obtain ⟨name, hmem, hs⟩ := hnamed.mp hfound
        exact ⟨name, hmem, by rw [hs]⟩
    · rintro ⟨name, hmem, hs⟩
      cases hs
      rw [hnamed.mpr ⟨name, hmem, rfl⟩]
  · next other hother hread =>
    refine ⟨fun h => (by cases h), fun ⟨name, _, h⟩ => ?_⟩
    rw [hread, Option.some.injEq] at h
    exact absurd h (hother _)

/-- A value comes back, and under its spelling, just where it has a name that reads as its spelling when
it stands between quotes. -/
theorem readsBack_iff (e : EnumType) (v : Int) :
    (readRenamed e (writeValue e v) = .ok v ∧
      ∀ name, (name, v) ∈ e.fields → Json.read (writeValue e v) = some (.string (wire name e.mark))) ↔
    ∃ name, (name, v) ∈ e.fields ∧ Json.read (quote name) = some (.string (wire name e.mark)) := by
  constructor
  · rintro ⟨hread, hwire⟩
    obtain ⟨name, hmem, -⟩ := readRenamed_iff.mp hread
    exact ⟨name, hmem, writeValue_named hmem ▸ hwire name hmem⟩
  · rintro ⟨name, hmem, hread⟩
    rw [writeValue_named hmem, readRenamed_iff]
    refine ⟨⟨name, hmem, hread⟩, fun other hother => ?_⟩
    rw [hread]
    have hfield := eq_of_nodup e.values hmem hother rfl
    rw [(Prod.mk.inj hfield).1]

/-- `free_plan` and `paid_plan`, spelled for the wire with hyphens. -/
def plans : EnumType where
  fields := [(ascii "free_plan", 0), (ascii "paid_plan", 1)]
  mark := { renameAll := some .kebabCase }
  names := by decide
  values := by decide
  spellings := by decide

/-- A named value goes out under its declared name, which the reader does not know. -/
theorem not_readsBack : ¬ ∀ (e : EnumType) (v : Int), readRenamed e (writeValue e v) = .ok v ∧
    ∀ name, (name, v) ∈ e.fields → Json.read (writeValue e v) = some (.string (wire name e.mark)) := by
  intro h
  have hback := (h plans 0).1
  revert hback
  decide +kernel

end Nilo.Mark
