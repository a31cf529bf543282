import Nilo.Core.Percent
import Nilo.Router.Joined
import Nilo.Router.Validate
import Nilo.Std.Decimal

/-!
# URLs built from patterns (`http/url.zig`)

`write` walks a pattern and puts a value where a name stands. A text that is empty, `.` or `..` is
refused; the tag name of an enum value goes out unchecked. `built_iff` says for which values the path
that is written reads back: its segments are the pattern's, the pattern answers it, and what is
captured decodes to the values.
-/

namespace Nilo.Url

open Text (Bytes ascii cut signed digitsOf)
open Routing (slash colon trimSlashes segmentsOf segmentsIn splitPath Segment Declared Ends)

/-- A value of one of the types that can be written. -/
inductive Value where
  | str (text : Bytes)
  | int (n : Int)
  | bool (b : Bool)
  /-- A value of an enum, by its tag name. -/
  | tag (name : Bytes)

inductive Error where
  | badValue
  /-- `@field` of a name there is no value for: it does not compile. -/
  | noField
deriving DecidableEq

/-- The values, by the names of a struct's fields. -/
structure Args where
  fields : List (Bytes × Value)
  nodup : (fields.map Prod.fst).Nodup

def Args.field (args : Args) (name : Bytes) : Option Value := args.fields.lookup name

/-! ## Writing -/

def writeText (text : Bytes) : Except Error Bytes :=
  if text.length = 0 ∨ text = ascii "." ∨ text = ascii ".." then .error .badValue
  else .ok (Percent.encodeWrite text .unreserved)

def writeValue : Value → Except Error Bytes
  | .str text => writeText text
  | .int n => .ok (signed n)
  | .bool b => .ok (if b then ascii "true" else ascii "false")
  | .tag name => .ok (Percent.encodeWrite name .unreserved)

/-- How far a name runs: to the next slash or to the end. -/
def segmentEnd (rest : Bytes) : Nat := (rest.takeWhile (· != slash)).length

theorem length_of_cut {ch : UInt8} {text rest : Bytes} (h : (cut ch text).2 = some rest) :
    rest.length < text.length := by
  rw [cut] at h
  cases hdrop : text.dropWhile (· != ch) with
  | nil =>
    rw [hdrop] at h
    cases h
  | cons c after =>
    rw [hdrop] at h
    cases h
    have hlength := (List.dropWhile_sublist (· != ch) (l := text)).length_le
    rwa [hdrop] at hlength

/-- The loop of `write`, from a place in the pattern. -/
def writeFrom (args : Args) (rest : Bytes) : Except Error Bytes :=
  match h : (cut colon rest).2 with
  | none => .ok (cut colon rest).1
  | some nameAndRest =>
    match args.field (nameAndRest.take (segmentEnd nameAndRest)) with
    | none => .error .noField
    | some value =>
      match writeValue value with
      | .error e => .error e
      | .ok written =>
        match writeFrom args (nameAndRest.drop (segmentEnd nameAndRest)) with
        | .error e => .error e
        | .ok after => .ok ((cut colon rest).1 ++ written ++ after)
termination_by rest.length
decreasing_by
  rw [List.length_drop]
  exact Nat.lt_of_le_of_lt (Nat.sub_le _ _) (length_of_cut h)

def write (pattern : Bytes) (args : Args) : Except Error Bytes := writeFrom args pattern

/-- Every name in a pattern: what is behind a colon, wherever it stands. -/
def paramsOf (rest : Bytes) : List Bytes :=
  match h : (cut colon rest).2 with
  | none => []
  | some nameAndRest => nameAndRest.take (segmentEnd nameAndRest) :: paramsOf nameAndRest
termination_by rest.length
decreasing_by exact length_of_cut h

/-- What `check` lets through, while compiling. -/
def check (pattern : Bytes) (args : Args) : Bool :=
  decide (pattern.head? = some slash) && !pattern.contains 42 &&
    (paramsOf pattern).all (fun name => name.length ≠ 0 && (args.field name).isSome) &&
      args.fields.all fun f => (paramsOf pattern).contains f.1

/-! ## A value and what is written of it -/

/-- A segment that a browser does not take as one. -/
def Dotted (text : Bytes) : Prop := text = [] ∨ text = ascii "." ∨ text = ascii ".."

/-- The text of a value. -/
def Value.text : Value → Bytes
  | .str text => text
  | .int n => signed n
  | .bool b => if b then ascii "true" else ascii "false"
  | .tag name => name

/-- A text that `writeText` refuses. -/
def Value.Refused (v : Value) : Prop := ∃ text, v = .str text ∧ Dotted text

/-- A tag name that the same check would refuse. -/
def Value.BadTag (v : Value) : Prop := ∃ name, v = .tag name ∧ Dotted name

abbrev encode (text : Bytes) : Bytes := Percent.encodeInto text .unreserved

variable {v : Value} {text written : Bytes}

theorem encode_inj {a b : Bytes} (h : encode a = encode b) : a = b := by
  have hdecode := congrArg (Percent.decodeInto false) h
  rwa [Percent.decodeInto_encodeInto, Percent.decodeInto_encodeInto] at hdecode

theorem encode_dotted (h : Dotted text) : encode text = text := by
  rcases h with rfl | rfl | rfl <;> rfl

theorem dotted_encode : Dotted (encode text) ↔ Dotted text := by
  constructor
  · intro h
    have heq := encode_inj (encode_dotted h)
    rwa [heq] at h
  · intro h
    rwa [encode_dotted h]

theorem slash_not_mem_encode (text : Bytes) : slash ∉ encode text := by
  have hbyte : ∀ ch : UInt8, slash ∉ encode [ch] := Text.forall_byte (by decide)
  intro h
  obtain ⟨ch, -, hch⟩ := List.mem_flatMap.mp h
  refine hbyte ch ?_
  rw [encode, Percent.encodeInto, List.flatMap_singleton]
  exact hch

theorem encode_digitsOf (n : Nat) : ∀ ch ∈ digitsOf n, Percent.safe ch .unreserved = true := by
  have hdigit : ∀ ch : UInt8, Text.isDigit ch = true → Percent.safe ch .unreserved = true :=
    Text.forall_byte (by decide)
  intro ch hch
  exact hdigit ch (List.all_eq_true.mp (Text.all_digitsOf n) ch hch)

theorem encode_signed (n : Int) : encode (signed n) = signed n := by
  refine Percent.encodeInto_safe fun ch hch => ?_
  rcases List.mem_append.mp hch with hsign | hdigits
  · split_ifs at hsign
    · obtain rfl := List.mem_singleton.mp hsign
      decide
    · cases hsign
  · exact encode_digitsOf _ ch hdigits

theorem signed_not_dotted (n : Int) : ¬ Dotted (signed n) := by
  have hmem : ∃ ch ∈ signed n, Text.isDigit ch = true := by
    obtain ⟨ch, rest, hdigits⟩ :=
      List.exists_cons_of_ne_nil (List.ne_nil_of_length_pos (Text.length_digitsOf_pos n.natAbs))
    have hall := Text.all_digitsOf n.natAbs
    refine ⟨ch, List.mem_append_right _ (hdigits ▸ List.mem_cons_self), ?_⟩
    rw [hdigits] at hall
    exact (Bool.and_eq_true_iff.mp hall).1
  obtain ⟨ch, hch, hdigit⟩ := hmem
  rintro (h | h | h)
  · rw [h] at hch
    cases hch
  · rw [h] at hch
    obtain rfl : ch = 46 := by simpa [ascii] using hch
    cases hdigit
  · rw [h] at hch
    obtain rfl : ch = 46 := by simpa [ascii] using hch
    cases hdigit

/-- Whatever branch a value takes, its text goes out encoded, unless it is refused. -/
theorem writeValue_ok_iff : writeValue v = .ok written ↔ ¬ v.Refused ∧ written = encode v.text := by
  cases v with
  | str text =>
    have hrefused : (Value.str text).Refused ↔
        text.length = 0 ∨ text = ascii "." ∨ text = ascii ".." := by
      rw [List.length_eq_zero_iff]
      exact ⟨fun ⟨_, h, hdot⟩ => by cases h; exact hdot, fun h => ⟨text, rfl, h⟩⟩
    rw [hrefused, writeValue, writeText]
    split_ifs with h
    · exact ⟨nofun, fun hor => absurd h hor.1⟩
    · rw [Percent.encodeWrite_eq, Except.ok.injEq, eq_comm]
      exact ⟨fun heq => ⟨h, heq⟩, And.right⟩
  | int n =>
    rw [writeValue, Except.ok.injEq, Value.text, encode_signed, eq_comm]
    exact ⟨fun heq => ⟨fun ⟨_, h, _⟩ => (nomatch h), heq⟩, And.right⟩
  | bool b =>
    have hword : encode (Value.bool b).text = if b then ascii "true" else ascii "false" := by
      cases b <;> rfl
    rw [writeValue, Except.ok.injEq, hword, eq_comm]
    exact ⟨fun heq => ⟨fun ⟨_, h, _⟩ => (nomatch h), heq⟩, And.right⟩
  | tag name =>
    rw [writeValue, Except.ok.injEq, Percent.encodeWrite_eq, eq_comm]
    exact ⟨fun heq => ⟨fun ⟨_, h, _⟩ => (nomatch h), heq⟩, And.right⟩

/-- A value whose text is empty, `.` or `..` is a text that is refused or an enum's. -/
theorem dotted_text_iff : Dotted v.text ↔ v.Refused ∨ v.BadTag := by
  cases v with
  | str text =>
    exact ⟨fun h => .inl ⟨text, rfl, h⟩, by
      rintro (⟨_, h, hdot⟩ | ⟨_, h, -⟩)
      · cases h
        exact hdot
      · cases h⟩
  | int n =>
    exact ⟨fun h => absurd h (signed_not_dotted n), by rintro (⟨_, h, -⟩ | ⟨_, h, -⟩) <;> cases h⟩
  | bool b =>
    refine ⟨fun h => ?_, by rintro (⟨_, h, -⟩ | ⟨_, h, -⟩) <;> cases h⟩
    cases b <;> rcases h with h | h | h <;> exact absurd h (by decide)
  | tag name =>
    exact ⟨fun h => .inr ⟨name, rfl, h⟩, by
      rintro (⟨_, h, -⟩ | ⟨_, h, hdot⟩)
      · cases h
      · cases h
        exact hdot⟩

/-! ## Piece by piece -/

/-- What is written for a segment of the pattern. -/
def fill (args : Args) (seg : Bytes) : Except Error Bytes :=
  if seg.head? = some colon then
    match args.field seg.tail with
    | none => .error .noField
    | some value => writeValue value
  else .ok seg

variable {args : Args} {name seg rest out pattern : Bytes} {ps filled : List Bytes}

theorem cut_behind (h : colon ∉ text) (rest : Bytes) :
    cut colon (text ++ rest) = (text ++ (cut colon rest).1, (cut colon rest).2) := by
  have hall : ∀ b ∈ text, (b != colon) = true := by
    intro b hb
    rw [bne_iff_ne]
    rintro rfl
    exact h hb
  rw [cut, cut, List.dropWhile_append_of_pos hall, List.takeWhile_append_of_pos hall]
  cases rest.dropWhile (· != colon) <;> rfl

theorem segmentEnd_name (hname : slash ∉ name) (hrest : Ends rest) :
    segmentEnd (name ++ rest) = name.length := by
  have hall : ∀ b ∈ name, (b != slash) = true := by
    intro b hb
    rw [bne_iff_ne]
    rintro rfl
    exact hname hb
  have hstop : rest.takeWhile (· != slash) = [] := by
    rcases hrest with rfl | hhead
    · rfl
    · obtain ⟨after, rfl⟩ := List.head?_eq_some_iff.mp hhead
      rfl
  rw [segmentEnd, List.takeWhile_append_of_pos hall, hstop, List.append_nil]

theorem writeFrom_none (h : (cut colon rest).2 = none) :
    writeFrom args rest = .ok (cut colon rest).1 := by
  rw [writeFrom]
  split
  · rfl
  · next hsome =>
    rw [h] at hsome
    cases hsome

theorem writeFrom_some {behind : Bytes} (h : (cut colon rest).2 = some behind) :
    writeFrom args rest = .ok out ↔ ∃ written after,
      fill args (colon :: behind.take (segmentEnd behind)) = .ok written ∧
        writeFrom args (behind.drop (segmentEnd behind)) = .ok after ∧
          out = (cut colon rest).1 ++ written ++ after := by
  rw [writeFrom, fill, if_pos List.head?_cons, List.tail_cons]
  split
  · next hnone =>
    rw [h] at hnone
    cases hnone
  · next nameAndRest hsome =>
    rw [h] at hsome
    cases hsome
    cases args.field (behind.take (segmentEnd behind)) with
    | none => exact ⟨nofun, fun ⟨_, _, hfill, _⟩ => (nomatch hfill)⟩
    | some value =>
      dsimp only
      cases writeValue value with
      | error e => exact ⟨nofun, fun ⟨_, _, hfill, _⟩ => (nomatch hfill)⟩
      | ok written =>
        dsimp only
        cases writeFrom args (behind.drop (segmentEnd behind)) with
        | error e => exact ⟨nofun, fun ⟨_, _, _, hafter, _⟩ => (nomatch hafter)⟩
        | ok after =>
          constructor
          · intro hout
            cases hout
            exact ⟨written, after, rfl, rfl, rfl⟩
          · rintro ⟨_, _, hwritten, hafter, rfl⟩
            cases hwritten
            cases hafter
            rfl

/-- Text without a colon goes out as it stands. -/
theorem writeFrom_text (h : colon ∉ text) : writeFrom args (text ++ rest) = .ok out ↔
    ∃ after, writeFrom args rest = .ok after ∧ out = text ++ after := by
  have hcut := cut_behind h rest
  cases hrest : (cut colon rest).2 with
  | none =>
    have hboth : (cut colon (text ++ rest)).2 = none := by rw [hcut, hrest]
    rw [writeFrom_none hboth, writeFrom_none hrest, hcut, Except.ok.injEq]
    constructor
    · rintro rfl
      exact ⟨_, rfl, rfl⟩
    · rintro ⟨after, hafter, rfl⟩
      cases hafter
      rfl
  | some behind =>
    have hboth : (cut colon (text ++ rest)).2 = some behind := by rw [hcut, hrest]
    rw [writeFrom_some hboth, hcut]
    constructor
    · rintro ⟨written, after, hwritten, hafter, rfl⟩
      exact ⟨_, (writeFrom_some hrest).mpr ⟨written, after, hwritten, hafter, rfl⟩, by
        simp only [List.append_assoc]⟩
    · rintro ⟨_, hrest', rfl⟩
      obtain ⟨written, after, hwritten, hafter, rfl⟩ := (writeFrom_some hrest).mp hrest'
      exact ⟨written, after, hwritten, hafter, by simp only [List.append_assoc]⟩

/-- A name is replaced by its value. -/
theorem writeFrom_name (hname : slash ∉ name) (hrest : Ends rest) :
    writeFrom args (colon :: name ++ rest) = .ok out ↔ ∃ written after,
      fill args (colon :: name) = .ok written ∧ writeFrom args rest = .ok after ∧
        out = written ++ after := by
  have hcut : cut colon (colon :: name ++ rest) = ([], some (name ++ rest)) :=
    Text.cut_append List.not_mem_nil (name ++ rest)
  have hsome : (cut colon (colon :: name ++ rest)).2 = some (name ++ rest) := by rw [hcut]
  rw [writeFrom_some hsome, hcut, segmentEnd_name hname hrest, List.take_left, List.drop_left]
  rfl

/-- A segment of either kind is filled, and the rest written behind it. -/
theorem writeFrom_piece (h : Routing.Sound seg) (hslash : slash ∉ seg) (hrest : Ends rest) :
    writeFrom args (seg ++ rest) = .ok out ↔ ∃ written after,
      fill args seg = .ok written ∧ writeFrom args rest = .ok after ∧ out = written ++ after := by
  rcases h with ⟨name, -, rfl, -⟩ | ⟨hcolon, -⟩
  · exact writeFrom_name (fun hmem => hslash (List.mem_cons_of_mem _ hmem)) hrest
  · have hfill : fill args seg = .ok seg := if_neg fun hhead => hcolon (List.mem_of_mem_head? hhead)
    rw [writeFrom_text hcolon, hfill]
    constructor
    · rintro ⟨after, hafter, rfl⟩
      exact ⟨seg, after, rfl, hafter, rfl⟩
    · rintro ⟨written, after, hwritten, hafter, rfl⟩
      cases hwritten
      exact ⟨after, hafter, rfl⟩

theorem writeFrom_plain (h : colon ∉ text) : writeFrom args text = .ok text := by
  have hcut := Text.cut_none h
  have hnone : (cut colon text).2 = none := by rw [hcut]
  rw [writeFrom_none hnone, hcut]

/-- The segments of the pattern beside what is written for them. -/
abbrev Filled (args : Args) (ps filled : List Bytes) : Prop :=
  List.Forall₂ (fun seg part => fill args seg = .ok part) ps filled

/-- Segments joined by slashes are filled one by one, and joined as they were. -/
theorem writeFrom_pieces (hsound : ∀ seg ∈ ps, Routing.Sound seg ∧ slash ∉ seg) (hne : ps ≠ [])
    (htail : Ends text) (hcolon : colon ∉ text) :
    writeFrom args ([slash].intercalate ps ++ text) = .ok out ↔
      ∃ filled, Filled args ps filled ∧ out = [slash].intercalate filled ++ text := by
  induction ps generalizing out with
  | nil => exact absurd rfl hne
  | cons seg ps ih =>
    obtain ⟨⟨hseg, hslash⟩, hps⟩ := List.forall_mem_cons.mp hsound
    cases ps with
    | nil =>
      rw [List.intercalate_singleton, writeFrom_piece hseg hslash htail, writeFrom_plain hcolon]
      constructor
      · rintro ⟨written, after, hwritten, hafter, rfl⟩
        cases hafter
        exact ⟨[written], .cons hwritten .nil, by rw [List.intercalate_singleton]⟩
      · rintro ⟨filled, hfilled, rfl⟩
        cases hfilled with
        | cons hwritten hnil =>
          cases hnil
          exact ⟨_, text, hwritten, rfl, by rw [List.intercalate_singleton]⟩
    | cons next ps =>
      have hjoin : [slash].intercalate (seg :: next :: ps) ++ text =
          seg ++ ([slash] ++ ([slash].intercalate (next :: ps) ++ text)) := by
        rw [List.intercalate_cons_cons]
        simp only [List.append_assoc]
      have hslash' : colon ∉ [slash] := by decide
      rw [hjoin, writeFrom_piece hseg hslash (.inr rfl)]
      constructor
      · rintro ⟨written, after, hwritten, hafter, rfl⟩
        obtain ⟨behind, hbehind, rfl⟩ := (writeFrom_text hslash').mp hafter
        obtain ⟨filled, hfilled, rfl⟩ := (ih hps (List.cons_ne_nil _ _)).mp hbehind
        refine ⟨written :: filled, .cons hwritten hfilled, ?_⟩
        cases hfilled
        rw [List.intercalate_cons_cons]
        simp only [List.append_assoc]
      · rintro ⟨filled, hfilled, rfl⟩
        cases hfilled with
        | cons hwritten hfilled =>
          have hbehind := (ih hps (List.cons_ne_nil _ _)).mpr ⟨_, hfilled, rfl⟩
          refine ⟨_, _, hwritten, (writeFrom_text hslash').mpr ⟨_, hbehind, rfl⟩, ?_⟩
          cases hfilled
          rw [List.intercalate_cons_cons]
          simp only [List.append_assoc]

/-! ## What is checked of a pattern -/

theorem paramsOf_cut {before behind : Bytes} (h : colon ∉ before) :
    paramsOf (before ++ colon :: behind) = behind.take (segmentEnd behind) :: paramsOf behind := by
  have hcut := Text.cut_append h behind
  rw [paramsOf]
  split
  · next hnone =>
    rw [hcut] at hnone
    cases hnone
  · next nameAndRest hsome =>
    rw [hcut] at hsome
    cases hsome
    rfl

theorem paramsOf_none (h : colon ∉ text) : paramsOf text = [] := by
  have hcut := Text.cut_none h
  rw [paramsOf]
  split
  · rfl
  · next nameAndRest hsome =>
    rw [hcut] at hsome
    cases hsome

/-- A name that stands in a pattern is one that `check` looks at. -/
theorem mem_paramsOf (hname : slash ∉ name) (hrest : Ends rest) (before : Bytes) :
    name ∈ paramsOf (before ++ colon :: (name ++ rest)) := by
  induction hn : before.length using Nat.strong_induction_on generalizing before with
  | _ n ih =>
    by_cases hcolon : colon ∈ before
    · obtain ⟨first, second, rfl, hfirst⟩ := List.eq_append_cons_of_mem hcolon
      rw [List.append_assoc, List.cons_append, paramsOf_cut hfirst]
      refine List.mem_cons_of_mem _ (ih second.length ?_ second rfl)
      rw [← hn, List.length_append, List.length_cons]
      omega
    · rw [paramsOf_cut hcolon, segmentEnd_name hname hrest, List.take_left]
      exact List.mem_cons_self

/-! ## Reading back -/

/-- A piece of the path beside the segment of the pattern it was written for: a literal as it is, a
value as one segment that decodes to its text. -/
def Named (args : Args) (seg : Segment) (part : Bytes) : Prop :=
  match seg.kind with
  | .literal => part = seg.text
  | .wildcard => False
  | .param => ¬ Dotted part ∧ ∃ v, args.field seg.text = some v ∧ Percent.decode part false = v.text

/-- The names of a pattern. -/
def namesOf (pattern : Bytes) : List Bytes :=
  ((segmentsOf pattern).filter (·.kind = .param)).map (·.text)

/-- `decodeParams`: what a handler sees of the captured segments. -/
def decodeParams (params : List (Bytes × Bytes)) : List (Bytes × Bytes) :=
  params.map fun p => (p.1, Percent.decode p.2 false)

/-- A path reads back as the pattern and the values it was written of. -/
structure ReadsBack {α : Type} (d : Declared α) (args : Args) (path : Bytes) : Prop where
  segments : List.Forall₂ (Named args) (segmentsOf d.pattern) (segmentsIn path)
  answers : d.route.answers (splitPath (trimSlashes path)).items (splitPath (trimSlashes path)).deep = true
  captured : (decodeParams (Routing.Router.capture d.route (trimSlashes path)
    (splitPath (trimSlashes path)).items)).map (fun p => (p.1, some p.2)) =
      (namesOf d.pattern).map fun name => (name, (args.field name).map Value.text)

/-- What `validatePattern` and `check` see to. -/
structure Checked (pattern : Bytes) (args : Args) : Prop where
  valid : Routing.validatePattern pattern = true
  checked : check pattern args = true

namespace Checked

theorem head (h : Checked pattern args) : pattern.head? = some slash :=
  (Routing.accepted_of_validatePattern h.valid).1

/-- A segment stands in the pattern as it is. -/
theorem exists_pattern (h : Checked pattern args) (hseg : seg ∈ segmentsIn pattern) :
    ∃ before rest, Ends rest ∧ pattern = before ++ (seg ++ rest) := by
  obtain ⟨behind, hpattern, hbehind⟩ := Routing.pattern_eq h.head
  obtain ⟨before, rest, hends, heq⟩ := Routing.exists_intercalate hseg
  refine ⟨slash :: before, rest ++ behind, ?_, ?_⟩
  · rcases hends with rfl | hhead
    · rcases hbehind with rfl | ⟨rfl, -⟩
      · exact .inr rfl
      · exact .inl rfl
    · obtain ⟨after, rfl⟩ := List.head?_eq_some_iff.mp hhead
      exact .inr rfl
  · rw [hpattern, heq]
    simp only [List.append_assoc, List.cons_append]

theorem sound (h : Checked pattern args) :
    ∀ seg ∈ segmentsIn pattern, Routing.Sound seg ∧ slash ∉ seg := by
  intro seg hseg
  refine ⟨?_, Routing.slash_not_mem _ seg hseg⟩
  rcases Routing.sound_of_validatePattern h.valid seg hseg with rfl | hsound
  · obtain ⟨before, rest, -, hpattern⟩ := h.exists_pattern hseg
    have hstar := h.checked
    rw [check, hpattern] at hstar
    simp [Routing.wildcard] at hstar
  · exact hsound

theorem field (h : Checked pattern args) (hname : colon :: name ∈ segmentsIn pattern) :
    ∃ v, args.field name = some v := by
  obtain ⟨before, rest, hends, hpattern⟩ := h.exists_pattern hname
  have hslash : slash ∉ name := fun hmem =>
    Routing.slash_not_mem _ _ hname (List.mem_cons_of_mem colon hmem)
  have hmem : name ∈ paramsOf pattern := by
    rw [hpattern]
    exact mem_paramsOf hslash hends before
  have hchecked := h.checked
  rw [check, Bool.and_eq_true, Bool.and_eq_true, List.all_eq_true] at hchecked
  have hfield := (Bool.and_eq_true_iff.mp (hchecked.1.2 name hmem)).2
  exact Option.isSome_iff_exists.mp hfield

/-- Nothing is written but the segments, each filled, between the slashes of the pattern. -/
theorem write_iff (h : Checked pattern args) : ∃ behind,
    (behind = [slash] ∨ behind = [] ∧ ∀ l, l ≠ [] → segmentsIn pattern ≠ l ++ [[]]) ∧
      ∀ path, write pattern args = .ok path ↔ ∃ filled, Filled args (segmentsIn pattern) filled ∧
        path = slash :: ([slash].intercalate filled ++ behind) := by
  obtain ⟨behind, hpattern, hbehind⟩ := Routing.pattern_eq h.head
  refine ⟨behind, hbehind, fun path => ?_⟩
  have hends : Ends behind ∧ colon ∉ behind := by
    rcases hbehind with rfl | ⟨rfl, -⟩
    · exact ⟨.inr rfl, by decide⟩
    · exact ⟨.inl rfl, List.not_mem_nil⟩
  have hpieces (after : Bytes) :
      writeFrom args ([slash].intercalate (segmentsIn pattern) ++ behind) = .ok after ↔ ∃ filled,
        Filled args (segmentsIn pattern) filled ∧ after = [slash].intercalate filled ++ behind :=
    writeFrom_pieces h.sound (Routing.segmentsIn_ne_nil pattern) hends.1 hends.2
  have hwrite : write pattern args =
      writeFrom args ([slash] ++ ([slash].intercalate (segmentsIn pattern) ++ behind)) :=
    congrArg (writeFrom args) hpattern
  rw [hwrite, writeFrom_text (show colon ∉ [slash] by decide)]
  constructor
  · rintro ⟨after, hafter, rfl⟩
    obtain ⟨filled, hfilled, rfl⟩ := (hpieces after).mp hafter
    exact ⟨filled, hfilled, rfl⟩
  · rintro ⟨filled, hfilled, rfl⟩
    exact ⟨_, (hpieces _).mpr ⟨filled, hfilled, rfl⟩, rfl⟩

end Checked

/-! ## Segment by segment -/

/-- A literal is left as it is. -/
theorem fill_text (h : colon ∉ seg) : fill args seg = .ok seg :=
  if_neg fun hhead => h (List.mem_of_mem_head? hhead)

theorem fill_name {part : Bytes} : fill args (colon :: name) = .ok part ↔
    ∃ v, args.field name = some v ∧ ¬ v.Refused ∧ part = encode v.text := by
  rw [fill, if_pos List.head?_cons, List.tail_cons]
  cases args.field name with
  | none => exact ⟨nofun, fun ⟨_, hv, _⟩ => (nomatch hv)⟩
  | some v =>
    dsimp only
    rw [writeValue_ok_iff]
    constructor
    · intro h
      exact ⟨v, rfl, h⟩
    · rintro ⟨_, hv, h⟩
      cases hv
      exact h

/-- What is filled in is a segment of its own unless it is the name of an enum's value. -/
theorem named_iff {part : Bytes} (h : Routing.Sound seg) (hfill : fill args seg = .ok part) :
    Named args (Segment.of seg) part ↔
      ∀ name v, seg = colon :: name → args.field name = some v → ¬ v.BadTag := by
  rcases h with ⟨name, -, rfl, -⟩ | ⟨hcolon, hstar⟩
  · obtain ⟨v, hv, hrefused, rfl⟩ := fill_name.mp hfill
    have hdotted : Dotted (encode v.text) ↔ v.BadTag := by
      rw [dotted_encode, dotted_text_iff]
      exact ⟨fun hor => hor.resolve_left hrefused, .inr⟩
    rw [Routing.of_name, Named]
    dsimp only
    rw [hdotted]
    constructor
    · rintro ⟨hbad, -⟩ name' v' hname hv'
      cases hname
      rw [hv] at hv'
      cases hv'
      exact hbad
    · intro hbad
      exact ⟨hbad name v rfl hv, v, hv, Percent.decode_encodeInto v.text⟩
  · rw [fill_text hcolon, Except.ok.injEq] at hfill
    rw [Routing.of_text hcolon hstar]
    refine iff_of_true hfill.symm ?_
    rintro name v rfl
    exact absurd List.mem_cons_self hcolon

theorem slash_not_mem_fill {part : Bytes} (h : Routing.Sound seg) (hslash : slash ∉ seg)
    (hfill : fill args seg = .ok part) : slash ∉ part := by
  rcases h with ⟨name, -, rfl, -⟩ | ⟨hcolon, -⟩
  · obtain ⟨v, -, -, rfl⟩ := fill_name.mp hfill
    exact slash_not_mem_encode v.text
  · rw [fill_text hcolon] at hfill
    cases hfill
    exact hslash

theorem exists_filled (h : Filled args ps filled) {part : Bytes} (hpart : part ∈ filled) :
    ∃ seg ∈ ps, fill args seg = .ok part := by
  induction h with
  | nil => cases hpart
  | cons hfirst _ ih =>
    rcases List.mem_cons.mp hpart with rfl | hrest
    · exact ⟨_, List.mem_cons_self, hfirst⟩
    · obtain ⟨seg, hseg, hfill⟩ := ih hrest
      exact ⟨seg, List.mem_cons_of_mem _ hseg, hfill⟩

theorem filled_of_seg (h : Filled args ps filled) (hseg : seg ∈ ps) :
    ∃ part ∈ filled, fill args seg = .ok part := by
  induction h with
  | nil => cases hseg
  | cons hfirst _ ih =>
    rcases List.mem_cons.mp hseg with rfl | hrest
    · exact ⟨_, List.mem_cons_self, hfirst⟩
    · obtain ⟨part, hpart, hfill⟩ := ih hrest
      exact ⟨part, List.mem_cons_of_mem _ hpart, hfill⟩

/-- Every segment can be filled as long as no text is refused. -/
theorem exists_filled_of (h : ∀ seg ∈ ps, ∃ part, fill args seg = .ok part) :
    ∃ filled, Filled args ps filled := by
  induction ps with
  | nil => exact ⟨[], .nil⟩
  | cons seg ps ih =>
    obtain ⟨⟨part, hpart⟩, hps⟩ := List.forall_mem_cons.mp h
    obtain ⟨filled, hfilled⟩ := ih hps
    exact ⟨part :: filled, .cons hpart hfilled⟩

/-- The segments of a written path are what was filled in, or one fewer: an empty tag at the end. -/
theorem segmentsIn_written {path behind : Bytes} (h : Checked pattern args)
    (hfilled : Filled args (segmentsIn pattern) filled)
    (hbehind : behind = [slash] ∨ behind = [] ∧ ∀ l, l ≠ [] → segmentsIn pattern ≠ l ++ [[]])
    (hpath : path = slash :: ([slash].intercalate filled ++ behind)) :
    segmentsIn path = filled ∨ (segmentsIn path).length < (segmentsIn pattern).length ∧
      ∃ name v, colon :: name ∈ segmentsIn pattern ∧ args.field name = some v ∧ v.BadTag := by
  have hslash : ∀ part ∈ filled, slash ∉ part := by
    intro part hpart
    obtain ⟨seg, hseg, hfill⟩ := exists_filled hfilled hpart
    exact slash_not_mem_fill (h.sound seg hseg).1 (h.sound seg hseg).2 hfill
  have hlength := hfilled.length_eq
  have hne : filled ≠ [] := by
    rintro rfl
    exact Routing.segmentsIn_ne_nil pattern (List.eq_nil_of_length_eq_zero hlength)
  rcases hbehind with rfl | ⟨rfl, hlast⟩
  · exact .inl (hpath ▸ Routing.segmentsIn_behind hslash hne)
  · rw [List.append_nil] at hpath
    rcases Routing.segmentsIn_join hslash hne with heq | ⟨l, hl, rfl, heq⟩
    · exact .inl (hpath ▸ heq)
    · refine .inr ⟨?_, ?_⟩
      · rw [hpath, heq, hlength, List.length_append]
        exact Nat.lt_succ_self l.length
      · have hdrop := List.forall₂_drop_append _ _ _ hfilled
        obtain ⟨seg, rest, hfill, hnil, hsegs⟩ := List.forall₂_cons_right_iff.mp hdrop
        rw [List.forall₂_nil_right_iff] at hnil
        subst hnil
        have hpattern := List.take_append_drop l.length (segmentsIn pattern)
        rw [hsegs] at hpattern
        have hseg : seg ∈ segmentsIn pattern := by
          rw [← hpattern]
          exact List.mem_append_right _ List.mem_cons_self
        rcases (h.sound seg hseg).1 with ⟨name, -, rfl, -⟩ | ⟨hcolon, -⟩
        · obtain ⟨v, hv, hrefused, hnil⟩ := fill_name.mp hfill
          have hdotted : Dotted v.text := dotted_encode.mp (.inl hnil.symm)
          exact ⟨name, v, hseg, hv, (dotted_text_iff.mp hdotted).resolve_left hrefused⟩
        · rw [fill_text hcolon] at hfill
          cases hfill
          refine absurd hpattern.symm (hlast _ fun htake => hl ?_)
          rw [List.length_append, List.length_singleton] at hlength
          have hlen := congrArg List.length htake
          rw [List.length_take, hlength, List.length_nil] at hlen
          exact List.eq_nil_of_length_eq_zero (by omega)

/-! ## The pattern answers the path -/

section
variable {segs : List Segment} {parts : List Bytes}

theorem Named.fits {seg : Segment} {part : Bytes} (h : Named args seg part) :
    seg.shape.fits part = true := by
  rw [Named] at h
  rw [Segment.shape]
  cases hkind : seg.kind with
  | literal =>
    rw [hkind] at h
    exact decide_eq_true h.symm
  | param =>
    rw [hkind] at h
    exact decide_eq_true fun hnil => h.1 (.inl hnil)
  | wildcard =>
    rw [hkind] at h
    exact h.elim

theorem fits_of_named (h : List.Forall₂ (Named args) segs parts) :
    Routing.Fits (segs.map Segment.shape) false parts false := by
  induction h with
  | nil => exact .inr rfl
  | cons hfirst _ ih => exact ⟨hfirst.fits, ih⟩

/-- What is captured decodes to the values, name by name. -/
theorem captured_of_named (h : List.Forall₂ (Named args) segs parts) :
    (decodeParams (((segs.zip parts).filter (·.1.kind = .param)).map fun p => (p.1.text, p.2))).map
        (fun p => (p.1, some p.2)) =
      ((segs.filter (·.kind = .param)).map (·.text)).map fun name =>
        (name, (args.field name).map Value.text) := by
  induction h with
  | nil => rfl
  | @cons seg part segs parts hfirst _ ih =>
    rw [List.zip_cons_cons, List.filter_cons, List.filter_cons]
    by_cases hkind : seg.kind = .param
    · rw [Named, hkind] at hfirst
      obtain ⟨-, v, hv, htext⟩ := hfirst
      rw [if_pos (decide_eq_true hkind), if_pos (decide_eq_true hkind)]
      simp only [List.map_cons, decodeParams] at ih ⊢
      rw [ih, hv, htext]
      rfl
    · rw [if_neg (by simpa using hkind), if_neg (by simpa using hkind)]
      exact ih

end

theorem not_wildcardTail (h : Checked pattern args) :
    Routing.endsInWildcard (segmentsOf pattern) = false := by
  rw [Routing.endsInWildcard]
  split
  · next seg hlast =>
    have hmem := List.mem_of_getLast? hlast
    obtain ⟨text, htext, rfl⟩ := List.mem_map.mp hmem
    exact decide_eq_false (h.sound text htext).1.kind
  · rfl

theorem readsBack_of_named {α : Type} {d : Declared α} {path : Bytes} (h : Checked d.pattern args)
    (hnamed : List.Forall₂ (Named args) (segmentsOf d.pattern) (segmentsIn path)) :
    ReadsBack d args path := by
  have hwell : d.route.WellFormed := ⟨(Routing.accepted_of_validatePattern h.valid).2, rfl⟩
  have htail : d.route.wildcardTail = false := not_wildcardTail h
  have hfixed : d.route.fixedSegments = segmentsOf d.pattern := by
    rw [Routing.Route.fixedSegments, htail]
    rfl
  refine ⟨hnamed, ?_, ?_⟩
  · rw [hwell.answers_iff, hwell.fits_splitPath, Routing.Route.Answers, Routing.Route.shapes, htail, hfixed]
    exact fits_of_named hnamed
  · rw [Routing.Router.capture_eq hwell, Routing.Route.params, htail, hfixed, if_neg Bool.false_ne_true,
      List.append_nil]
    exact captured_of_named hnamed

/-- A text given for a name of the pattern is one that `write` refuses. -/
def RefusesText (pattern : Bytes) (args : Args) : Prop :=
  ∃ name ∈ namesOf pattern, ∃ v, args.field name = some v ∧ v.Refused

/-- No enum value given for a name of the pattern has a tag name that is empty, `.` or `..`. -/
def GoodTags (pattern : Bytes) (args : Args) : Prop :=
  ∀ name ∈ namesOf pattern, ∀ v, args.field name = some v → ¬ v.BadTag

theorem mem_namesOf (h : Checked pattern args) :
    name ∈ namesOf pattern ↔ colon :: name ∈ segmentsIn pattern := by
  rw [namesOf, List.mem_map]
  constructor
  · rintro ⟨seg, hseg, rfl⟩
    obtain ⟨hmem, hkind⟩ := List.mem_filter.mp hseg
    obtain ⟨text, htext, rfl⟩ := List.mem_map.mp hmem
    rcases (h.sound text htext).1 with ⟨name, -, rfl, -⟩ | ⟨hcolon, hstar⟩
    · rw [Routing.of_name]
      exact htext
    · rw [Routing.of_text hcolon hstar] at hkind
      cases hkind
  · intro hmem
    refine ⟨⟨name, .param⟩, List.mem_filter.mpr ⟨?_, rfl⟩, rfl⟩
    exact List.mem_map.mpr ⟨colon :: name, hmem, Routing.of_name⟩

/-- Each segment that was filled reads back, where the tag names are good ones. -/
theorem named_of_filled (hsound : ∀ seg ∈ ps, Routing.Sound seg) (hfilled : Filled args ps filled)
    (hgood : ∀ name v, colon :: name ∈ ps → args.field name = some v → ¬ v.BadTag) :
    List.Forall₂ (Named args) (ps.map Segment.of) filled := by
  induction hfilled with
  | nil => exact .nil
  | @cons seg part ps filled hfirst _ ih =>
    obtain ⟨hseg, hps⟩ := List.forall_mem_cons.mp hsound
    refine .cons ((named_iff hseg hfirst).mpr ?_) (ih hps ?_)
    · rintro name v rfl hv
      exact hgood name v List.mem_cons_self hv
    · intro name v hmem hv
      exact hgood name v (List.mem_cons_of_mem seg hmem) hv

theorem good_of_named (hsound : ∀ seg ∈ ps, Routing.Sound seg) (hfilled : Filled args ps filled)
    (hnamed : List.Forall₂ (Named args) (ps.map Segment.of) filled) :
    ∀ name v, colon :: name ∈ ps → args.field name = some v → ¬ v.BadTag := by
  induction hfilled with
  | nil =>
    intro name v hmem
    cases hmem
  | @cons seg part ps filled hfirst _ ih =>
    obtain ⟨hseg, hps⟩ := List.forall_mem_cons.mp hsound
    rw [List.map_cons, List.forall₂_cons] at hnamed
    intro name v hmem hv
    rcases List.mem_cons.mp hmem with heq | hmem
    · exact (named_iff hseg hfirst).mp hnamed.1 name v heq.symm hv
    · exact ih hps hnamed.2 name v hmem hv

/-- What is written reads back exactly where every enum's tag name could have been a text. -/
theorem built_iff {α : Type} (d : Declared α) (args : Args)
    (hvalid : Routing.validatePattern d.pattern = true) (hcheck : check d.pattern args = true) :
    (∀ path, write d.pattern args = .ok path → ReadsBack d args path) ↔
      RefusesText d.pattern args ∨ GoodTags d.pattern args := by
  have h : Checked d.pattern args := ⟨hvalid, hcheck⟩
  have hsound : ∀ seg ∈ segmentsIn d.pattern, Routing.Sound seg := fun seg hseg => (h.sound seg hseg).1
  obtain ⟨behind, hbehind, hwrite⟩ := h.write_iff
  constructor
  · intro hreads
    by_cases hrefuses : RefusesText d.pattern args
    · exact .inl hrefuses
    · refine .inr fun name hname v hv hbad => ?_
      -- every segment can be filled, so there is a path
      have hfills : ∀ seg ∈ segmentsIn d.pattern, ∃ part, fill args seg = .ok part := by
        intro seg hseg
        rcases hsound seg hseg with ⟨other, -, rfl, -⟩ | ⟨hcolon, -⟩
        · obtain ⟨w, hw⟩ := h.field hseg
          exact ⟨_, fill_name.mpr ⟨w, hw, fun href => hrefuses ⟨other, (mem_namesOf h).mpr hseg, w, hw, href⟩,
            rfl⟩⟩
        · exact ⟨seg, fill_text hcolon⟩
      obtain ⟨filled, hfilled⟩ := exists_filled_of hfills
      have hread := hreads _ ((hwrite _).mpr ⟨filled, hfilled, rfl⟩)
      have hlength := hread.segments.length_eq
      rw [segmentsOf, List.length_map] at hlength
      rcases segmentsIn_written h hfilled hbehind rfl with heq | ⟨hlt, -⟩
      · have hnamed := hread.segments
        rw [heq] at hnamed
        exact good_of_named hsound hfilled hnamed name v ((mem_namesOf h).mp hname) hv hbad
      · exact absurd hlength (Nat.ne_of_gt hlt)
  · intro hcond path hpath
    obtain ⟨filled, hfilled, hjoined⟩ := (hwrite path).mp hpath
    have hgood : ∀ name v, colon :: name ∈ segmentsIn d.pattern → args.field name = some v → ¬ v.BadTag := by
      rcases hcond with ⟨name, hname, v, hv, hrefused⟩ | hgood
      · obtain ⟨part, -, hfill⟩ := filled_of_seg hfilled ((mem_namesOf h).mp hname)
        obtain ⟨w, hw, hnot, -⟩ := fill_name.mp hfill
        rw [hv] at hw
        cases hw
        exact absurd hrefused hnot
      · exact fun name v hmem hv => hgood name ((mem_namesOf h).mpr hmem) v hv
    refine readsBack_of_named h ?_
    rcases segmentsIn_written h hfilled hbehind hjoined with heq | ⟨-, name, v, hmem, hv, hbad⟩
    · rw [heq]
      exact named_of_filled hsound hfilled hgood
    · exact absurd hbad (hgood name v hmem hv)

/-! ## A tag name that climbs -/

/-- Settings of somebody, by a name. -/
def settings : Declared Unit := ⟨.get, Routing.everyListener, ascii "/u/:name/settings", ()⟩

def onlyName (v : Value) : Args := ⟨[(ascii "name", v)], List.pairwise_singleton _ _⟩

theorem settings_valid : Routing.validatePattern settings.pattern = true := by decide

theorem settings_params : paramsOf settings.pattern = [ascii "name"] := by
  have hname : (ascii "name/settings").take (segmentEnd (ascii "name/settings")) = ascii "name" := by
    decide
  have hcut : paramsOf (ascii "/u/" ++ colon :: ascii "name/settings") =
      (ascii "name/settings").take (segmentEnd (ascii "name/settings")) ::
        paramsOf (ascii "name/settings") := paramsOf_cut (by decide)
  rw [hname, paramsOf_none (show colon ∉ ascii "name/settings" by decide)] at hcut
  exact hcut

theorem settings_check (v : Value) : check settings.pattern (onlyName v) = true := by
  rw [check, settings_params]
  rfl

theorem built_iff_text : (∀ path, write settings.pattern (onlyName (.str (ascii "a/b"))) = .ok path →
    ReadsBack settings (onlyName (.str (ascii "a/b"))) path) ↔
      RefusesText settings.pattern (onlyName (.str (ascii "a/b"))) ∨
        GoodTags settings.pattern (onlyName (.str (ascii "a/b"))) :=
  built_iff settings _ settings_valid (settings_check _)

theorem dotTag_climbs : ¬ ∀ (d : Declared Unit) (args : Args),
    Routing.validatePattern d.pattern = true → check d.pattern args = true →
      ∀ path, write d.pattern args = .ok path → ReadsBack d args path := by
  intro hall
  have hcut : cut colon settings.pattern = (ascii "/u/", some (ascii "name/settings")) := by decide
  have hwrite : write settings.pattern (onlyName (.tag (ascii ".."))) = .ok (ascii "/u/../settings") := by
    refine (writeFrom_some (congrArg Prod.snd hcut)).mpr ⟨ascii "..", ascii "/settings", ?_, ?_, ?_⟩
    · rfl
    · exact writeFrom_plain (by decide)
    · decide
  have hread := (hall settings (onlyName (.tag (ascii ".."))) settings_valid (settings_check _) _ hwrite).segments
  have hsegs : segmentsOf settings.pattern = [⟨ascii "u", .literal⟩, ⟨ascii "name", .param⟩,
    ⟨ascii "settings", .literal⟩] := by decide
  have hparts : segmentsIn (ascii "/u/../settings") = [ascii "u", ascii "..", ascii "settings"] := by
    decide
  rw [hsegs, hparts, List.forall₂_cons, List.forall₂_cons] at hread
  exact hread.2.1.1 (.inr (.inr rfl))

end Nilo.Url
