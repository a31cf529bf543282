import Nilo.Hpack.Table

/-!
# Reading a header block (`Decoder.decode`, `http/hpack.zig`)

The loop over a block: each turn reads one representation, and with it a size update of the table or
a field, which counts against the limit of the list, is copied where it is kept, and goes into the
table where it says so.

Over it stands the RFC's reading of a block: what its representations are (`Rep`, §6), and what each
does to the table of `Rfc`. `decode_eq` is the refinement: one decoder, whatever the limit of the
list is, whose fields are the RFC's up to that limit.
-/

namespace Nilo.Hpack

open Text (Bytes)
open Mem (Fault Run)
open Lib (Front fitting total)

/-! ## The loop -/

/-- One string literal (§5.2): a Huffman flag, a length, and the bytes. -/
def readString : Read Bytes := fun block =>
  match block with
  | [] => .error .compression
  | b :: _ => do
    let (len, rest) ← readInt 7 block
    if len > rest.length then .error .compression
    else if b &&& 0x80 = 0 then .ok (rest.take len, rest.drop len)
    else
      let text ← huffmanDecode (rest.take len)
      .ok (text, rest.drop len)

/-- A check of the build. -/
def checked {α : Type} (r : Run α) : Except Stop α := r.mapError .fault

/-- The name of a literal, and whether it is in the client's table. -/
def Decoder.readName (self : Decoder) (width : Nat) : Read (Slice × Bool) := do
  let index ← readInt width
  if index = 0 then
    let name ← readString
    pure (.owned name, false)
  else
    let (field, isStatic) ← Front.lift (self.lookup index)
    pure (field.name, !isStatic)

/-- With incremental indexing the index has six bits; without it, and never-indexed, four (§6.2). -/
def isIncremental (b : UInt8) : Bool := b &&& 0xc0 == 0x40

structure Found where
  field : RefField
  inTable : Bool
  incremental : Bool

/-- The field that begins with the byte `b`. -/
def Decoder.readField (self : Decoder) (b : UInt8) : Read Found :=
  if b &&& 0x80 ≠ 0 then do
    let index ← readInt 7
    let (field, isStatic) ← Front.lift (self.lookup index)
    pure ⟨field, !isStatic, false⟩
  else do
    let (name, inTable) ← self.readName (if isIncremental b then 6 else 4)
    let value ← readString
    pure ⟨⟨name, .owned value⟩, inTable, isIncremental b⟩

/-- A field's bytes out of the table. Of a literal only the name is in it. -/
def Decoder.copy (self : Decoder) (b : UInt8) (f : RefField) : Run RefField := do
  let name ← self.read f.name
  let value ← (if b &&& 0x80 ≠ 0 then (self.read f.value).map .owned else .ok f.value)
  pure ⟨.owned name, value⟩

/-- What the loop holds between two turns. -/
structure Progress where
  decoder : Decoder
  first : Bool
  listed : Nat
  overLimit : Bool
  out : List RefField

/-- What is done with a field: it is counted before it is copied, and copied before it is inserted. -/
def Progress.take (p : Progress) (maxList : Nat) (b : UInt8) (found : Found) : Run Progress := do
  let listed := p.listed + (found.field.name.len + found.field.value.len + entryOverhead)
  let kept := decide (listed ≤ maxList)
  let field ← (if kept && found.inTable then p.decoder.copy b found.field else .ok found.field)
  let decoder ← (if found.incremental then p.decoder.insert field else .ok p.decoder)
  pure
    { decoder := decoder
      first := false
      listed := listed
      overLimit := p.overLimit || !kept
      out := if kept then p.out ++ [field] else p.out }

/-- One turn: a size update, which may stand only before the first field (§4.2), or a field. -/
def blockTurn (maxList : Nat) (p : Progress) (b : UInt8) : Read Progress :=
  if b &&& 0xe0 = 0x20 then
    if !p.first then Front.fail .compression
    else do
      let size ← readInt 5
      if size > p.decoder.allowed then Front.fail .compression
      else
        let decoder ← Front.lift (checked ({ p.decoder with capacity := size }.evictTo size))
        pure { p with decoder := { decoder with owedUpdate := false } }
  else if p.first && p.decoder.owedUpdate then Front.fail .compression
  else do
    let found ← p.decoder.readField b
    Front.lift (checked (p.take maxList b found))

/-- The decoder as it is left, also by an error, and the fields that were kept with whether there
were more. The turns are at most the bytes of the block. -/
def blockWithin (maxList : Nat) :
    Nat → Progress → Bytes → Decoder × Except Stop (List RefField × Bool)
  | _, p, [] =>
    (p.decoder,
      if p.first && p.decoder.owedUpdate then .error .compression else .ok (p.out, p.overLimit))
  | 0, p, _ :: _ => (p.decoder, .error (.fault .range))
  | n + 1, p, b :: rest =>
    match blockTurn maxList p b (b :: rest) with
    | .error e => (p.decoder, .error e)
    | .ok (p, rest) => blockWithin maxList n p rest

/-- One whole header block, of whose fields `maxList` are kept, by §4.1's count. -/
def Decoder.decode (self : Decoder) (block : Bytes) (maxList : Nat) :
    Decoder × Except Stop (List RefField × Bool) :=
  blockWithin maxList block.length ⟨self, true, 0, false, []⟩ block

/-! ## The RFC's reading of a block -/

/-- §6.2: the name of a literal, by index or in full. -/
inductive Name where
  | index (i : Nat)
  | text (b : Bytes)
deriving DecidableEq, Repr

/-- §6: the representations a block is made of. -/
inductive Rep where
  | sizeUpdate (size : Nat)
  | indexed (index : Nat)
  | literal (incremental : Bool) (name : Name) (value : Bytes)
deriving DecidableEq, Repr

def readNameRep (width : Nat) : Read Name := do
  let index ← readInt width
  if index = 0 then
    let name ← readString
    pure (.text name)
  else pure (.index index)

def readFieldRep (b : UInt8) : Read Rep :=
  if b &&& 0x80 ≠ 0 then do
    let index ← readInt 7
    pure (.indexed index)
  else do
    let name ← readNameRep (if isIncremental b then 6 else 4)
    let value ← readString
    pure (.literal (isIncremental b) name value)

def readRep (b : UInt8) : Read Rep :=
  if b &&& 0xe0 = 0x20 then do
    let size ← readInt 5
    pure (.sizeUpdate size)
  else readFieldRep b

def Rep.isUpdate : Rep → Bool
  | .sizeUpdate _ => true
  | _ => false

def Rep.incremental : Rep → Bool
  | .literal incremental _ _ => incremental
  | _ => false

def Rfc.name (t : Rfc) : Name → Option Bytes
  | .index i => (t.lookup i).map Field.name
  | .text b => some b

/-- The field of a representation, by the table it is read with. -/
def Rfc.field (t : Rfc) : Rep → Option Field
  | .sizeUpdate _ => none
  | .indexed index => t.lookup index
  | .literal _ name value => (t.name name).map fun name => ⟨name, value⟩

/-- What a representation does to the table, and the field it stands for, if any. -/
def Rfc.turn (t : Rfc) (first : Bool) (rep : Rep) : Option (Rfc × List Field) :=
  match rep with
  | .sizeUpdate size => if first && decide (size ≤ t.allowed) then some (t.resize size, []) else none
  | rep =>
    if first && t.owedUpdate then none
    else (t.field rep).map fun f => (if rep.incremental then t.insert f else t, [f])

/-- The table as it is left, and the fields, unless the block is refused. -/
def Rfc.decodeWithin : Nat → Rfc → Bool → Bytes → Rfc × Option (List Field)
  | _, t, first, [] => (t, if first && t.owedUpdate then none else some [])
  | 0, t, _, _ :: _ => (t, none)
  | n + 1, t, first, b :: rest =>
    match readRep b (b :: rest) with
    | .error _ => (t, none)
    | .ok (rep, rest) =>
      match t.turn first rep with
      | none => (t, none)
      | some (t, fields) =>
        let (t, more) := Rfc.decodeWithin n t rep.isUpdate rest
        (t, more.map (fields ++ ·))

def Rfc.decode (t : Rfc) (block : Bytes) : Rfc × Option (List Field) :=
  t.decodeWithin block.length true block

/-- What is kept of a block's fields under the limit, in bytes of the decoder's own, and whether
there were more. -/
def listedWithin (maxList : Nat) (all : List Field) : List RefField × Bool :=
  ((fitting Field.weight maxList all).map Field.owned, decide (maxList < total Field.weight all))

/-! ## The readers fail with `error.Compression` alone -/

theorem readInt_error {n : Nat} (hn : n ≤ 8) {block : Bytes} {e : Stop}
    (h : readInt n block = .error e) : e = .compression := by
  cases e with
  | compression => rfl
  | fault f => exact absurd h (readInt_no_fault hn block f)

theorem huffmanDecode_error {input : Bytes} {e : Stop} (h : huffmanDecode input = .error e) :
    e = .compression := by
  rw [huffmanDecode_eq] at h
  split at h
  · cases h
  · cases h
    rfl

theorem readString_error {block : Bytes} {e : Stop} (h : readString block = .error e) :
    e = .compression := by
  cases block with
  | nil =>
    cases h
    rfl
  | cons b rest =>
    rw [readString] at h
    cases hlen : readInt 7 (b :: rest) with
    | error e' =>
      rw [hlen] at h
      cases h
      exact readInt_error (by decide) hlen
    | ok got =>
      rw [hlen] at h
      change (if got.1 > got.2.length then _ else _) = _ at h
      split_ifs at h with hlong hraw
      · cases h
        rfl
      · cases htext : huffmanDecode (got.2.take got.1) with
        | error e' =>
          rw [htext] at h
          cases h
          exact huffmanDecode_error htext
        | ok text =>
          rw [htext] at h
          cases h

/-! ## A field -/

variable {d : Decoder} {t : Rfc}

/-- The name of a literal is read as the RFC's, and is the reader's own unless it is in the table. -/
theorem Refines.readName (h : Refines d t) {width : Nat} (hwidth : width ≤ 8) (b : Bytes) :
    match readNameRep width b with
    | .error _ => d.readName width b = .error .compression
    | .ok (n, rest) =>
      match t.name n with
      | none => d.readName width b = .error .compression
      | some name => ∃ s inTable, d.readName width b = .ok ((s, inTable), rest) ∧
          d.read s = .ok name ∧ s.len = name.length ∧ (inTable = false → s = .owned name) := by
  rw [readNameRep, Decoder.readName, Front.bind_apply, Front.bind_apply]
  cases hindex : readInt width b with
  | error e => exact congrArg _ (readInt_error hwidth hindex)
  | ok got =>
    obtain ⟨index, rest⟩ := got
    by_cases hzero : index = 0
    · simp only [if_pos hzero, Front.bind_apply]
      cases hname : readString rest with
      | error e => exact congrArg _ (readString_error hname)
      | ok got => exact ⟨_, _, rfl, rfl, rfl, fun _ => rfl⟩
    · simp only [if_neg hzero, Front.bind_apply, Front.pure_apply, Rfc.name]
      have hlookup := h.lookup index
      cases hfield : t.lookup index with
      | none =>
        rw [hfield] at hlookup
        rw [hlookup]
        rfl
      | some f =>
        rw [hfield] at hlookup
        obtain ⟨r, isStatic, hgot, hreads, hown⟩ := hlookup
        rw [hgot]
        refine ⟨r.name, !isStatic, rfl, hreads.name, hreads.nameLen, fun hout => ?_⟩
        rw [hown (by simpa using hout)]
        rfl

/-- A field as it is found: its slices are read as the RFC's field, are the decoder's own unless
they are in the table, and the value of a literal always is. -/
structure Decoder.Finds (d : Decoder) (b : UInt8) (found : Found) (f : Field) (rep : Rep) : Prop where
  reads : d.Reads found.field f
  own : found.inTable = false → found.field = f.owned
  literal : b &&& 0x80 = 0 → found.field.value = .owned f.value
  incremental : found.incremental = rep.incremental

theorem Refines.readField (h : Refines d t) (b : UInt8) (block : Bytes) :
    match readFieldRep b block with
    | .error _ => d.readField b block = .error .compression
    | .ok (rep, rest) => rep.isUpdate = false ∧
      match t.field rep with
      | none => d.readField b block = .error .compression
      | some f => ∃ found, d.readField b block = .ok (found, rest) ∧ d.Finds b found f rep := by
  rw [readFieldRep, Decoder.readField]
  by_cases hindexed : b &&& 0x80 ≠ 0
  · rw [if_pos hindexed, if_pos hindexed, Front.bind_apply, Front.bind_apply]
    cases hindex : readInt 7 block with
    | error e => exact congrArg _ (readInt_error (by decide) hindex)
    | ok got =>
      obtain ⟨index, rest⟩ := got
      refine ⟨rfl, ?_⟩
      have hlookup := h.lookup index
      simp only [Front.bind_apply, Rfc.field]
      cases hfield : t.lookup index with
      | none =>
        rw [hfield] at hlookup
        rw [hlookup]
        rfl
      | some f =>
        rw [hfield] at hlookup
        obtain ⟨r, isStatic, hgot, hreads, hown⟩ := hlookup
        rw [hgot]
        exact ⟨_, rfl, hreads, fun hout => hown (by simpa using hout),
          fun hlit => absurd hlit hindexed, rfl⟩
  · have hwidth : (if isIncremental b then 6 else 4) ≤ 8 := by
      split <;> decide
    have hname := h.readName hwidth block
    rw [if_neg hindexed, if_neg hindexed, Front.bind_apply, Front.bind_apply]
    cases hrep : readNameRep (if isIncremental b then 6 else 4) block with
    | error e =>
      rw [hrep] at hname
      rw [hname]
    | ok got =>
      obtain ⟨n, rest⟩ := got
      rw [hrep] at hname
      simp only [Front.bind_apply] at hname ⊢
      cases hfield : t.name n with
      | none =>
        rw [hfield] at hname
        rw [hname]
        cases hvalue : readString rest with
        | error e => rfl
        | ok got => exact ⟨rfl, by simp only [Rfc.field, hfield, Option.map_none]⟩
      | some name =>
        rw [hfield] at hname
        obtain ⟨s, inTable, hgot, hread, hlen, hown⟩ := hname
        rw [hgot]
        simp only [Front.bind_apply]
        cases hvalue : readString rest with
        | error e => exact congrArg _ (readString_error hvalue)
        | ok got =>
          refine ⟨rfl, ?_⟩
          simp only [Rfc.field, hfield, Option.map_some]
          exact ⟨_, rfl, ⟨hread, rfl, hlen, rfl⟩, fun hout => by rw [hown hout]; rfl,
            fun _ => rfl, rfl⟩

/-! ## A turn -/

/-- What the loop holds when it has read the fields `all`. -/
def progressAt (maxList : Nat) (d : Decoder) (first : Bool) (all : List Field) : Progress :=
  ⟨d, first, total Field.weight all, decide (maxList < total Field.weight all),
    (fitting Field.weight maxList all).map Field.owned⟩

/-- What is inserted hangs on the bytes of a field and not on where they are. -/
theorem insert_reads {r : RefField} {f : Field} (h : d.Reads r f) : d.insert r = d.insert f.owned := by
  have hown := reads_owned d f
  rw [Decoder.insert, Decoder.insert, h.nameLen, h.valueLen, h.name, h.value, hown.nameLen,
    hown.valueLen, hown.name, hown.value]

theorem Decoder.Finds.copy {b : UInt8} {found : Found} {f : Field} {rep : Rep}
    (h : d.Finds b found f rep) : d.copy b found.field = .ok f.owned := by
  rw [Decoder.copy, h.reads.name]
  by_cases hindexed : b &&& 0x80 ≠ 0
  · rw [if_pos hindexed, h.reads.value]
    rfl
  · rw [if_neg hindexed, h.literal (not_not.mp hindexed)]
    rfl

/-- A field more: it is kept where all of them fit, and inserted whether it is kept or not. -/
theorem Decoder.Finds.take {b : UInt8} {found : Found} {f : Field} {rep : Rep} {d' : Decoder}
    (hfinds : d.Finds b found f rep)
    (hinsert : (if rep.incremental then d.insert f.owned else .ok d) = .ok d') (first : Bool)
    (maxList : Nat) (all : List Field) :
    (progressAt maxList d first all).take maxList b found =
      .ok (progressAt maxList d' false (all ++ [f])) := by
  have hlisted : total Field.weight all +
      (found.field.name.len + found.field.value.len + entryOverhead) =
      total Field.weight (all ++ [f]) := by
    rw [hfinds.reads.nameLen, hfinds.reads.valueLen, Lib.total_append]
    rfl
  have hsnoc := Lib.fitting_snoc Field.weight maxList all f
  have hover : (decide (maxList < total Field.weight all) ||
      !decide (total Field.weight (all ++ [f]) ≤ maxList)) =
      decide (maxList < total Field.weight (all ++ [f])) := by
    rw [Lib.total_append, Bool.eq_iff_iff]
    simp only [Bool.or_eq_true, Bool.not_eq_true', decide_eq_true_eq, decide_eq_false_iff_not]
    omega
  rw [Progress.take, progressAt]
  simp only [hlisted, hfinds.incremental, hover]
  by_cases hkept : total Field.weight (all ++ [f]) ≤ maxList
  · have hcopied : (if (decide (total Field.weight (all ++ [f]) ≤ maxList) && found.inTable) = true
        then d.copy b found.field else .ok found.field) = .ok f.owned := by
      rw [decide_eq_true hkept, Bool.true_and]
      by_cases hin : found.inTable = true
      · rw [if_pos hin, hfinds.copy]
      · rw [if_neg hin, hfinds.own (Bool.not_eq_true _ ▸ hin)]
    have hbefore : fitting Field.weight maxList all = all := by
      refine Lib.fitting_of_le _ (Nat.le_trans ?_ hkept)
      rw [Lib.total_append]
      exact Nat.le_add_right ..
    rw [hcopied, decide_eq_true hkept, hbefore]
    change (do
      let decoder ← (if rep.incremental = true then d.insert f.owned else .ok d)
      pure _ : Run Progress) = _
    rw [hinsert, progressAt, Lib.fitting_of_le _ hkept, List.map_append]
    rfl
  · have hsame : (if rep.incremental = true then d.insert found.field else .ok d) = .ok d' := by
      rw [insert_reads hfinds.reads, hinsert]
    rw [decide_eq_false hkept, Bool.false_and, if_neg Bool.false_ne_true]
    change (do
      let decoder ← (if rep.incremental = true then d.insert found.field else .ok d)
      pure _ : Run Progress) = _
    have hpast : ¬ total Field.weight all + f.weight ≤ maxList := by
      rwa [Lib.total_append] at hkept
    rw [hsame, progressAt, hsnoc, if_neg hpast]
    rfl

theorem Refines.insertIf (h : Refines d t) (incremental : Bool) (f : Field) :
    ∃ d', (if incremental then d.insert f.owned else .ok d) = .ok d' ∧
      Refines d' (if incremental then t.insert f else t) := by
  cases incremental with
  | true => exact h.insert (reads_owned d f)
  | false => exact ⟨d, rfl, h⟩

/-- A turn on what the RFC reads there: it is refused where that is, whatever the limit is. -/
def Follows (d : Decoder) (t : Rfc) (first : Bool) (b : UInt8) (block : Bytes) :
    Except Stop (Rep × Bytes) → Prop
  | .error _ => ∀ maxList all,
      blockTurn maxList (progressAt maxList d first all) b block = .error .compression
  | .ok (rep, rest) =>
    match t.turn first rep with
    | none => ∀ maxList all,
        blockTurn maxList (progressAt maxList d first all) b block = .error .compression
    | some (t', fields) => ∃ d', Refines d' t' ∧ ∀ maxList all,
        blockTurn maxList (progressAt maxList d first all) b block =
          .ok (progressAt maxList d' rep.isUpdate (all ++ fields), rest)

theorem Refines.follows_update (h : Refines d t) (first : Bool) {b : UInt8} (block : Bytes)
    (hupdate : b &&& 0xe0 = 0x20) : Follows d t first b block (readRep b block) := by
  have hturn : ∀ maxList all, blockTurn maxList (progressAt maxList d first all) b block =
      (if !first then Front.fail .compression
      else do
        let size ← readInt 5
        if size > d.allowed then Front.fail .compression
        else
          let decoder ← Front.lift (checked ({ d with capacity := size }.evictTo size))
          pure { progressAt maxList d first all with
            decoder := { decoder with owedUpdate := false } } : Read Progress) block := by
    intro maxList all
    rw [blockTurn, if_pos hupdate]
    rfl
  rw [readRep, if_pos hupdate, Front.bind_apply]
  cases hsize : readInt 5 block with
  | error e =>
    intro maxList all
    rw [hturn]
    cases first with
    | false => rfl
    | true =>
      rw [if_neg (by decide), Front.bind_apply, hsize]
      exact congrArg _ (readInt_error (by decide) hsize)
  | ok got =>
    obtain ⟨size, rest⟩ := got
    simp only [Front.pure_apply, Follows, Rfc.turn, hturn]
    cases first with
    | false => exact fun _ _ => rfl
    | true =>
      rw [Bool.true_and, ← h.allowed]
      by_cases hallowed : size ≤ d.allowed
      · obtain ⟨d', hevict, hrefines⟩ := h.resize size
        rw [decide_eq_true hallowed, if_pos rfl]
        refine ⟨_, hrefines, fun maxList all => ?_⟩
        rw [if_neg (by decide), Front.bind_apply, hsize]
        simp only [if_neg (Nat.not_lt_of_le hallowed), hevict, List.append_nil]
        rfl
      · rw [decide_eq_false hallowed, if_neg Bool.false_ne_true]
        intro maxList all
        rw [if_neg (by decide), Front.bind_apply, hsize]
        simp only [if_pos (Nat.lt_of_not_le hallowed)]
        rfl

/-- A field refuses a block that owes a size update, before it is read. -/
theorem turn_field {rep : Rep} (hrep : rep.isUpdate = false) (first : Bool) :
    t.turn first rep =
      if first && t.owedUpdate then none
      else (t.field rep).map fun f => (if rep.incremental then t.insert f else t, [f]) := by
  cases rep with
  | sizeUpdate size => cases hrep
  | indexed index => rfl
  | literal incremental name value => rfl

theorem Refines.follows_field (h : Refines d t) (first : Bool) {b : UInt8} (block : Bytes)
    (hfield : b &&& 0xe0 ≠ 0x20) : Follows d t first b block (readRep b block) := by
  have hturn : ∀ maxList all, blockTurn maxList (progressAt maxList d first all) b block =
      (if first && t.owedUpdate then Front.fail .compression
      else do
        let found ← d.readField b
        Front.lift (checked ((progressAt maxList d first all).take maxList b found)) :
        Read Progress) block := by
    intro maxList all
    rw [blockTurn, if_neg hfield, ← h.owedUpdate]
    rfl
  rw [readRep, if_neg hfield]
  have hfound := h.readField b block
  cases howed : first && t.owedUpdate with
  | true =>
    have hrefused : ∀ maxList all,
        blockTurn maxList (progressAt maxList d first all) b block = .error .compression := by
      intro maxList all
      rw [hturn, howed]
      rfl
    cases hrep : readFieldRep b block with
    | error e => exact hrefused
    | ok got =>
      obtain ⟨rep, rest⟩ := got
      rw [hrep] at hfound
      rw [Follows, turn_field hfound.1, howed]
      exact hrefused
  | false =>
    simp only [howed, Bool.false_eq_true, if_false, Front.bind_apply] at hturn
    cases hrep : readFieldRep b block with
    | error e =>
      rw [hrep] at hfound
      intro maxList all
      rw [hturn, hfound]
    | ok got =>
      obtain ⟨rep, rest⟩ := got
      rw [hrep] at hfound
      obtain ⟨hkind, hfound⟩ := hfound
      rw [Follows, turn_field hkind, howed, if_neg Bool.false_ne_true]
      cases hf : t.field rep with
      | none =>
        rw [hf] at hfound
        intro maxList all
        rw [hturn, hfound]
      | some f =>
        rw [hf] at hfound
        obtain ⟨found, hgot, hfinds⟩ := hfound
        obtain ⟨d', hinsert, hrefines⟩ := h.insertIf rep.incremental f
        refine ⟨d', hrefines, fun maxList all => ?_⟩
        rw [hturn, hgot, hkind]
        simp only [hfinds.take hinsert first]
        rfl

theorem Refines.follows (h : Refines d t) (first : Bool) (b : UInt8) (block : Bytes) :
    Follows d t first b block (readRep b block) := by
  by_cases hupdate : b &&& 0xe0 = 0x20
  · exact h.follows_update first block hupdate
  · exact h.follows_field first block hupdate

/-! ## A block -/

theorem readString_ok {block rest : Bytes} {text : Bytes} (h : readString block = .ok (text, rest)) :
    ∃ len mid, readInt 7 block = .ok (len, mid) ∧ len ≤ mid.length ∧ rest = mid.drop len := by
  cases block with
  | nil => cases h
  | cons b tail =>
    rw [readString] at h
    cases hlen : readInt 7 (b :: tail) with
    | error e =>
      rw [hlen] at h
      cases h
    | ok got =>
      rw [hlen] at h
      change (if got.1 > got.2.length then _ else _) = _ at h
      refine ⟨got.1, got.2, rfl, ?_⟩
      split_ifs at h with hlong hraw
      · cases h
        exact ⟨Nat.le_of_not_lt hlong, rfl⟩
      · cases htext : huffmanDecode (got.2.take got.1) with
        | error e =>
          rw [htext] at h
          cases h
        | ok text =>
          rw [htext] at h
          cases h
          exact ⟨Nat.le_of_not_lt hlong, rfl⟩

theorem takes_readString {block rest : Bytes} {text : Bytes}
    (h : readString block = .ok (text, rest)) : rest.length < block.length := by
  obtain ⟨len, mid, hlen, -, rfl⟩ := readString_ok h
  have := takes_readInt 7 _ _ _ hlen
  rw [List.length_drop]
  omega

theorem takes_readNameRep {width : Nat} {block rest : Bytes} {n : Name}
    (h : readNameRep width block = .ok (n, rest)) : rest.length < block.length := by
  obtain ⟨index, mid, hindex, hname⟩ := Front.bind_ok.mp h
  have hlt := takes_readInt width _ _ _ hindex
  split_ifs at hname with hzero
  · obtain ⟨name, mid', htext, hpure⟩ := Front.bind_ok.mp hname
    have := takes_readString htext
    cases hpure
    omega
  · cases hname
    exact hlt

/-- Every representation takes a byte at least, so the turns are no more than the bytes. -/
theorem takes_readRep {b : UInt8} {block rest : Bytes} {rep : Rep}
    (h : readRep b block = .ok (rep, rest)) : rest.length < block.length := by
  rw [readRep, readFieldRep] at h
  split_ifs at h
  · obtain ⟨size, mid, hsize, hpure⟩ := Front.bind_ok.mp h
    cases hpure
    exact takes_readInt 5 _ _ _ hsize
  · obtain ⟨index, mid, hindex, hpure⟩ := Front.bind_ok.mp h
    cases hpure
    exact takes_readInt 7 _ _ _ hindex
  all_goals
    obtain ⟨name, mid, hname, hvalue⟩ := Front.bind_ok.mp h
    obtain ⟨value, mid', hread, hpure⟩ := Front.bind_ok.mp hvalue
    have hlt := takes_readNameRep hname
    have hlt' := takes_readString hread
    cases hpure
    omega

/-- What a block of these fields is answered with. -/
def answer (maxList : Nat) : Option (List Field) → Except Stop (List RefField × Bool)
  | none => .error .compression
  | some all => .ok (listedWithin maxList all)

theorem Refines.block_end (h : Refines d t) (n : Nat) (first : Bool) (maxList : Nat)
    (all : List Field) : blockWithin maxList n (progressAt maxList d first all) [] =
      (d, answer maxList ((t.decodeWithin n first []).2.map (all ++ ·))) := by
  rw [blockWithin, Rfc.decodeWithin, ← h.owedUpdate, progressAt]
  cases first && d.owedUpdate with
  | true => rfl
  | false =>
    simp only [Bool.false_eq_true, if_false, Option.map_some, List.append_nil]
    rfl

/-- The loop from where the fields `all` are read, by induction on the turns left. -/
theorem Refines.block (h : Refines d t) {n : Nat} {first : Bool} {block : Bytes}
    (hn : block.length ≤ n) : ∃ d', Refines d' (t.decodeWithin n first block).1 ∧
      ∀ maxList all, blockWithin maxList n (progressAt maxList d first all) block =
        (d', answer maxList ((t.decodeWithin n first block).2.map (all ++ ·))) := by
  induction n generalizing d t first block with
  | zero =>
    obtain rfl := List.length_eq_zero_iff.mp (Nat.le_zero.mp hn)
    exact ⟨d, h, h.block_end 0 first⟩
  | succ n ih =>
    cases block with
    | nil => exact ⟨d, h, h.block_end (n + 1) first⟩
    | cons b tail =>
      have hturn := h.follows first b (b :: tail)
      simp only [blockWithin]
      rw [Rfc.decodeWithin]
      cases hrep : readRep b (b :: tail) with
      | error e =>
        rw [hrep] at hturn
        refine ⟨d, h, fun maxList all => ?_⟩
        rw [hturn]
        rfl
      | ok got =>
        obtain ⟨rep, rest⟩ := got
        have hlt := takes_readRep hrep
        rw [hrep, Follows] at hturn
        rw [List.length_cons] at hn hlt
        cases hnext : t.turn first rep with
        | none =>
          rw [hnext] at hturn
          simp only [hnext]
          refine ⟨d, h, fun maxList all => ?_⟩
          rw [hturn]
          rfl
        | some got =>
          obtain ⟨t', fields⟩ := got
          rw [hnext] at hturn
          obtain ⟨d', hrefines, hgo⟩ := hturn
          obtain ⟨d'', hrefines', hrest⟩ := @ih d' t' hrefines rep.isUpdate rest (by omega)
          simp only [hnext]
          refine ⟨d'', hrefines', fun maxList all => ?_⟩
          rw [hgo]
          simp only [hrest, Option.map_map, Function.comp_def, List.append_assoc]

/-- A block is read as the RFC reads it, and into one table whatever the limit of the list is. -/
theorem Refines.decode (h : Refines d t) (block : Bytes) :
    ∃ d', Refines d' (t.decode block).1 ∧
      ∀ maxList, d.decode block maxList = (d', answer maxList (t.decode block).2) := by
  obtain ⟨d', hrefines, hgo⟩ := @Refines.block d t h block.length true block (Nat.le_refl _)
  refine ⟨d', hrefines, fun maxList => ?_⟩
  have hstart := hgo maxList []
  simp only [List.nil_append, Option.map_id'] at hstart
  exact hstart

/-! ## A connection -/

/-- What a connection does with its decoder. -/
inductive Event where
  | block (bytes : Bytes) (maxList : Nat)
  | allow (max : Nat)
deriving DecidableEq, Repr

/-- The decoder after these, and the answer to each block. -/
def Decoder.after (self : Decoder) :
    List Event → Decoder × List (Except Stop (List RefField × Bool))
  | [] => (self, [])
  | .allow max :: rest => (self.allow max).after rest
  | .block bytes maxList :: rest =>
    let (d, got) := self.decode bytes maxList
    let (d, more) := d.after rest
    (d, got :: more)

def Rfc.after (t : Rfc) : List Event → Rfc × List (Except Stop (List RefField × Bool))
  | [] => (t, [])
  | .allow max :: rest => (t.allow max).after rest
  | .block bytes maxList :: rest =>
    let (t, all) := t.decode bytes
    let (t, more) := t.after rest
    (t, answer maxList all :: more)

theorem Refines.after (h : Refines d t) (events : List Event) :
    Refines (d.after events).1 (t.after events).1 ∧ (d.after events).2 = (t.after events).2 := by
  induction events generalizing d t with
  | nil => exact ⟨h, rfl⟩
  | cons event rest ih =>
    cases event with
    | allow max => exact ih (h.allow max)
    | block bytes maxList =>
      obtain ⟨d', hrefines, hgo⟩ := h.decode bytes
      obtain ⟨hafter, hanswers⟩ := ih hrefines
      rw [Decoder.after, Rfc.after, hgo]
      exact ⟨hafter, congrArg _ hanswers⟩

/-- Whatever blocks come, the decoder's table is the RFC's: what each block is answered with, the
entries from newest to oldest, their weight and what an index names, also as the name of a field
whose insertion evicts it. -/
theorem decoder_refines (events : List Event) :
    let d := (Decoder.init.after events).1
    let t := (Rfc.init.after events).1
    (Decoder.init.after events).2 = (Rfc.init.after events).2 ∧
    d.entries.reverse.map Entry.field = t.table ∧
    d.capacity = t.capacity ∧
    d.size = (d.entries.map fun e =>
      e.field.name.length + e.field.value.length + entryOverhead).sum ∧
    d.size ≤ d.capacity ∧
    ∀ index,
      match t.lookup index with
      | none => d.lookup index = .error .compression
      | some f => ∃ r isStatic, d.lookup index = .ok (r, isStatic) ∧
          d.read r.name = .ok f.name ∧ d.read r.value = .ok f.value ∧
          ∀ value, ∃ d', d.insert ⟨r.name, .owned value⟩ = .ok d' ∧
            d'.entries.reverse.map Entry.field = (t.insert ⟨f.name, value⟩).table := by
  intro d t
  obtain ⟨h, hanswers⟩ := refines_init.after events
  refine ⟨hanswers, h.table, h.capacity, ?_, h.fits, fun index => ?_⟩
  · have hweights : (fun e => e.field.name.length + e.field.value.length + entryOverhead) =
        Entry.weight := funext fun e => e.weight_eq.symm
    rw [hweights]
    exact h.size_entries
  · have hlookup := h.lookup index
    cases hfield : t.lookup index with
    | none =>
      rw [hfield] at hlookup
      exact hlookup
    | some f =>
      rw [hfield] at hlookup
      obtain ⟨r, isStatic, hgot, hreads, -⟩ := hlookup
      refine ⟨r, isStatic, hgot, hreads.name, hreads.value, fun value => ?_⟩
      obtain ⟨d', hinsert, hrefines⟩ := h.insert (r := ⟨r.name, .owned value⟩) (f := ⟨f.name, value⟩)
        ⟨hreads.name, rfl, hreads.nameLen, rfl⟩
      exact ⟨d', hinsert, hrefines.table⟩

/-- The limit of the list takes no part in what becomes of the table or in whether a block is
refused, and keeps the longest run of fields that fits. -/
theorem decode_limit (events : List Event) (block : Bytes) :
    let d := (Decoder.init.after events).1
    ∃ d', (∀ maxList, d.decode block maxList = (d', .error .compression)) ∨
      ∃ all : List Field, ∀ maxList, ∃ (kept : List Field) (overLimit : Bool),
        d.decode block maxList = (d', .ok (kept.map Field.owned, overLimit)) ∧
        kept <+: all ∧ total Field.weight kept ≤ maxList ∧
        (∀ p, p <+: all → total Field.weight p ≤ maxList → p <+: kept) ∧
        (overLimit = true ↔ maxList < total Field.weight all) := by
  intro d
  obtain ⟨h, -⟩ := refines_init.after events
  obtain ⟨d', -, hgo⟩ := h.decode block
  refine ⟨d', ?_⟩
  cases hall : ((Rfc.init.after events).1.decode block).2 with
  | none =>
    rw [hall] at hgo
    exact .inl hgo
  | some all =>
    rw [hall] at hgo
    exact .inr ⟨all, fun maxList => ⟨fitting Field.weight maxList all, _, hgo maxList,
      Lib.fitting_isPrefix _ maxList all, Lib.total_fitting_le _ maxList all,
      fun p hp hfits => Lib.isPrefix_fitting _ hp hfits, decide_eq_true_iff⟩⟩

end Nilo.Hpack
