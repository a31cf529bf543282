import Nilo.Http2.Machine

/-!
# What a history says

The promises of a connection are about what its client can see: the frames read
and written, in their order. This file reads them off a history alone, with
nothing of the connection's own bookkeeping:

* `increments`, `written`, `Terms` and `Within` — what a client has allowed and
  what was sent to it;
* `Assembly` and `heardDecoder` — the header blocks a client has sent, and the
  table a decoder fed all of them has;
* `goaways`, `StartsKept` and `RefusalsKept` — what a GOAWAY promises;
* `GrantOk` and `AdmitOk` — who may be given window or room.

A history is newest first.
-/

namespace Nilo.Http2

open Nilo.Lib

variable {D : Type}

abbrev Trace := List Event

/-! ## Windows and frame sizes -/

/-- The increment an event brings for a stream, 0 being the connection. -/
def Event.increment (id : StreamId) : Event → Nat
  | .read f => if f.type = .windowUpdate ∧ f.stream = id ∧ f.len = 4 then incrementOf f else 0
  | _ => 0

/-- The DATA an event puts on a stream. -/
def Event.dataOn (id : StreamId) : Event → Nat
  | .wrote f => f.dataOn id
  | _ => 0

/-- The DATA an event puts on the connection. -/
def Event.dataLen : Event → Nat
  | .wrote f => f.dataLen
  | _ => 0

def increments (id : StreamId) (t : Trace) : Nat := (t.map (Event.increment id)).sum

def written (id : StreamId) (t : Trace) : Nat := (t.map (Event.dataOn id)).sum

def writtenAll (t : Trace) : Nat := (t.map Event.dataLen).sum

/-- A setting of the client: its value in force, and those of the SETTINGS that have been
read and not acknowledged. -/
structure Terms where
  now : Nat
  offered : List Nat

/-- The most the client must be ready for. -/
def Terms.most (x : Terms) : Nat := x.offered.foldr max x.now

/-- The values a frame offers for a setting. -/
def offers (which : Setting) (f : Frame) : List Nat :=
  if f.type = .settings ∧ f.stream = 0 ∧ f.has Flags.ack = false ∧ f.len % 6 = 0 then
    (settingPairs (f.len / 6) f.payload).filterMap fun p => if p.1 = which then some p.2 else none
  else []

/-- A setting of the client after a history: an acknowledgement puts the last value offered
in force. -/
def terms (which : Setting) (init : Nat) : Trace → Terms
  | [] => ⟨init, []⟩
  | .read f :: t =>
    let x := terms which init t
    ⟨x.now, x.offered ++ offers which f⟩
  | .wrote .settingsAck :: t =>
    let x := terms which init t
    ⟨x.offered.getLastD x.now, []⟩
  | _ :: t => terms which init t

abbrev windowTerms : Trace → Terms := terms .initialWindowSize defaultWindow

abbrev frameTerms : Trace → Terms := terms .maxFrameSize defaultMaxFrame

/-- Every frame written was, when it was, within what the client had allowed: its size, the
DATA on its stream, and the DATA on the connection. -/
def Within : Trace → Prop
  | [] => True
  | .wrote f :: t =>
    (f.len ≤ (frameTerms t).most ∧
      (∀ id, 0 < f.dataOn id →
        written id t + f.dataOn id ≤ (windowTerms t).most + increments id t) ∧
      (0 < f.dataLen → writtenAll t + f.dataLen ≤ defaultWindow + increments 0 t)) ∧ Within t
  | _ :: t => Within t

/-! ## Header blocks -/

/-- The header blocks of a client: the whole ones, oldest first, and the one still open. -/
structure Assembly where
  blocks : List Bytes := []
  openBlock : Option (StreamId × Bytes) := none
deriving DecidableEq, Repr

namespace Assembly

/-- A fragment of the block of `id`, and whether it is the last (§4.3). -/
def add (a : Assembly) (id : StreamId) (block : Bytes) (last : Bool) : Assembly :=
  if last then ⟨a.blocks ++ [block], none⟩ else { a with openBlock := some (id, block) }

/-- One more frame: HEADERS begin a block and the CONTINUATION frames of its stream go on
with it (§6.2, §6.10). -/
def take (a : Assembly) (f : Frame) : Assembly :=
  match f.type with
  | .headers =>
    match headersFragment f with
    | some (fragment, _) => a.add f.stream fragment (f.has Flags.endHeaders)
    | none => a
  | .continuation =>
    match a.openBlock with
    | some (id, block) =>
      if f.stream = id then a.add id (block ++ f.payload) (f.has Flags.endHeaders) else a
    | none => a
  | _ => a

end Assembly

/-- The header blocks of the frames read. -/
def assembly : Trace → Assembly
  | [] => {}
  | .read f :: t => (assembly t).take f
  | _ :: t => assembly t

/-- The blocks handed to the decoder, oldest first. -/
def fedBlocks : Trace → List Bytes
  | [] => []
  | .fed b :: t => fedBlocks t ++ [b]
  | _ :: t => fedBlocks t

/-- One block through a decoder, for what it does to the table. -/
def Codec.feed (k : Codec D) (d : D) (block : Bytes) : Option D :=
  (k.decode d block maxHeaderList).map (·.1)

/-- The table after one more frame of the client, with the blocks before it assembled. -/
def Codec.hear (k : Codec D) (a : Assembly) (d : D) (f : Frame) : Option D :=
  if f.type = .settings then
    if f.has Flags.ack then some (k.allow d 0) else some d
  else ((a.take f).blocks.drop a.blocks.length).foldlM k.feed d

/-- The table of a decoder fed every whole block of the client in order, told of each
SETTINGS of this side as the client acknowledged it. -/
def heardDecoder (k : Codec D) : Trace → Option D
  | [] => some k.init
  | .read f :: t => (heardDecoder k t).bind fun d => k.hear (assembly t) d f
  | _ :: t => heardDecoder k t

/-! ## GOAWAY -/

/-- The last stream each GOAWAY written has named. -/
def goaways : Trace → List StreamId
  | [] => []
  | .wrote (.goaway last _) :: t => last :: goaways t
  | _ :: t => goaways t

/-- No call was started past the last stream of a GOAWAY written before it. -/
def StartsKept : Trace → Prop
  | [] => True
  | .started id :: t => (∀ last ∈ goaways t, id ≤ last) ∧ StartsKept t
  | _ :: t => StartsKept t

/-- No stream up to the last one of a GOAWAY was refused after it. -/
def RefusalsKept : Trace → Prop
  | [] => True
  | .left id .refusedGoaway :: t => (∀ last ∈ goaways t, last < id) ∧ RefusalsKept t
  | .wrote (.rstStream id .refusedStream) :: t => (∀ last ∈ goaways t, last < id) ∧ RefusalsKept t
  | _ :: t => RefusalsKept t

/-! ## The budget -/

/-- A call that is not arriving any more holds bytes. -/
def Claimant.holds (x : Claimant) : Bool :=
  !x.arriving && x.phase != .headers && decide (0 < x.held)

/-- A call that is running waits for room. -/
def Claimant.waits (x : Claimant) : Bool := x.phase == .running && x.wants != 0

/-- A window may be topped up while less than the budget is held, for a call whose bytes are
dropped anyway, and otherwise for the oldest call still arriving when no other holds bytes. -/
def GrantOk (budget : Nat) (id : StreamId) (table : List Claimant) : Prop :=
  (table.map (·.held)).sum < budget ∨
  (∃ x ∈ table, x.id = id ∧ x.overLimit = true) ∨
  ((∀ x ∈ table, x.holds = false) ∧ ∃ x, table.find? (·.arriving) = some x ∧ x.id = id)

/-- Room goes to the oldest call waiting for some: what the budget has left of it when a
started call holds bytes, and whatever it asks for when none does. -/
def AdmitOk (budget : Nat) (id : StreamId) (room : Nat) (table : List Claimant) : Prop :=
  ∃ x, table.find? (·.waits) = some x ∧ x.id = id ∧ x.wants = room ∧
    (room ≤ budget - ((table.map (·.held)).sum - x.held) ∨
      ∀ y ∈ table, y.holds = true → y.wants ≠ 0)

/-- Every grant of a history was one the budget allows. -/
def GrantsKept (budget : Nat) (t : Trace) : Prop :=
  (∀ id table, .topped id table ∈ t → GrantOk budget id table) ∧
  ∀ id room table, .admitted id room table ∈ t → AdmitOk budget id room table

end Nilo.Http2
