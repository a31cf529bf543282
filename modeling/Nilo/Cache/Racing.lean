import Nilo.Cache.Memory
import Mathlib.Logic.Relation

/-!
# Lookups that hold nothing (`cache/store.zig`)

`get` takes no lock: it loads a slot, reads the bytes the slot points at one after the other, and
asks the cursor afterwards whether anything was written there meanwhile. Here the calls on a shard
go in steps, in any order: whoever holds the lock publishes the cursor, sweeps, copies a byte, points
a slot; every lookup loads, judges, reads a byte, settles. A lookup that is answered is answered as
one that looked at the slot in no time at all, the moment it was loaded (`answered_at_once`).
-/

namespace Nilo.Cache

open Text (Bytes)
open Lib (Cursor Piece window patch)
open Region (liveAt)
open Shard (Fades)

variable {n : Nat} {ι : Type}

/-! ## The steps -/

/-- What the bytes in a copy are for: an entry that is stored, or one that is carried from where its
slot pointed. -/
inductive Job (n : Nat) where
  | write
  | carry (b : Fin n) (i : Fin ways) (seen : Slot)

/-- A copy into the ring. -/
structure Copy (n : Nat) where
  into : Side
  off : Nat
  entry : Entry
  job : Job n
  /-- Which of its bytes are there. -/
  done : List Nat
  /-- The slots that were loaded to be stored again with half their warmth. -/
  loaded : List (Fin n × Fin ways × Slot)

/-- Where one byte of a copy comes from. -/
def Copy.source (c : Copy n) (ring : Bytes) (k : Nat) : Option UInt8 :=
  match c.job with
  | .write => c.entry.bytes[k]?
  | .carry _ _ seen => ring[seen.off + k]?

def Copy.Done (c : Copy n) : Prop := ∀ k, k < c.entry.size → k ∈ c.done

/-- How far the call is that holds the shard's lock. -/
inductive Holder (n : Nat) where
  /-- There is none, or it has written nothing and will not go by what it read. -/
  | idle
  /-- The write half of a read has loaded its slot. -/
  | promoting (b : Fin n) (i : Fin ways) (seen : Slot)
  /-- The cursor is published, and the sweep it asked for is not over. -/
  | sweeping (c : Copy n)
  | copying (c : Copy n)

/-- The copy under way. -/
def Holder.copy : Holder n → Option (Copy n)
  | .idle | .promoting .. => none
  | .sweeping c | .copying c => some c

/-- One lookup in one way. -/
structure Look (n : Nat) where
  way : Fin ways
  seen : Slot
  /-- The shard when the slot was loaded. Nothing reads it. -/
  since : Shard n
  /-- What was read of the ring, and where. -/
  view : Bytes
  read : List Nat

/-- How far a lookup is. -/
inductive Reader (n : Nat) where
  | scanning
  | loaded (l : Look n)
  /-- The slot was live when it was judged first. -/
  | reading (l : Look n)
  | answered (l : Look n) (e : Entry)
  | missed

def Reader.ended : Reader n → Bool
  | .answered .. | .missed => true
  | _ => false

/-- The way a lookup is at. -/
def Reader.look : Reader n → Option (Look n)
  | .loaded l | .reading l => some l
  | _ => none

/-- What a lookup is asked. -/
structure Ask where
  space : UInt32
  key : Bytes
  room : Nat
  now : UInt32

/-- A shard that calls are on. -/
structure Race (n : Nat) (ι : Type) where
  shard : Shard n
  holder : Holder n
  readers : ι → Reader n
  /-- Every entry a write began to copy in. Nothing reads it. -/
  stored : List Entry

/-- The cursor is published, and no byte is copied yet. -/
def Shard.published (s : Shard n) (into : Side) (e : Entry) : Shard n :=
  { s.setRegion into (s.reserved into e.size) with log := s.record into e :: s.log }

/-- What is left to do once the cursor is published. -/
def Shard.begun (s : Shard n) (into : Side) (e : Entry) (job : Job n) : Holder n :=
  let c : Copy n := ⟨into, (s.record into e).off, e, job, [], []⟩
  if ((s.region into).reserve e.size).1.sweepDue then .sweeping c else .copying c

namespace Race

def init (n cap : Nat) : Race n ι := ⟨.init n cap, .idle, fun _ => .scanning, []⟩

def setReader [DecidableEq ι] (m : Race n ι) (r : ι) (phase : Reader n) : Race n ι :=
  { m with readers := Function.update m.readers r phase }

def setSlots (m : Race n ι) (slots : Fin n → Fin ways → Slot) : Race n ι :=
  { m with shard := { m.shard with slots := slots } }

/-- The byte `k` of the copy. -/
def setByte (m : Race n ι) (c : Copy n) (k : Nat) (x : UInt8) : Race n ι :=
  { m with
    shard := { m.shard with ring := m.shard.ring.set (c.off + k) x }
    holder := .copying { c with done := k :: c.done } }

variable [NeZero n] [DecidableEq ι] (hash : UInt32 → Bytes → UInt64) (asks : ι → Ask)

/-- The bucket a lookup looks in. -/
def bucket (r : ι) : Fin n := bucketOf n (hash (asks r).space (asks r).key)

inductive Step : Race n ι → Race n ι → Prop
  /-- Lookups warm a slot, or clear one that has expired; a sweep, `del` and `clear` clear slots. -/
  | fade {m} (slots : Fin n → Fin ways → Slot)
      (h : ∀ b i, Fades (m.shard.slots b i) (slots b i)) : Step m (m.setSlots slots)
  /-- A write has found what it stores and where: it reserves the room. -/
  | write {m} (into : Side) (e : Entry) (hidle : m.holder = .idle) (htakes : m.shard.Takes e)
      (hfits : (m.shard.region into).start + e.size ≤ (m.shard.region into).stop) :
      Step m { m with
        shard := m.shard.published into e
        holder := m.shard.begun into e .write
        stored := e :: m.stored }
  | promote {m} (b : Fin n) (i : Fin ways) (hidle : m.holder = .idle) :
      Step m { m with holder := .promoting b i (m.shard.slots b i) }
  /-- The slot is live and what it points at may be carried to `main`. -/
  | carry {m} {b : Fin n} {i : Fin ways} {seen : Slot} {e : Entry}
      (hholder : m.holder = .promoting b i seen) (hlive : m.shard.live seen = true)
      (hentry : m.shard.entry seen = some e)
      (hlen : ¬ (m.shard.region .main).len < e.size)
      (hclobber : ¬ (m.shard.region .main).wouldClobber e.size seen.off e.size = true) :
      Step m { m with
        shard := m.shard.published .main e
        holder := m.shard.begun .main e (.carry b i seen) }
  /-- The sweep has come by every slot. -/
  | swept {m} {c : Copy n} (hholder : m.holder = .sweeping c)
      (hswept : ∀ b i, Shard.stale (m.shard.region c.into) (m.shard.slots b i) = false) :
      Step m { m with holder := .copying c }
  | copied {m} {c : Copy n} (k : Nat) (x : UInt8) (hholder : m.holder = .copying c)
      (hk : k < c.entry.size) (hx : c.source m.shard.ring k = some x) : Step m (m.setByte c k x)
  /-- A bucket decays: its slots are loaded, and stored with half the warmth. -/
  | loaded {m} {c : Copy n} (b : Fin n) (i : Fin ways) (hholder : m.holder = .copying c) :
      Step m { m with
        holder := .copying { c with loaded := (b, i, m.shard.slots b i) :: c.loaded } }
  | decayed {m} {c : Copy n} {b : Fin n} {i : Fin ways} {seen : Slot}
      (hholder : m.holder = .copying c) (hjob : c.job = .write) (hseen : (b, i, seen) ∈ c.loaded) :
      Step m { m with shard := m.shard.setSlot b i { seen with freq := seen.freq >>> 1 } }
  /-- A way of the key's bucket is pointed at what was stored. -/
  | pointed {m} {c : Copy n} (i : Fin ways) (freq : Nat) (hholder : m.holder = .copying c)
      (hjob : c.job = .write) (hdone : c.Done) :
      Step m { m with
        shard := m.shard.setSlot (bucketOf n (hash c.entry.space c.entry.key)) i
          ⟨c.off, (m.shard.region c.into).cursor.gen,
            fingerprint (hash c.entry.space c.entry.key), freq⟩
        holder := .idle }
  /-- The slot is swapped for one that points at the copy, if it still points where it did. -/
  | moved {m} {c : Copy n} {b : Fin n} {i : Fin ways} {seen : Slot}
      (hholder : m.holder = .copying c) (hjob : c.job = .carry b i seen) (hdone : c.Done)
      (hoff : (m.shard.slots b i).off = seen.off) (hgen : (m.shard.slots b i).gen = seen.gen) :
      Step m { m with
        shard := m.shard.setSlot b i { m.shard.slots b i with
          off := c.off, gen := (m.shard.region c.into).cursor.gen }
        holder := .idle }
  /-- The write half of a read gives up, before it has written anything or because the slot has
  gone. -/
  | gaveUp {m} (hholder : (∃ b i seen, m.holder = .promoting b i seen) ∨
        ∃ c b i seen, m.holder = .copying c ∧ c.job = .carry b i seen ∧ c.Done) :
      Step m { m with holder := .idle }
  /-- A lookup loads one of the ways of its bucket. -/
  | load {m} {r : ι} (i : Fin ways) (hreader : m.readers r = .scanning) :
      Step m (m.setReader r (.loaded ⟨i, m.shard.slots (bucket hash asks r) i, m.shard,
        List.replicate m.shard.ring.length 0, []⟩))
  | judge {m} {r : ι} {l : Look n} (hreader : m.readers r = .loaded l)
      (hlive : m.shard.live l.seen = true) : Step m (m.setReader r (.reading l))
  | read {m} {r : ι} {l : Look n} (p : Nat) (x : UInt8) (hreader : m.readers r = .reading l)
      (hx : m.shard.ring[p]? = some x) :
      Step m (m.setReader r (.reading { l with view := l.view.set p x, read := p :: l.read }))
  /-- What was read is the key's, and the cursor has not come to it. -/
  | settle {m} {r : ι} {l : Look n} {e : Entry} (hreader : m.readers r = .reading l)
      (hentry : { m.shard with ring := l.view }.entry l.seen = some e)
      (hread : ∀ p, l.seen.off ≤ p → p < l.seen.off + e.size → p ∈ l.read)
      (hfor : e.isFor (asks r).space (asks r).key = true)
      (hroom : e.value.length ≤ (asks r).room) (hlive : m.shard.live l.seen = true)
      (hfresh : e.fresh (asks r).now = true) : Step m (m.setReader r (.answered l e))
  /-- A lookup goes on to another way, or ends with nothing. -/
  | pass {m} {r : ι} {phase : Reader n} (hopen : (m.readers r).ended = false)
      (hphase : phase = .scanning ∨ phase = .missed) : Step m (m.setReader r phase)

/-- No lookup takes so long over one way that the cursor goes round its region 32,766 times. -/
def Prompt (m : Race n ι) : Prop := ∀ r l, m.readers r = .reading l →
  (m.shard.regionOf l.seen.off).lap < (l.since.regionOf l.seen.off).lap + (2 ^ 15 - 2)

/-- Any number of steps, of calls in any order. -/
def Runs : Race n ι → Race n ι → Prop :=
  Relation.ReflTransGen fun m m' => m.Prompt ∧ Step hash asks m m'

end Race

/-! ## Slots and entries -/

/-- A slot is the one that was seen, warmer or colder, or has been cleared. -/
def Slot.Left (seen slot : Slot) : Prop :=
  slot.gen ≠ 0 → slot.off = seen.off ∧ slot.gen = seen.gen ∧ slot.fp = seen.fp

theorem Slot.Left.refl (slot : Slot) : slot.Left slot := fun _ => ⟨rfl, rfl, rfl⟩

theorem Slot.Left.fades {seen slot slot' : Slot} (h : seen.Left slot) (hf : Fades slot slot') :
    seen.Left slot' := by
  intro hgen
  rcases hf with rfl | ⟨hoff, hgen', hfp⟩
  · exact absurd rfl hgen
  · obtain ⟨h₁, h₂, h₃⟩ := h (hgen' ▸ hgen)
    exact ⟨hoff.trans h₁, hgen'.trans h₂, hfp.trans h₃⟩

section

variable [NeZero n] {hash : UInt32 → Bytes → UInt64} {s : Shard n} {b : Fin n} {i : Fin ways}
  {slot slot' : Slot} {w : Written} {e e' : Entry}

theorem stale_congr (r : Region) (hoff : slot'.off = slot.off) (hgen : slot'.gen = slot.gen) :
    Shard.stale r slot' = Shard.stale r slot := by
  rw [Shard.stale, Shard.stale, liveAt, liveAt, Region.ghostAt, Region.ghostAt, hoff, hgen]

/-- Two entries that agree for as long as the shorter one goes on are one: what tells their lengths
is in front. -/
theorem Entry.eq_of_bytes (he : e.Sized) (he' : e'.Sized)
    (h : ∀ k, k < e.size → k < e'.size → e.bytes[k]? = e'.bytes[k]?) : e = e' := by
  -- The longer one read as an entry, once for what it is and once for what the shorter one says.
  have hle {x y : Entry} (hx : x.Sized) (hy : y.Sized) (hxy : x.size ≤ y.size)
      (hsame : ∀ k, k < x.size → x.bytes[k]? = y.bytes[k]?) : x = y := by
    let s : Shard 1 := { Shard.init 1 0 with ring := y.bytes }
    have hlen : s.ring.length = y.size := Entry.length_bytes y
    have hwhole : window y.bytes 0 y.size = y.bytes := by
      rw [window, List.drop_zero, ← Entry.length_bytes y, List.take_length]
    have hshort : window y.bytes 0 x.size = x.bytes := by
      refine List.ext_getElem? ?_
      intro k
      rw [Lib.getElem?_window, Nat.zero_add]
      split_ifs with hk
      · exact (hsame k hk).symm
      · rw [List.getElem?_eq_none]
        rw [Entry.length_bytes]
        exact Nat.le_of_not_lt hk
    have hin : Slot.never.off + x.size ≤ s.ring.length := hlen ▸ (Nat.zero_add _).trans_le hxy
    have hin' : Slot.never.off + y.size ≤ s.ring.length := hlen ▸ (Nat.zero_add _).le
    have hread : s.entry .never = some x := Shard.entry_of_bytes hx hin hshort
    have hread' : s.entry .never = some y := Shard.entry_of_bytes hy hin' hwhole
    exact Option.some.inj (hread.symm.trans hread')
  rcases Nat.le_total e.size e'.size with hsize | hsize
  · exact hle he he' hsize fun k hk => h k hk (Nat.lt_of_lt_of_le hk hsize)
  · exact (hle he' he hsize fun k hk => (h k (Nat.lt_of_lt_of_le hk hsize) hk).symm).symm

/-- What a cursor makes of a slot's pass, from nothing but the record of what it points at. -/
theorem liveAt_iff_record (hoff : w.off = slot.off) (hgen : genOf w.lap = slot.gen)
    (hhome : Home hash b slot.fp w.entry) {m : Mark} {lap : Nat} (hm : m.gen = genOf lap)
    (hle : w.lap ≤ lap) (hnear : lap < w.lap + passes) :
    liveAt m slot = true ↔
      w.lap = lap ∧ w.off < m.head ∨ w.lap + 1 = lap ∧ genOf lap ≠ 1 ∧ m.head ≤ w.off := by
  let r : Region := ⟨0, 0, m, false, w.lap⟩
  let s : Shard n := ⟨fun _ _ => slot, [], r, r, [w]⟩
  have hregion : s.region w.side = r := by cases w.side <;> rfl
  have hn : s.Names hash b slot w :=
    ⟨List.mem_singleton_self w, hoff, hgen, by rw [hregion]; exact floor_le _, hhome⟩
  exact hn.liveAt_iff hm hle hnear

theorem Shard.region_published (s : Shard n) (into side : Side) (e : Entry) :
    (s.published into e).region side =
      if side = into then s.reserved into e.size else s.region side := by
  cases into <;> cases side <;> rfl

theorem Shard.slots_published (s : Shard n) (into : Side) (e : Entry) :
    (s.published into e).slots = s.slots := s.slots_setRegion into _

theorem Shard.ring_published (s : Shard n) (into : Side) (e : Entry) :
    (s.published into e).ring = s.ring := s.ring_setRegion into _

/-- Publish, and then copy: what a call does that nobody looks at. -/
theorem Shard.published_place (s : Shard n) (into : Side) (e : Entry) :
    { s.published into e with
        ring := patch (s.published into e).ring (s.record into e).off e.bytes } =
      { (s.place into e e.bytes).1 with slots := s.slots } := by
  have hsmall := s.region_place into .small e e.bytes
  have hmain := s.region_place into .main e e.bytes
  rw [← region_published] at hsmall hmain
  have hsmall : (s.place into e e.bytes).1.small = (s.published into e).small := hsmall
  have hmain : (s.place into e e.bytes).1.main = (s.published into e).main := hmain
  simp only [s.place_log into e e.bytes, s.place_ring into e e.bytes, hsmall, hmain,
    slots_published, ring_published]
  rfl

theorem Shard.copy_begun (s : Shard n) (into : Side) (e : Entry) (job : Job n) :
    (s.begun into e job).copy = some ⟨into, (s.record into e).off, e, job, [], []⟩ := by
  rw [begun]
  split_ifs <;> rfl

theorem Shard.of_begun_sweeping {into : Side} {job : Job n} {c : Copy n}
    (h : s.begun into e job = .sweeping c) : c = ⟨into, (s.record into e).off, e, job, [], []⟩ := by
  have hcopy := s.copy_begun into e job
  rw [h] at hcopy
  exact Option.some.inj hcopy

end

/-! ## What holds while a copy is under way -/

namespace Race

section

/-- The shard as the copy under way leaves it. -/
def after (m : Race n ι) : Shard n :=
  m.holder.copy.elim m.shard fun c =>
    { m.shard with ring := patch m.shard.ring c.off c.entry.bytes }

/-- What was copied in before the copy under way. -/
def settled (m : Race n ι) : List Written := m.holder.copy.elim m.shard.log fun _ => m.shard.log.tail

variable [NeZero n] (hash : UInt32 → Bytes → UInt64)

/-- A slot of the bucket says where the entry is, and on which of the last passes it was written. -/
structure Aims (m : Race n ι) (b : Fin n) (slot : Slot) (w : Written) : Prop where
  mem : w ∈ m.settled
  off : w.off = slot.off
  gen : genOf w.lap = slot.gen
  home : Home hash b slot.fp w.entry
  near : (m.shard.region w.side).lap ≤ w.lap + (2 ^ 15 + 1)

/-- No sweep is under way that is to clear the slot. -/
def Swept (m : Race n ι) (slot : Slot) : Prop :=
  ∀ c, m.holder = .sweeping c → Shard.stale (m.shard.region c.into) slot = false

/-- A slot of the bucket was never written, or aims at an entry. -/
def Named (m : Race n ι) (b : Fin n) (slot : Slot) : Prop :=
  slot.gen ≠ 0 → ∃ w, m.Aims hash b slot w ∧
    (m.Swept slot → floor (m.shard.region w.side).lap ≤ w.lap)

/-- The copy under way. -/
structure Copying (m : Race n ι) (c : Copy n) : Prop where
  placed : ∃ w, m.shard.log = w :: m.settled ∧ w.side = c.into ∧ w.off = c.off ∧
    w.entry = c.entry ∧ w.lap = (m.shard.region c.into).lap
  within : c.off + c.entry.size ≤ m.shard.ring.length
  done : ∀ k, k ∈ c.done → k < c.entry.size → m.shard.ring[c.off + k]? = c.entry.bytes[k]?
  /-- An entry that is carried stays where it was, too. -/
  carried : ∀ b i seen, c.job = .carry b i seen →
    (c.off + c.entry.size ≤ seen.off ∨ seen.off + c.entry.size ≤ c.off) ∧
      window m.shard.ring seen.off c.entry.size = c.entry.bytes ∧ Home hash b seen.fp c.entry ∧
      seen.gen ≠ 0 ∧ seen.Left (m.shard.slots b i)
  loaded : ∀ b i slot, (b, i, slot) ∈ c.loaded → m.Named hash b slot

structure Sound (m : Race n ι) : Prop where
  laid : m.after.Laid
  named : ∀ b i, m.Named hash b (m.shard.slots b i)
  stored : ∀ w ∈ m.shard.log, w.entry ∈ m.stored
  promoting : ∀ b i seen, m.holder = .promoting b i seen →
    m.Named hash b seen ∧ seen.Left (m.shard.slots b i)
  copying : ∀ c, m.holder.copy = some c → m.Copying hash c
  sweeping : ∀ c, m.holder = .sweeping c → c.loaded = []

end

section

variable [NeZero n] {hash : UInt32 → Bytes → UInt64} {m m' : Race n ι} {b : Fin n} {i : Fin ways}
  {slot slot' : Slot} {w : Written} {c : Copy n} {e : Entry}

theorem after_of_none (h : m.holder.copy = none) : m.after = m.shard := by
  rw [after, h, Option.elim_none]

theorem after_of_some (h : m.holder.copy = some c) :
    m.after = { m.shard with ring := patch m.shard.ring c.off c.entry.bytes } := by
  rw [after, h, Option.elim_some]

theorem settled_of_none (h : m.holder.copy = none) : m.settled = m.shard.log := by
  rw [settled, h, Option.elim_none]

theorem region_after (m : Race n ι) (side : Side) : m.after.region side = m.shard.region side := by
  cases hcopy : m.holder.copy with
  | none => rw [after_of_none hcopy]
  | some c =>
    rw [after_of_some hcopy]
    cases side <;> rfl

theorem log_after (m : Race n ι) : m.after.log = m.shard.log := by
  cases hcopy : m.holder.copy with
  | none => rw [after_of_none hcopy]
  | some c => rw [after_of_some hcopy]

theorem sideOf_after (m : Race n ι) (off : Nat) : m.after.sideOf off = m.shard.sideOf off := by
  have hsmall : m.after.small = m.shard.small := m.region_after .small
  rw [Shard.sideOf, Shard.sideOf, hsmall]

theorem stands_after (m : Race n ι) (w : Written) : m.after.Stands w ↔ m.shard.Stands w := by
  rw [Shard.Stands, Shard.Stands, region_after]

theorem Copying.length_after (h : m.Copying hash c) (hcopy : m.holder.copy = some c) :
    m.after.ring.length = m.shard.ring.length := by
  rw [after_of_some hcopy]
  exact Lib.length_patch (by rw [Entry.length_bytes]; exact h.within)

theorem Sound.length_after (h : m.Sound hash) : m.after.ring.length = m.shard.ring.length := by
  cases hcopy : m.holder.copy with
  | none => rw [after_of_none hcopy]
  | some c => exact (h.copying c hcopy).length_after hcopy

theorem settled_subset (h : m.Sound hash) (hw : w ∈ m.settled) : w ∈ m.shard.log := by
  cases hcopy : m.holder.copy with
  | none => rwa [settled_of_none hcopy] at hw
  | some c =>
    obtain ⟨_, hlog, -⟩ := (h.copying c hcopy).placed
    rw [hlog]
    exact List.mem_cons_of_mem _ hw

theorem Sound.cut (h : m.Sound hash) (hw : w ∈ m.settled) :
    (m.shard.region w.side).spot.Cut (m.shard.region w.side).start (m.shard.region w.side).stop
      w.piece := by
  have hcut := h.laid.cut w (by rw [log_after]; exact settled_subset h hw)
  rwa [region_after] at hcut

theorem Sound.steady (h : m.Sound hash) (side : Side) : (m.shard.region side).Steady :=
  m.region_after side ▸ h.laid.steady side

theorem Sound.sideOf (h : m.Sound hash) (hw : w ∈ m.settled) : m.shard.sideOf w.off = w.side := by
  rw [← sideOf_after]
  exact h.laid.sideOf (by rw [log_after]; exact settled_subset h hw)

theorem Sound.sized (h : m.Sound hash) (hw : w ∈ m.settled) : w.entry.Sized :=
  (Entry.sized_of_entryFits (h.laid.takes w (by rw [log_after]; exact settled_subset h hw))).1

theorem Sound.within (h : m.Sound hash) (hw : w ∈ m.settled) :
    w.off + w.entry.size ≤ m.shard.ring.length := by
  have hstop : w.off + w.entry.size ≤ (m.shard.region w.side).stop := (h.cut hw).le_stop
  have hle := h.laid.stop_le w.side
  rw [region_after, h.length_after] at hle
  exact Nat.le_trans hstop hle

/-- An entry the cursor has not come to again is in the ring, however far a copy is. -/
theorem Sound.intact (h : m.Sound hash) (hw : w ∈ m.settled) (hstands : m.shard.Stands w) :
    window m.shard.ring w.off w.entry.size = w.entry.bytes := by
  have hlog := settled_subset h hw
  have hwhole := h.laid.intact w (by rwa [log_after]) ((m.stands_after w).2 hstands)
  cases hcopy : m.holder.copy with
  | none => rwa [after_of_none hcopy] at hwhole
  | some c =>
    have hc := h.copying c hcopy
    obtain ⟨w', hlog', -, hoff, hentry, -⟩ := hc.placed
    have hpairs := h.laid.apart
    rw [log_after, hlog', List.pairwise_cons] at hpairs
    have hapart : w'.off + w'.entry.size ≤ w.off ∨ w.off + w.entry.size ≤ w'.off :=
      hpairs.1 w hw ((m.stands_after w).2 hstands)
    rw [hoff, hentry] at hapart
    rw [after_of_some hcopy, Lib.window_patch_apart] at hwhole
    · exact hwhole
    · rw [Entry.length_bytes]
      exact hc.within
    · rw [Entry.length_bytes]
      exact hapart.symm

theorem Sound.entry (h : m.Sound hash) (hw : w ∈ m.settled) (hoff : w.off = slot.off)
    (hstands : m.shard.Stands w) : m.shard.entry slot = some w.entry := by
  have hin := h.within hw
  have hbytes := h.intact hw hstands
  rw [hoff] at hin hbytes
  exact Shard.entry_of_bytes (h.sized hw) hin hbytes

theorem Sound.regionOf (h : m.Sound hash) (ha : m.Aims hash b slot w) :
    m.shard.regionOf slot.off = m.shard.region w.side := by
  rw [Shard.regionOf, ← ha.off, h.sideOf ha.mem]

theorem Sound.live_iff (h : m.Sound hash) (ha : m.Aims hash b slot w) :
    m.shard.live slot = true ↔
      w.lap = (m.shard.region w.side).lap ∧ w.off < (m.shard.region w.side).cursor.head ∨
        w.lap + 1 = (m.shard.region w.side).lap ∧ genOf (m.shard.region w.side).lap ≠ 1 ∧
          (m.shard.region w.side).cursor.head ≤ w.off := by
  have hle : w.lap ≤ (m.shard.region w.side).lap := (h.cut ha.mem).lap_le
  have hnear := ha.near
  rw [Shard.live, h.regionOf ha]
  refine liveAt_iff_record ha.off ha.gen ha.home (h.steady w.side).gen hle ?_
  simp only [passes]
  omega

theorem Sound.stands_of_live (h : m.Sound hash) (ha : m.Aims hash b slot w)
    (hlive : m.shard.live slot = true) : m.shard.Stands w := by
  obtain ⟨hlap, -⟩ | ⟨hlap, -, hhead⟩ := (h.live_iff ha).1 hlive
  · exact .inl hlap
  · exact .inr ⟨hlap, hhead⟩

/-- What a live slot is read as was stored, however far a copy is. -/
theorem Sound.stored_of_entry (h : m.Sound hash) (hnamed : m.Named hash b slot)
    (hlive : m.shard.live slot = true) (hentry : m.shard.entry slot = some e) : e ∈ m.stored := by
  obtain ⟨w, ha, -⟩ := hnamed (Shard.gen_ne_zero_of_live hlive)
  have hread := h.entry ha.mem ha.off (h.stands_of_live ha hlive)
  obtain rfl := Option.some.inj (hread.symm.trans hentry)
  exact h.stored w (settled_subset h ha.mem)

/-! ## Steps that write no cursor -/

theorem Named.left {seen : Slot} (h : m.Named hash b seen) (hleft : seen.Left slot) :
    m.Named hash b slot := by
  intro hgen
  obtain ⟨hoff, hgen', hfp⟩ := hleft hgen
  obtain ⟨w, ha, hrecent⟩ := h (hgen' ▸ hgen)
  refine ⟨w, ⟨ha.mem, ha.off.trans hoff.symm, ha.gen.trans hgen'.symm, hfp ▸ ha.home, ha.near⟩, ?_⟩
  intro hswept
  refine hrecent fun c hc => ?_
  rw [← stale_congr _ hoff hgen']
  exact hswept c hc

/-- A slot is named after a step that leaves the cursors where they are. -/
theorem Named.of_regions (h : m.Named hash b slot)
    (hregion : ∀ side, m'.shard.region side = m.shard.region side)
    (hsettled : ∀ w, w ∈ m.settled → w ∈ m'.settled) (hswept : m'.Swept slot → m.Swept slot) :
    m'.Named hash b slot := by
  intro hgen
  obtain ⟨w, ha, hrecent⟩ := h hgen
  refine ⟨w, ⟨hsettled w ha.mem, ha.off, ha.gen, ha.home, (hregion w.side) ▸ ha.near⟩, ?_⟩
  rw [hregion]
  exact fun hs => hrecent (hswept hs)

theorem swept_of_copy (h : m.holder.copy = none) : m.Swept slot := by
  intro c hc
  rw [hc] at h
  cases h

theorem swept_of_copying (h : m.holder = .copying c) : m.Swept slot := by
  intro c' hc
  rw [h] at hc
  cases hc

/-! ## A cursor that is published -/

theorem Named.names (h : m.Named hash b slot) (hcopy : m.holder.copy = none) (hgen : slot.gen ≠ 0) :
    ∃ w, m.shard.Names hash b slot w := by
  obtain ⟨w, ha, hrecent⟩ := h hgen
  have hmem := ha.mem
  rw [settled_of_none hcopy] at hmem
  exact ⟨w, hmem, ha.off, ha.gen, hrecent (swept_of_copy hcopy), ha.home⟩

/-- A race whose holder has published its cursor. -/
def publish (m : Race n ι) (into : Side) (e : Entry) (job : Job n) (stored : List Entry) :
    Race n ι :=
  { m with shard := m.shard.published into e, holder := m.shard.begun into e job, stored := stored }

variable {into : Side} {job : Job n} {stored : List Entry}

theorem copy_publish (m : Race n ι) (into : Side) (e : Entry) (job : Job n) (stored : List Entry) :
    (m.publish into e job stored).holder.copy =
      some ⟨into, (m.shard.record into e).off, e, job, [], []⟩ :=
  m.shard.copy_begun into e job

theorem settled_publish (hcopy : m.holder.copy = none) :
    (m.publish into e job stored).settled = m.settled := by
  rw [settled, copy_publish, settled_of_none hcopy]
  rfl

theorem after_publish (m : Race n ι) (into : Side) (e : Entry) (job : Job n) (stored : List Entry) :
    (m.publish into e job stored).after =
      { (m.shard.place into e e.bytes).1 with slots := m.shard.slots } := by
  rw [after_of_some (m.copy_publish into e job stored)]
  exact m.shard.published_place into e

theorem Sound.laid_publish (h : m.Sound hash) (hcopy : m.holder.copy = none)
    (htakes : m.shard.Takes e)
    (hfits : (m.shard.region into).start + e.size ≤ (m.shard.region into).stop) :
    (m.publish into e job stored).after.Laid := by
  have hlaid := h.laid
  rw [after_of_none hcopy] at hlaid
  rw [after_publish]
  exact (hlaid.place htakes hfits rfl).of_slots _

/-- Slots keep what they aim at, and those that a sweep is to clear are the ones too old. -/
theorem Named.publish (h : m.Sound hash) (hcopy : m.holder.copy = none)
    (hfits : (m.shard.region into).start + e.size ≤ (m.shard.region into).stop)
    (hslot : m.Named hash b slot) : (m.publish into e job stored).Named hash b slot := by
  intro hgen
  have hlaid := h.laid
  rw [after_of_none hcopy] at hlaid
  obtain ⟨w, hn⟩ := hslot.names hcopy hgen
  have hregion : (m.publish into e job stored).shard.region w.side =
      ((m.shard.place into e e.bytes).1.region w.side) := by
    rw [Shard.region_place]
    exact m.shard.region_published into w.side e
  have hmem : w ∈ (m.publish into e job stored).settled := by
    rw [settled_publish hcopy, settled_of_none hcopy]
    exact hn.mem
  refine ⟨w, ⟨hmem, hn.off, hn.gen, hn.home, ?_⟩, ?_⟩
  · have hlap := Shard.lap_reserved m.shard into e.size
    have hfloor := le_floor_add (m.shard.region w.side).lap
    have hrecent := hn.recent
    rw [hregion, Shard.region_place]
    split_ifs with hside
    · rw [hside] at hfloor hrecent
      omega
    · omega
  · intro hswept
    rw [hregion]
    refine (hn.place hlaid hfits ?_).recent
    rintro ⟨hdue, hstale⟩
    have hholder : (m.publish into e job stored).holder =
        .sweeping ⟨into, (m.shard.record into e).off, e, job, [], []⟩ := if_pos hdue
    have hclear := hswept _ hholder
    have hinto : (m.publish into e job stored).shard.region into = m.shard.reserved into e.size := by
      refine (m.shard.region_published into into e).trans (if_pos rfl)
    rw [hinto, hstale] at hclear
    cases hclear

theorem Sound.publish (h : m.Sound hash) (hcopy : m.holder.copy = none) (htakes : m.shard.Takes e)
    (hfits : (m.shard.region into).start + e.size ≤ (m.shard.region into).stop)
    (hstored : e ∈ stored) (hold : ∀ x, x ∈ m.stored → x ∈ stored)
    (hcarried : ∀ b i seen, job = .carry b i seen →
      ((m.shard.record into e).off + e.size ≤ seen.off ∨
          seen.off + e.size ≤ (m.shard.record into e).off) ∧
        window m.shard.ring seen.off e.size = e.bytes ∧ Home hash b seen.fp e ∧ seen.gen ≠ 0 ∧
          seen.Left (m.shard.slots b i)) :
    (m.publish into e job stored).Sound hash := by
  have hlaid := h.laid
  rw [after_of_none hcopy] at hlaid
  have hroom := hlaid.room hfits
  have hlog : (m.publish into e job stored).shard.log =
      m.shard.record into e :: (m.publish into e job stored).settled := by
    rw [settled_publish hcopy, settled_of_none hcopy]
    rfl
  have hring : (m.publish into e job stored).shard.ring = m.shard.ring := m.shard.ring_published into e
  have hslots : (m.publish into e job stored).shard.slots = m.shard.slots :=
    m.shard.slots_published into e
  have hwithin : (m.shard.record into e).off + e.size ≤ m.shard.ring.length := by
    have hcut := Cursor.cut_piece (hlaid.steady into).start_le hfits (c := (m.shard.region into).spot)
    rw [← hroom.piece] at hcut
    exact Nat.le_trans hcut.le_stop (hlaid.stop_le into)
  refine ⟨h.laid_publish hcopy htakes hfits, ?_, ?_, ?_, ?_, ?_⟩
  · intro b i
    rw [hslots]
    exact (h.named b i).publish h hcopy hfits
  · intro w hw
    rw [hlog, settled_publish hcopy, settled_of_none hcopy, List.mem_cons] at hw
    rcases hw with rfl | hw
    · exact hstored
    · exact hold _ (h.stored w hw)
  · intro b i seen hholder
    have hnone := m.copy_publish into e job stored
    rw [hholder] at hnone
    cases hnone
  · intro c hc
    rw [copy_publish] at hc
    obtain rfl := Option.some.inj hc
    refine ⟨⟨_, hlog, rfl, rfl, rfl, ?_⟩, ?_, ?_, ?_, ?_⟩
    · have hinto : (m.publish into e job stored).shard.region into = m.shard.reserved into e.size :=
        (m.shard.region_published into into e).trans (if_pos rfl)
      rw [hinto]
      rfl
    · rw [hring]
      exact hwithin
    · intro k hk
      exact absurd hk List.not_mem_nil
    · intro b i seen hjob
      rw [hring, hslots]
      exact hcarried b i seen hjob
    · intro b i slot hk
      exact absurd hk List.not_mem_nil
  · intro c hc
    rw [Shard.of_begun_sweeping hc]

/-! ## The other steps of a call -/

theorem after_setSlots (m : Race n ι) (slots : Fin n → Fin ways → Slot) :
    (m.setSlots slots).after = { m.after with slots := slots } := by
  cases hcopy : m.holder.copy with
  | none =>
    rw [after_of_none hcopy, after_of_none (m := m.setSlots slots) hcopy]
    rfl
  | some c =>
    rw [after_of_some hcopy, after_of_some (m := m.setSlots slots) hcopy]
    rfl

theorem Sound.setSlots (h : m.Sound hash) {slots : Fin n → Fin ways → Slot}
    (hnamed : ∀ b i, m.Named hash b (slots b i))
    (hpromoting : ∀ b i seen, m.holder = .promoting b i seen → seen.Left (slots b i))
    (hcarried : ∀ c b i seen, m.holder.copy = some c → c.job = .carry b i seen →
      seen.Left (slots b i)) : (m.setSlots slots).Sound hash := by
  have hregion (side : Side) : (m.setSlots slots).shard.region side = m.shard.region side := by
    cases side <;> rfl
  have hsame {b : Fin n} {slot : Slot} (hslot : m.Named hash b slot) :
      (m.setSlots slots).Named hash b slot :=
    hslot.of_regions hregion (fun _ hw => hw) (fun hs c hc => by rw [← hregion]; exact hs c hc)
  refine ⟨?_, fun b i => hsame (hnamed b i), h.stored, ?_, ?_, h.sweeping⟩
  · rw [after_setSlots]
    exact h.laid.of_slots slots
  · intro b i seen hholder
    exact ⟨hsame (h.promoting b i seen hholder).1, hpromoting b i seen hholder⟩
  · intro c hcopy
    have hc := h.copying c hcopy
    refine ⟨?_, hc.within, hc.done, ?_, fun b i slot hslot => hsame (hc.loaded b i slot hslot)⟩
    · obtain ⟨w, hlog, hside, hoff, hentry, hlap⟩ := hc.placed
      exact ⟨w, hlog, hside, hoff, hentry, hlap.trans (congrArg Region.lap (hregion c.into).symm)⟩
    · intro b i seen hjob
      obtain ⟨hapart, hbytes, hhome, hgen, -⟩ := hc.carried b i seen hjob
      exact ⟨hapart, hbytes, hhome, hgen, hcarried c b i seen hcopy hjob⟩

theorem Sound.fade (h : m.Sound hash) {slots : Fin n → Fin ways → Slot}
    (hf : ∀ b i, Fades (m.shard.slots b i) (slots b i)) : (m.setSlots slots).Sound hash := by
  refine h.setSlots ?_ ?_ ?_
  · exact fun b i => (h.named b i).left ((Slot.Left.refl _).fades (hf b i))
  · exact fun b i seen hholder => (h.promoting b i seen hholder).2.fades (hf b i)
  · intro c b i seen hcopy hjob
    obtain ⟨-, -, -, -, hleft⟩ := (h.copying c hcopy).carried b i seen hjob
    exact hleft.fades (hf b i)

/-- When every byte is copied the shard is what the copy was to leave. -/
theorem Sound.after_of_done (h : m.Sound hash) (hholder : m.holder = .copying c) (hdone : c.Done) :
    m.after = m.shard := by
  have hcopy : m.holder.copy = some c := by rw [hholder]; rfl
  have hc := h.copying c hcopy
  have hsame : patch m.shard.ring c.off c.entry.bytes = m.shard.ring := by
    refine Lib.patch_of_same ?_ ?_
    · rw [Entry.length_bytes]
      exact hc.within
    · intro k hk
      rw [Entry.length_bytes] at hk
      exact hc.done k (hdone k hk) hk
  rw [after_of_some hcopy, hsame]

theorem Sound.finish (h : m.Sound hash) (hholder : m.holder = .copying c) (hdone : c.Done) :
    ({ m with holder := .idle } : Race n ι).Sound hash := by
  have hsub (w : Written) (hw : w ∈ m.settled) : w ∈ m.shard.log := settled_subset h hw
  have hlaid := h.laid
  rw [h.after_of_done hholder hdone] at hlaid
  refine ⟨hlaid, ?_, h.stored, ?_, ?_, ?_⟩
  · intro b i
    exact (h.named b i).of_regions (fun _ => rfl) hsub (fun _ => swept_of_copying hholder)
  · rintro b i seen ⟨⟩
  · rintro c ⟨⟩
  · rintro c ⟨⟩

/-- A slot that is pointed at a copy names it. -/
theorem Sound.named_copy (h : m.Sound hash) (hholder : m.holder = .copying c)
    (hoff : slot.off = c.off) (hgen : slot.gen = (m.shard.region c.into).cursor.gen)
    (hhome : Home hash b slot.fp c.entry) :
    ({ m with holder := .idle } : Race n ι).Named hash b slot := by
  have hcopy : m.holder.copy = some c := by rw [hholder]; rfl
  obtain ⟨w, hlog, hside, hoff', hentry, hlap⟩ := (h.copying c hcopy).placed
  have hmem : w ∈ m.shard.log := hlog ▸ List.mem_cons_self
  intro _
  refine ⟨w, ⟨hmem, hoff'.trans hoff.symm, ?_, hentry ▸ hhome, ?_⟩, fun _ => ?_⟩
  · rw [hgen, (h.steady c.into).gen, hlap]
  · rw [hside, hlap]
    exact Nat.le_add_right _ _
  · rw [hside, hlap]
    exact floor_le _

theorem Sound.pointed (h : m.Sound hash) (hholder : m.holder = .copying c) (hdone : c.Done)
    (hoff : slot.off = c.off) (hgen : slot.gen = (m.shard.region c.into).cursor.gen)
    (hhome : Home hash b slot.fp c.entry) (i : Fin ways) :
    ({ m with shard := m.shard.setSlot b i slot, holder := .idle } : Race n ι).Sound hash := by
  have hidle := h.finish hholder hdone
  refine hidle.setSlots ?_ ?_ ?_
  · intro b' i'
    have hslots := Shard.slots_setSlot m.shard b b' i i' slot
    rw [show Function.update m.shard.slots b (Function.update (m.shard.slots b) i slot) b' i' = _
      from hslots]
    split_ifs with hthis
    · rw [hthis.1]
      exact h.named_copy hholder hoff hgen hhome
    · exact hidle.named b' i'
  · rintro b i seen ⟨⟩
  · rintro c b i seen ⟨⟩

/-- The next byte of a copy is the entry's, also where it comes from the ring. -/
theorem Copying.source_eq (hc : m.Copying hash c) {k : Nat} {x : UInt8} (hk : k < c.entry.size)
    (hx : c.source m.shard.ring k = some x) : c.entry.bytes[k]? = some x := by
  cases hjob : c.job with
  | write =>
    rw [Copy.source, hjob] at hx
    exact hx
  | carry b i seen =>
    obtain ⟨-, hbytes, -⟩ := hc.carried b i seen hjob
    rw [Copy.source, hjob] at hx
    rw [← hbytes, Lib.getElem?_window, if_pos hk]
    exact hx

theorem Copying.after_setByte (hc : m.Copying hash c) (hcopy : m.holder.copy = some c) {k : Nat}
    (hk : k < c.entry.size) (x : UInt8) : (m.setByte c k x).after = m.after := by
  have hcopy' : (m.setByte c k x).holder.copy = some { c with done := k :: c.done } := rfl
  have hpatch : patch (m.shard.ring.set (c.off + k) x) c.off c.entry.bytes =
      patch m.shard.ring c.off c.entry.bytes := by
    refine Lib.patch_set ?_ ?_ x
    · rw [Entry.length_bytes]
      exact hc.within
    · rwa [Entry.length_bytes]
  rw [after_of_some hcopy, after_of_some hcopy', ← hpatch]
  rfl

theorem Sound.copied (h : m.Sound hash) (hholder : m.holder = .copying c) {k : Nat} {x : UInt8}
    (hk : k < c.entry.size) (hx : c.source m.shard.ring k = some x) :
    (m.setByte c k x).Sound hash := by
  have hcopy : m.holder.copy = some c := by rw [hholder]; rfl
  have hcopy' : (m.setByte c k x).holder.copy = some { c with done := k :: c.done } := rfl
  have hc := h.copying c hcopy
  have hregion (side : Side) : (m.setByte c k x).shard.region side = m.shard.region side := by
    cases side <;> rfl
  have hsettled : (m.setByte c k x).settled = m.settled := by
    rw [settled, settled, hcopy, hcopy']
    rfl
  have hsame {b : Fin n} {slot : Slot} (hslot : m.Named hash b slot) :
      (m.setByte c k x).Named hash b slot :=
    hslot.of_regions hregion (fun _ hw => hsettled ▸ hw) (fun _ => swept_of_copying hholder)
  refine ⟨?_, fun b i => hsame (h.named b i), h.stored, ?_, ?_, ?_⟩
  · rw [hc.after_setByte hcopy hk]
    exact h.laid
  · rintro b i seen ⟨⟩
  · intro c' hc'
    obtain rfl := Option.some.inj (hcopy'.symm.trans hc')
    refine ⟨?_, ?_, ?_, ?_, fun b i slot hslot => hsame (hc.loaded b i slot hslot)⟩
    · obtain ⟨w, hlog, hside, hoff, hentry, hlap⟩ := hc.placed
      rw [hsettled]
      exact ⟨w, hlog, hside, hoff, hentry, hlap.trans (congrArg Region.lap (hregion c.into).symm)⟩
    · exact hc.within.trans_eq List.length_set.symm
    · intro k' hk' hlt
      show (m.shard.ring.set (c.off + k) x)[c.off + k']? = c.entry.bytes[k']?
      by_cases hthis : k' = k
      · have hin : c.off + k < m.shard.ring.length :=
          Nat.lt_of_lt_of_le (Nat.add_lt_add_left hk _) hc.within
        rw [hthis, List.getElem?_set_self hin, hc.source_eq hk hx]
      · rw [List.getElem?_set_ne (by omega)]
        exact hc.done k' ((List.mem_cons.1 hk').resolve_left hthis) hlt
    · intro b i seen hjob
      obtain ⟨hapart, hbytes, hrest⟩ := hc.carried b i seen hjob
      refine ⟨hapart, ?_, hrest⟩
      show window (m.shard.ring.set (c.off + k) x) seen.off c.entry.size = c.entry.bytes
      rw [Lib.window_set_apart (by omega)]
      exact hbytes
  · rintro c' ⟨⟩

/-- What the lookups do changes nothing of the shard. -/
theorem Sound.readers (h : m.Sound hash) (readers : ι → Reader n) :
    ({ m with readers := readers } : Race n ι).Sound hash := by
  have hsame {b : Fin n} {slot : Slot} (hslot : m.Named hash b slot) :
      ({ m with readers := readers } : Race n ι).Named hash b slot :=
    hslot.of_regions (fun _ => rfl) (fun _ hw => hw) id
  refine ⟨h.laid, fun b i => hsame (h.named b i), h.stored, ?_, ?_, h.sweeping⟩
  · intro b i seen hholder
    exact ⟨hsame (h.promoting b i seen hholder).1, (h.promoting b i seen hholder).2⟩
  · intro c hcopy
    have hc := h.copying c hcopy
    exact ⟨hc.placed, hc.within, hc.done, hc.carried,
      fun b i slot hslot => hsame (hc.loaded b i slot hslot)⟩

/-- A call that has published nothing loads a slot, or gives up. -/
theorem Sound.hold (h : m.Sound hash) {holder : Holder n} (hcopy : m.holder.copy = none)
    (hnext : holder.copy = none) (hseen : ∀ b i seen, holder = .promoting b i seen →
      m.Named hash b seen ∧ seen.Left (m.shard.slots b i)) :
    ({ m with holder := holder } : Race n ι).Sound hash := by
  have hsettled : ({ m with holder := holder } : Race n ι).settled = m.settled := by
    rw [settled_of_none hcopy]
    exact settled_of_none hnext
  have hsame {b : Fin n} {slot : Slot} (hslot : m.Named hash b slot) :
      ({ m with holder := holder } : Race n ι).Named hash b slot :=
    hslot.of_regions (fun _ => rfl) (fun _ hw => hsettled ▸ hw) (fun _ => swept_of_copy hcopy)
  have hlaid := h.laid
  rw [after_of_none hcopy] at hlaid
  refine ⟨?_, fun b i => hsame (h.named b i), h.stored, ?_, ?_, ?_⟩
  · have hafter : ({ m with holder := holder } : Race n ι).after = m.shard := after_of_none hnext
    rwa [hafter]
  · exact fun b i seen hholder => ⟨hsame (hseen b i seen hholder).1, (hseen b i seen hholder).2⟩
  · intro c hc
    cases hnext.symm.trans hc
  · rintro c rfl
    cases hnext

/-- A call goes on copying, and has loaded the slots of `loaded`. -/
theorem Sound.copyOn (h : m.Sound hash) (hcopy : m.holder.copy = some c)
    {loaded : List (Fin n × Fin ways × Slot)} (hswept : ∀ b i, m.Swept (m.shard.slots b i))
    (hloaded : ∀ b i slot, (b, i, slot) ∈ loaded → m.Named hash b slot ∧ m.Swept slot) :
    ({ m with holder := .copying { c with loaded := loaded } } : Race n ι).Sound hash := by
  have hc := h.copying c hcopy
  have hsettled : ({ m with holder := .copying { c with loaded := loaded } } : Race n ι).settled =
      m.settled := by
    rw [settled, settled, hcopy]
    rfl
  have hsame {b : Fin n} {slot : Slot} (hslot : m.Named hash b slot) (hs : m.Swept slot) :
      ({ m with holder := .copying { c with loaded := loaded } } : Race n ι).Named hash b slot :=
    hslot.of_regions (fun _ => rfl) (fun _ hw => hsettled ▸ hw) (fun _ => hs)
  have hlaid := h.laid
  rw [after_of_some hcopy] at hlaid
  refine ⟨hlaid, fun b i => hsame (h.named b i) (hswept b i), h.stored, ?_, ?_, ?_⟩
  · rintro b i seen ⟨⟩
  · intro c' hc'
    obtain rfl := Option.some.inj hc'
    exact ⟨hsettled ▸ hc.placed, hc.within, hc.done, hc.carried,
      fun b i slot hslot => hsame (hloaded b i slot hslot).1 (hloaded b i slot hslot).2⟩
  · rintro c' ⟨⟩

/-- An entry that is to be carried is one that stands, and its copy does not touch it. -/
theorem Sound.carry (h : m.Sound hash) {seen : Slot} (hholder : m.holder = .promoting b i seen)
    (hlive : m.shard.live seen = true) (hentry : m.shard.entry seen = some e)
    (hlen : ¬ (m.shard.region .main).len < e.size)
    (hclobber : ¬ (m.shard.region .main).wouldClobber e.size seen.off e.size = true) :
    (m.shard.region .main).start + e.size ≤ (m.shard.region .main).stop ∧
      (m.publish .main e (.carry b i seen) m.stored).Sound hash := by
  have hcopy : m.holder.copy = none := by rw [hholder]; rfl
  obtain ⟨hseen, hleft⟩ := h.promoting b i seen hholder
  obtain ⟨w, ha, -⟩ := hseen (Shard.gen_ne_zero_of_live hlive)
  have hstands := h.stands_of_live ha hlive
  obtain rfl := Option.some.inj ((h.entry ha.mem ha.off hstands).symm.trans hentry)
  have hbytes := h.intact ha.mem hstands
  rw [ha.off] at hbytes
  have hsteady := h.steady .main
  have hfits : (m.shard.region .main).start + w.entry.size ≤ (m.shard.region .main).stop := by
    have hstart := hsteady.start_le
    have hstop := hsteady.le_stop
    rw [Region.len] at hlen
    omega
  have htakes := h.laid.takes w (by rw [log_after]; exact settled_subset h ha.mem)
  rw [after_of_none hcopy] at htakes
  refine ⟨hfits, h.publish hcopy htakes hfits (h.stored w (settled_subset h ha.mem))
    (fun _ hx => hx) ?_⟩
  rintro b' i' seen' ⟨⟩
  exact ⟨Shard.apart_of_not_clobber hclobber, hbytes, ha.home, Shard.gen_ne_zero_of_live hlive, hleft⟩

/-! ## What a step leaves -/

/-- A later state: the cursors have gone on, and nothing that stood before was written again. -/
structure Onward (m m' : Race n ι) : Prop where
  settled : ∀ w, w ∈ m.settled → w ∈ m'.settled
  stands : ∀ w, w ∈ m.settled → m'.shard.Stands w → m.shard.Stands w
  cursor : ∀ side, (m.shard.region side).lap < (m'.shard.region side).lap ∨
    (m.shard.region side).lap = (m'.shard.region side).lap ∧
      (m.shard.region side).cursor.head ≤ (m'.shard.region side).cursor.head
  start : ∀ side, (m'.shard.region side).start = (m.shard.region side).start
  stop : ∀ side, (m'.shard.region side).stop = (m.shard.region side).stop
  length : m'.shard.ring.length = m.shard.ring.length

theorem Onward.of_regions (hsettled : ∀ w, w ∈ m.settled → w ∈ m'.settled)
    (hregion : ∀ side, m'.shard.region side = m.shard.region side)
    (hlength : m'.shard.ring.length = m.shard.ring.length) : m.Onward m' where
  settled := hsettled
  stands w _ := by
    rw [Shard.Stands, Shard.Stands, hregion]
    exact id
  cursor side := by
    rw [hregion]
    exact .inr ⟨rfl, Nat.le_refl _⟩
  start side := by rw [hregion]
  stop side := by rw [hregion]
  length := hlength

theorem Onward.refl (m : Race n ι) : m.Onward m :=
  .of_regions (fun _ hw => hw) (fun _ => rfl) rfl

theorem Onward.trans {m'' : Race n ι} (h : m.Onward m') (h' : m'.Onward m'') : m.Onward m'' where
  settled w hw := h'.settled w (h.settled w hw)
  stands w hw hs := h.stands w hw (h'.stands w (h.settled w hw) hs)
  cursor side := by
    have hfirst := h.cursor side
    have hsecond := h'.cursor side
    omega
  start side := (h'.start side).trans (h.start side)
  stop side := (h'.stop side).trans (h.stop side)
  length := h'.length.trans h.length

theorem Sound.onward_publish (h : m.Sound hash) (hcopy : m.holder.copy = none)
    (hfits : (m.shard.region into).start + e.size ≤ (m.shard.region into).stop) :
    m.Onward (m.publish into e job stored) := by
  have hlaid := h.laid
  rw [after_of_none hcopy] at hlaid
  have hroom := hlaid.room hfits
  have hregion (side : Side) : (m.publish into e job stored).shard.region side =
      if side = into then m.shard.reserved into e.size else m.shard.region side :=
    m.shard.region_published into side e
  refine ⟨?_, ?_, ?_, ?_, ?_, congrArg List.length (m.shard.ring_published into e)⟩
  · intro w hw
    rwa [settled_publish hcopy]
  · intro w hw hstands
    rw [settled_of_none hcopy] at hw
    have hplaced : (m.shard.place into e e.bytes).1.Stands w := by
      rw [Shard.Stands, Shard.region_place, ← hregion]
      exact hstands
    exact (hlaid.stands_of_place hfits hw hplaced).1
  · intro side
    rw [hregion]
    split_ifs with hside
    · rw [hside]
      have hlap : (m.shard.reserved into e.size).lap = _ := congrArg Cursor.lap hroom.spot
      have hhead : (m.shard.reserved into e.size).cursor.head = _ := congrArg Cursor.head hroom.spot
      rw [hlap, hhead, Cursor.next]
      obtain ⟨hseat, -⟩ | ⟨hseat, -⟩ := (m.shard.region into).spot.seat_cases
        (m.shard.region into).start (m.shard.region into).stop e.size
      · rw [hseat]
        exact .inr ⟨rfl, Nat.le_add_right _ _⟩
      · rw [hseat]
        exact .inl (Nat.lt_succ_self _)
    · exact .inr ⟨rfl, Nat.le_refl _⟩
  · intro side
    rw [hregion]
    split_ifs with hside
    · rw [hside]
      exact hroom.start
    · rfl
  · intro side
    rw [hregion]
    split_ifs with hside
    · rw [hside]
      exact hroom.stop
    · rfl

variable [DecidableEq ι] {asks : ι → Ask}

/-- One step of whoever it is keeps the shard sound, and goes on. -/
theorem Sound.step (h : m.Sound hash) (hs : Step hash asks m m') : m'.Sound hash ∧ m.Onward m' := by
  have hslots (slots : Fin n → Fin ways → Slot) : m.Onward (m.setSlots slots) :=
    .of_regions (fun _ hw => hw) (fun side => by cases side <;> rfl) rfl
  have hfinish {c : Copy n} (hholder : m.holder = .copying c) (s' : Shard n)
      (hlog : s'.log = m.shard.log) (hregion : ∀ side, s'.region side = m.shard.region side)
      (hring : s'.ring = m.shard.ring) : m.Onward { m with shard := s', holder := .idle } :=
    .of_regions (fun w hw => (show w ∈ s'.log from hlog ▸ settled_subset h hw)) hregion
      (congrArg List.length hring)
  cases hs with
  | fade slots hf => exact ⟨h.fade hf, hslots slots⟩
  | write into e hidle htakes hfits =>
    have hcopy : m.holder.copy = none := by rw [hidle]; rfl
    refine ⟨h.publish hcopy htakes hfits List.mem_cons_self (fun x hx => List.mem_cons_of_mem _ hx) ?_,
      h.onward_publish hcopy hfits⟩
    rintro b i seen ⟨⟩
  | promote b i hidle =>
    have hcopy : m.holder.copy = none := by rw [hidle]; rfl
    refine ⟨h.hold hcopy rfl ?_, .of_regions ?_ (fun _ => rfl) rfl⟩
    · rintro b' i' seen ⟨⟩
      exact ⟨h.named b i, .refl _⟩
    · intro w hw
      rwa [settled_of_none hcopy] at hw
  | carry hholder hlive hentry hlen hclobber =>
    have hcopy : m.holder.copy = none := by rw [hholder]; rfl
    obtain ⟨hfits, hsound⟩ := h.carry hholder hlive hentry hlen hclobber
    exact ⟨hsound, h.onward_publish hcopy hfits⟩
  | @swept c hholder hswept =>
    have hcopy : m.holder.copy = some c := by rw [hholder]; rfl
    refine ⟨h.copyOn hcopy ?_ ?_, .of_regions ?_ (fun _ => rfl) rfl⟩
    · intro b i c' hc'
      rw [hholder] at hc'
      cases hc'
      exact hswept b i
    · intro b i slot hslot
      rw [h.sweeping c hholder] at hslot
      exact absurd hslot List.not_mem_nil
    · intro w hw
      rwa [settled, hcopy] at hw
  | @copied c k x hholder hk hx =>
    have hcopy : m.holder.copy = some c := by rw [hholder]; rfl
    refine ⟨h.copied hholder hk hx, .of_regions ?_ (fun side => by cases side <;> rfl)
      List.length_set⟩
    intro w hw
    rwa [settled, hcopy] at hw
  | @loaded c b i hholder =>
    have hcopy : m.holder.copy = some c := by rw [hholder]; rfl
    refine ⟨h.copyOn hcopy (fun _ _ => swept_of_copying hholder) ?_,
      .of_regions ?_ (fun _ => rfl) rfl⟩
    · intro b' i' slot hslot
      rcases List.mem_cons.1 hslot with heq | hslot
      · cases heq
        exact ⟨h.named b i, swept_of_copying hholder⟩
      · exact ⟨(h.copying c hcopy).loaded b' i' slot hslot, swept_of_copying hholder⟩
    · intro w hw
      rwa [settled, hcopy] at hw
  | @decayed c b i seen hholder hjob hseen =>
    have hcopy : m.holder.copy = some c := by rw [hholder]; rfl
    refine ⟨h.setSlots ?_ ?_ ?_, hslots _⟩
    · intro b' i'
      have hset := Shard.slots_setSlot m.shard b b' i i' { seen with freq := seen.freq >>> 1 }
      rw [show Function.update m.shard.slots b (Function.update (m.shard.slots b) i _) b' i' = _
        from hset]
      split_ifs with hthis
      · rw [hthis.1]
        exact ((h.copying c hcopy).loaded b i seen hseen).left fun _ => ⟨rfl, rfl, rfl⟩
      · exact h.named b' i'
    · intro b' i' seen' hno
      rw [hno] at hcopy
      cases hcopy
    · intro c' b' i' seen' hcopy' hjob'
      obtain rfl := Option.some.inj (hcopy.symm.trans hcopy')
      rw [hjob] at hjob'
      cases hjob'
  | @pointed c i freq hholder hjob hdone =>
    exact ⟨h.pointed hholder hdone rfl rfl ⟨rfl, rfl⟩ i, hfinish hholder _ rfl (fun side => by cases side <;> rfl) rfl⟩
  | @moved c b i seen hholder hjob hdone hoff hgen =>
    have hcopy : m.holder.copy = some c := by rw [hholder]; rfl
    obtain ⟨-, -, hhome, hzero, hleft⟩ := (h.copying c hcopy).carried b i seen hjob
    obtain ⟨-, -, hfp⟩ := hleft (hgen ▸ hzero)
    exact ⟨h.pointed hholder hdone rfl rfl (hfp.symm ▸ hhome) i,
      hfinish hholder _ rfl (fun side => by cases side <;> rfl) rfl⟩
  | gaveUp hholder =>
    rcases hholder with ⟨b, i, seen, hholder⟩ | ⟨c, b, i, seen, hholder, -, hdone⟩
    · have hcopy : m.holder.copy = none := by rw [hholder]; rfl
      refine ⟨h.hold hcopy rfl ?_, .of_regions ?_ (fun _ => rfl) rfl⟩
      · rintro b' i' seen' ⟨⟩
      · intro w hw
        rwa [settled_of_none hcopy] at hw
    · exact ⟨h.finish hholder hdone, hfinish hholder _ rfl (fun _ => rfl) rfl⟩
  | load i hreader => exact ⟨h.readers _, .of_regions (fun _ hw => hw) (fun _ => rfl) rfl⟩
  | judge hreader hlive => exact ⟨h.readers _, .of_regions (fun _ hw => hw) (fun _ => rfl) rfl⟩
  | read p x hreader hx => exact ⟨h.readers _, .of_regions (fun _ hw => hw) (fun _ => rfl) rfl⟩
  | settle hreader hentry hread hfor hroom hlive hfresh =>
    exact ⟨h.readers _, .of_regions (fun _ hw => hw) (fun _ => rfl) rfl⟩
  | pass hopen hphase => exact ⟨h.readers _, .of_regions (fun _ hw => hw) (fun _ => rfl) rfl⟩

theorem init_sound {cap : Nat} (hle : 4096 ≤ cap) : (Race.init n cap : Race n ι).Sound hash := by
  have hs : (Shard.init n cap).Sound hash := Cache.init_sound hash hle
  refine ⟨hs.laid, ?_, ?_, ?_, ?_, ?_⟩
  · exact fun b i hgen => absurd rfl hgen
  · exact fun w hw => absurd hw List.not_mem_nil
  · rintro b i seen ⟨⟩
  · rintro c ⟨⟩
  · rintro c ⟨⟩

theorem Sound.runs (h : m.Sound hash) (hr : Runs hash asks m m') : m'.Sound hash ∧ m.Onward m' := by
  induction hr with
  | refl => exact ⟨h, .refl m⟩
  | tail _ hs ih =>
    obtain ⟨hsound, hon⟩ := ih.1.step hs.2
    exact ⟨hsound, ih.2.trans hon⟩

/-! ## Lookups -/

variable {r : ι} {l : Look n} {m₀ : Race n ι}

/-- What a lookup makes of its own state in a step. -/
theorem Step.reader (hs : Step hash asks m m') (r : ι) :
    m'.readers r = m.readers r ∨ (m'.readers r = .scanning ∨ m'.readers r = .missed) ∨
      (m.readers r = .scanning ∧ ∃ i, m'.readers r = .loaded
        ⟨i, m.shard.slots (bucket hash asks r) i, m.shard,
          List.replicate m.shard.ring.length 0, []⟩) ∨
      (∃ l, m.readers r = .loaded l ∧ m'.readers r = .reading l) ∨
      (∃ l p x, m.readers r = .reading l ∧ m.shard.ring[p]? = some x ∧
        m'.readers r = .reading { l with view := l.view.set p x, read := p :: l.read }) ∨
      ∃ l e, m.readers r = .reading l ∧
        { m.shard with ring := l.view }.entry l.seen = some e ∧
        (∀ p, l.seen.off ≤ p → p < l.seen.off + e.size → p ∈ l.read) ∧
        e.isFor (asks r).space (asks r).key = true ∧ e.value.length ≤ (asks r).room ∧
        m.shard.live l.seen = true ∧ e.fresh (asks r).now = true ∧ m'.readers r = .answered l e := by
  have hset (r' : ι) (phase : Reader n) :
      (m.setReader r' phase).readers r = if r = r' then phase else m.readers r := by
    by_cases hthis : r = r'
    · rw [if_pos hthis, hthis]
      exact Function.update_self ..
    · rw [if_neg hthis]
      exact Function.update_of_ne hthis ..
  cases hs with
  | fade | write | promote | carry | swept | copied | loaded | decayed | pointed | moved | gaveUp =>
    exact .inl rfl
  | @load r' i hreader =>
    rw [hset]
    split_ifs with hthis
    · exact .inr (.inr (.inl ⟨hthis ▸ hreader, i, hthis ▸ rfl⟩))
    · exact .inl rfl
  | @judge r' l hreader hlive =>
    rw [hset]
    split_ifs with hthis
    · exact .inr (.inr (.inr (.inl ⟨l, hthis ▸ hreader, rfl⟩)))
    · exact .inl rfl
  | @read r' l p x hreader hx =>
    rw [hset]
    split_ifs with hthis
    · exact .inr (.inr (.inr (.inr (.inl ⟨l, p, x, hthis ▸ hreader, hx, rfl⟩))))
    · exact .inl rfl
  | @settle r' l e hreader hentry hread hfor hroom hlive hfresh =>
    rw [hset]
    split_ifs with hthis
    · subst hthis
      exact .inr (.inr (.inr (.inr (.inr
        ⟨l, e, hreader, hentry, hread, hfor, hroom, hlive, hfresh, rfl⟩))))
    · exact .inl rfl
  | @pass r' phase hopen hphase =>
    rw [hset]
    split_ifs with hthis
    · exact .inr (.inl hphase)
    · exact .inl rfl

/-- What was read so far of an entry that still stands is the entry's. -/
structure Read (m₀ m : Race n ι) (l : Look n) : Prop where
  length : l.view.length = m.shard.ring.length
  view : ∀ w, w ∈ m₀.settled → m.shard.Stands w → ∀ p, p ∈ l.read → w.off ≤ p →
    p < w.off + w.entry.size → l.view[p]? = w.entry.bytes[p - w.off]?

theorem Read.onward (h : Read m₀ m l) (hfirst : m₀.Onward m) (hon : m.Onward m') : Read m₀ m' l :=
  ⟨h.length.trans hon.length.symm,
    fun w hw hs => h.view w hw (hon.stands w (hfirst.settled w hw) hs)⟩

theorem Read.read (h : Read m₀ m l) (hsound : m.Sound hash) (hfirst : m₀.Onward m) {p : Nat}
    {x : UInt8} (hx : m.shard.ring[p]? = some x) :
    Read m₀ m { l with view := l.view.set p x, read := p :: l.read } := by
  refine ⟨List.length_set.trans h.length, ?_⟩
  intro w hw hstands q hq hle hlt
  show (l.view.set p x)[q]? = w.entry.bytes[q - w.off]?
  by_cases hthis : q = p
  · have hin : p < l.view.length := by
      rw [h.length]
      exact (List.getElem?_eq_some_iff.1 hx).1
    have hbytes := hsound.intact (hfirst.settled w hw) hstands
    rw [← hbytes, Lib.getElem?_window, if_pos (by omega), Nat.add_sub_cancel' hle, hthis,
      List.getElem?_set_self hin, hx]
  · rw [List.getElem?_set_ne (Ne.symm hthis)]
    exact h.view w hw hstands q ((List.mem_cons.1 hq).resolve_left hthis) hle hlt

/-- A lookup that settles has read the entry its slot pointed at when it was loaded. -/
theorem settled_at_load (h₀ : m₀.Sound hash) (h : m.Sound hash) (hon : m₀.Onward m)
    (hread : Read m₀ m l) (hnamed : m₀.Named hash b l.seen)
    (hprompt : (m.shard.regionOf l.seen.off).lap <
      (m₀.shard.regionOf l.seen.off).lap + (2 ^ 15 - 2))
    (hentry : { m.shard with ring := l.view }.entry l.seen = some e)
    (hall : ∀ p, l.seen.off ≤ p → p < l.seen.off + e.size → p ∈ l.read)
    (hlive : m.shard.live l.seen = true) :
    m₀.shard.live l.seen = true ∧ m₀.shard.entry l.seen = some e := by
  obtain ⟨w, ha, -⟩ := hnamed (Shard.gen_ne_zero_of_live hlive)
  have hmem := hon.settled w ha.mem
  have hcut₀ := h₀.cut ha.mem
  have hle : w.lap ≤ (m.shard.region w.side).lap := (h.cut hmem).lap_le
  have hside : m.shard.sideOf l.seen.off = w.side := by
    rw [← ha.off]
    exact h.sideOf hmem
  have hregion : m.shard.regionOf l.seen.off = m.shard.region w.side := by
    rw [Shard.regionOf, hside]
  rw [hregion, h₀.regionOf ha] at hprompt
  have hnear := ha.near
  -- The cursor is near enough for its pass to say which one it is.
  have hpass : w.lap = (m.shard.region w.side).lap ∨
      w.lap + 1 = (m.shard.region w.side).lap ∧ genOf (m.shard.region w.side).lap ≠ 1 ∧
        (m.shard.region w.side).cursor.head ≤ w.off := by
    rw [Shard.live, hregion, liveAt_iff_record ha.off ha.gen ha.home (h.steady w.side).gen hle
      (by simp only [passes]; omega)] at hlive
    exact hlive.imp_left And.left
  have hstands : m.shard.Stands w := hpass.imp_right fun hstood => ⟨hstood.1, hstood.2.2⟩
  have hwhole : e = w.entry := by
    obtain ⟨hsized, hin, hbytes⟩ := Shard.bytes_of_entry hentry
    refine Entry.eq_of_bytes hsized (h.sized hmem) ?_
    intro k hk hk'
    have hview := hread.view w ha.mem hstands (w.off + k)
      (hall (w.off + k) (by rw [ha.off]; omega) (by rw [ha.off]; omega)) (Nat.le_add_right _ _)
      (Nat.add_lt_add_left hk' _)
    have hbytes : window l.view l.seen.off e.size = e.bytes := hbytes
    rw [← hbytes, Lib.getElem?_window, if_pos hk, ← ha.off, hview, Nat.add_sub_cancel_left]
  have hstood := hon.stands w ha.mem hstands
  refine ⟨(h₀.live_iff ha).2 ?_, hwhole ▸ h₀.entry ha.mem ha.off hstood⟩
  have hle₀ : w.lap ≤ (m₀.shard.region w.side).lap := hcut₀.lap_le
  have hcursor := hon.cursor w.side
  by_cases hsame : w.lap = (m₀.shard.region w.side).lap
  · have hbehind : w.off + w.entry.size ≤ (m₀.shard.region w.side).cursor.head := hcut₀.behind hsame
    have hpos := w.entry.size_pos
    exact .inl ⟨hsame, by omega⟩
  · obtain hlap | ⟨hlap, hgen, hhead⟩ := hpass
    · omega
    · have hlap₀ : (m₀.shard.region w.side).lap = (m.shard.region w.side).lap := by omega
      exact .inr ⟨by omega, by rwa [hlap₀], by omega⟩

variable {cap : Nat}

/-- The lookup loaded its slot in the earlier of the states. -/
structure Loaded (hash : UInt32 → Bytes → UInt64) (asks : ι → Ask) (cap : Nat) (m₀ m : Race n ι)
    (r : ι) (l : Look n) : Prop where
  reached : Runs hash asks (init n cap) m₀
  path : Runs hash asks m₀ m
  scanning : m₀.readers r = .scanning
  since : l.since = m₀.shard
  slot : l.seen = m₀.shard.slots (bucket hash asks r) l.way

/-- A lookup and the state it loaded its slot in: what it has read, and what it is answered. -/
structure Follows (hash : UInt32 → Bytes → UInt64) (asks : ι → Ask) (cap : Nat) (m : Race n ι)
    (r : ι) : Prop where
  look : ∀ l, (m.readers r).look = some l → ∃ m₀, Loaded hash asks cap m₀ m r l ∧ Read m₀ m l
  answer : ∀ l e, m.readers r = .answered l e → e.fresh (asks r).now = true ∧
    ∃ m₀, Loaded hash asks cap m₀ m r l ∧
      m₀.shard.lookAt (bucket hash asks r) (asks r).space (asks r).key (asks r).room l.way =
        some (l.way, l.seen, e)

theorem Follows.step (hle : 4096 ≤ cap) (hr : Runs hash asks (init n cap) m) (hprompt : m.Prompt)
    (hs : Step hash asks m m') (h : Follows hash asks cap m r) : Follows hash asks cap m' r := by
  have hsound := ((init_sound hle).runs hr).1
  have hon := (hsound.step hs).2
  have hone : Runs hash asks m m' := .single ⟨hprompt, hs⟩
  have hload {m₀ : Race n ι} {l : Look n} (hl : Loaded hash asks cap m₀ m r l) :
      Loaded hash asks cap m₀ m' r l :=
    ⟨hl.reached, hl.path.trans hone, hl.scanning, hl.since, hl.slot⟩
  have hfirst {m₀ : Race n ι} {l : Look n} (hl : Loaded hash asks cap m₀ m r l) :
      m₀.Sound hash ∧ m₀.Onward m := by
    have h₀ := ((init_sound hle).runs hl.reached).1
    exact ⟨h₀, (h₀.runs hl.path).2⟩
  rcases hs.reader r with hsame | hends | ⟨hscan, i, hnext⟩ | ⟨l, hl, hnext⟩ |
    ⟨l, p, x, hl, hx, hnext⟩ | ⟨l, e, hl, hentry, hread, hfor, hroom, hlive, hfresh, hnext⟩
  · refine ⟨fun l hl => ?_, fun l e he => ?_⟩
    · obtain ⟨m₀, hloaded, hread⟩ := h.look l (hsame ▸ hl)
      exact ⟨m₀, hload hloaded, hread.onward (hfirst hloaded).2 hon⟩
    · obtain ⟨hfresh, m₀, hloaded, hlook⟩ := h.answer l e (hsame ▸ he)
      exact ⟨hfresh, m₀, hload hloaded, hlook⟩
  · refine ⟨fun l hl => ?_, fun l e he => ?_⟩
    · rcases hends with hend | hend <;> rw [hend] at hl <;> cases hl
    · rcases hends with hend | hend <;> rw [hend] at he <;> cases he
  · refine ⟨fun l hl => ?_, fun l e he => ?_⟩
    · rw [hnext] at hl
      obtain rfl := Option.some.inj hl
      refine ⟨m, ⟨hr, hone, hscan, rfl, rfl⟩, ?_, ?_⟩
      · exact (List.length_replicate ..).trans hon.length.symm
      · exact fun w hw hstands p hp => absurd hp List.not_mem_nil
    · rw [hnext] at he
      cases he
  · refine ⟨fun l' hl' => ?_, fun l' e he => ?_⟩
    · rw [hnext] at hl'
      obtain rfl := Option.some.inj hl'
      obtain ⟨m₀, hloaded, hread⟩ := h.look l (by rw [hl]; rfl)
      exact ⟨m₀, hload hloaded, hread.onward (hfirst hloaded).2 hon⟩
    · rw [hnext] at he
      cases he
  · refine ⟨fun l' hl' => ?_, fun l' e he => ?_⟩
    · rw [hnext] at hl'
      obtain rfl := Option.some.inj hl'
      obtain ⟨m₀, hloaded, hread⟩ := h.look l (by rw [hl]; rfl)
      have hon₀ := (hfirst hloaded).2
      have hloaded' := hload hloaded
      exact ⟨m₀, ⟨hloaded'.reached, hloaded'.path, hloaded'.scanning, hloaded'.since, hloaded'.slot⟩,
        (hread.read hsound hon₀ hx).onward hon₀ hon⟩
    · rw [hnext] at he
      cases he
  · refine ⟨fun l' hl' => ?_, fun l' e' he' => ?_⟩
    · rw [hnext] at hl'
      cases hl'
    · rw [hnext] at he'
      cases he'
      obtain ⟨m₀, hloaded, hview⟩ := h.look l (by rw [hl]; rfl)
      obtain ⟨h₀, hon₀⟩ := hfirst hloaded
      have hnamed := h₀.named (bucket hash asks r) l.way
      have hlaps := hprompt r l hl
      rw [← hloaded.slot] at hnamed
      rw [hloaded.since] at hlaps
      obtain ⟨hlive₀, hentry₀⟩ :=
        settled_at_load h₀ hsound hon₀ hview hnamed hlaps hentry hread hlive
      rw [hloaded.slot] at hlive₀ hentry₀
      exact ⟨hfresh, m₀, hload hloaded,
        Shard.lookAt_eq_some.2 ⟨rfl, hloaded.slot.symm, hlive₀, hentry₀, hfor, hroom⟩⟩

theorem follows_of_runs (hle : 4096 ≤ cap) (hr : Runs hash asks (init n cap) m) (r : ι) :
    Follows hash asks cap m r := by
  induction hr with
  | refl =>
    constructor
    · rintro l ⟨⟩
    · rintro l e ⟨⟩
  | tail hbefore hs ih => exact ih.step hle hbefore hs.1 hs.2

/-! ## Calls that nobody disturbs -/

theorem prompt_of_quiet (h : ∀ r l, m.readers r ≠ .reading l) : m.Prompt :=
  fun r l hl => absurd hl (h r l)

/-- The bytes of an entry are copied, one after the other. -/
theorem Sound.copies (h : m.Sound hash) (hquiet : ∀ r l, m.readers r ≠ .reading l)
    (hholder : m.holder = .copying c) (hjob : c.job = .write) {k : Nat} (hk : k ≤ c.entry.size) :
    ∃ m' c', Runs hash asks m m' ∧ m'.holder = .copying c' ∧ c'.entry = c.entry ∧ c'.off = c.off ∧
      c'.into = c.into ∧ c'.job = .write ∧ (∀ j, j < k → j ∈ c'.done) ∧ m'.after = m.after ∧
      m'.readers = m.readers := by
  induction k with
  | zero =>
    exact ⟨m, c, .refl, hholder, rfl, rfl, rfl, hjob, fun j hj => absurd hj (Nat.not_lt_zero j), rfl,
      rfl⟩
  | succ k ih =>
    obtain ⟨m', c', hruns, hholder', hentry, hoff, hinto, hjob', hdone, hafter, hreaders⟩ :=
      ih (Nat.le_of_succ_le hk)
    have hcopy : m'.holder.copy = some c' := by rw [hholder']; rfl
    have hlt : k < c'.entry.size := by rwa [hentry]
    obtain ⟨x, hx⟩ : ∃ x, c'.entry.bytes[k]? = some x :=
      ⟨_, List.getElem?_eq_getElem (by rwa [Entry.length_bytes])⟩
    have hx : c'.source m'.shard.ring k = some x := by
      rw [Copy.source, hjob']
      exact hx
    have hstep : Step hash asks m' (m'.setByte c' k x) := .copied k x hholder' hlt hx
    refine ⟨m'.setByte c' k x, _, hruns.tail ⟨prompt_of_quiet (hreaders ▸ hquiet), hstep⟩, rfl,
      hentry, hoff, hinto, hjob', ?_, ?_, hreaders⟩
    · intro j hj
      rcases Nat.lt_succ_iff_lt_or_eq.1 hj with hj | rfl
      · exact List.mem_cons_of_mem _ (hdone j hj)
      · exact List.mem_cons_self
    · have hc := (h.runs hruns).1.copying c' hcopy
      exact (hc.after_setByte hcopy hlt x).trans hafter

/-- The cursor is published, and the sweep that is due clears what `place` clears. -/
theorem begins (hquiet : ∀ r l, m.readers r ≠ .reading l) (hidle : m.holder = .idle)
    (htakes : m.shard.Takes e)
    (hfits : (m.shard.region into).start + e.size ≤ (m.shard.region into).stop) :
    ∃ m' : Race n ι, Runs hash asks m m' ∧
      m'.holder = .copying ⟨into, (m.shard.record into e).off, e, .write, [], []⟩ ∧
      m'.after = (m.shard.place into e e.bytes).1 ∧ m'.readers = m.readers := by
  have hprompt : m.Prompt := prompt_of_quiet hquiet
  let m₁ := m.publish into e .write (e :: m.stored)
  have hpublish : Runs hash asks m m₁ := .single ⟨hprompt, .write into e hidle htakes hfits⟩
  have hslots := m.shard.slots_place into e e.bytes
  have hafter := m.after_publish into e .write (e :: m.stored)
  by_cases hdue : ((m.shard.region into).reserve e.size).1.sweepDue = true
  · let m₂ := m₁.setSlots (m.shard.place into e e.bytes).1.slots
    have hholder : m₂.holder = .sweeping ⟨into, (m.shard.record into e).off, e, .write, [], []⟩ :=
      if_pos hdue
    have hinto : m₂.shard.region into = m.shard.reserved into e.size := by
      have hinto := (m.shard.region_published into into e).trans (if_pos rfl)
      rw [← hinto]
      cases into <;> rfl
    have hfade : Step hash asks m₁ m₂ := by
      refine .fade _ fun b i => ?_
      rw [hslots]
      split_ifs
      · exact .inl rfl
      · exact (congrFun (congrFun (m.shard.slots_published into e) b) i) ▸ .refl
    have hswept (b : Fin n) (i : Fin ways) :
        Shard.stale (m₂.shard.region into) (m₂.shard.slots b i) = false := by
      show Shard.stale (m₂.shard.region into) ((m.shard.place into e e.bytes).1.slots b i) = false
      rw [hinto, hslots]
      split_ifs with hstale
      · rfl
      · rw [not_and, Bool.not_eq_true] at hstale
        exact hstale hdue
    refine ⟨_, (hpublish.tail ⟨prompt_of_quiet hquiet, hfade⟩).tail
      ⟨prompt_of_quiet hquiet, .swept hholder hswept⟩, rfl, ?_, rfl⟩
    have hcopy : m₂.holder.copy =
        some ⟨into, (m.shard.record into e).off, e, .write, [], []⟩ := by rw [hholder]; rfl
    have hafter₂ := m₁.after_setSlots (m.shard.place into e e.bytes).1.slots
    rw [hafter, after_of_some hcopy] at hafter₂
    exact hafter₂
  · refine ⟨m₁, hpublish, if_neg hdue, ?_, rfl⟩
    have hkept : (m.shard.place into e e.bytes).1.slots = m.shard.slots := by
      funext b i
      rw [hslots, if_neg fun hno => hdue hno.1]
    rw [← hkept] at hafter
    exact hafter

/-- The steps of a write that nobody disturbs come to what `place` does. -/
theorem Sound.places (h : m.Sound hash) (hquiet : ∀ r l, m.readers r ≠ .reading l)
    (hidle : m.holder = .idle) (htakes : m.shard.Takes e)
    (hfits : (m.shard.region into).start + e.size ≤ (m.shard.region into).stop) :
    ∃ m' c, Runs hash asks m m' ∧ m'.holder = .copying c ∧ c.entry = e ∧
      c.off = (m.shard.place into e e.bytes).2 ∧ c.into = into ∧ c.job = .write ∧ c.Done ∧
      m'.shard = (m.shard.place into e e.bytes).1 ∧ m'.readers = m.readers := by
  obtain ⟨m₁, hbegins, hholder₁, hafter₁, hreaders₁⟩ : ∃ m₁ : Race n ι, Runs hash asks m m₁ ∧
      m₁.holder = .copying ⟨into, (m.shard.record into e).off, e, .write, [], []⟩ ∧
      m₁.after = (m.shard.place into e e.bytes).1 ∧ m₁.readers = m.readers :=
    begins hquiet hidle htakes hfits
  have h₁ := (h.runs hbegins).1
  obtain ⟨m', c, hcopies, hholder, hentry, hoff, hinto, hjob, hdone, hafter, hreaders⟩ :
      ∃ m' c', Runs hash asks m₁ m' ∧ m'.holder = .copying c' ∧ c'.entry = e ∧
        c'.off = (m.shard.record into e).off ∧ c'.into = into ∧ c'.job = .write ∧
        (∀ j, j < e.size → j ∈ c'.done) ∧ m'.after = m₁.after ∧ m'.readers = m₁.readers :=
    h₁.copies (hreaders₁ ▸ hquiet) hholder₁ rfl (Nat.le_refl _)
  have hruns := hbegins.trans hcopies
  have hdone : c.Done := fun k hk => hdone k (hentry ▸ hk)
  have hwhole := (h.runs hruns).1.after_of_done hholder hdone
  exact ⟨m', c, hruns, hholder, hentry, hoff, hinto, hjob, hdone,
    hwhole.symm.trans (hafter.trans hafter₁), hreaders.trans hreaders₁⟩

/-- What was stored is there to be looked up. -/
theorem Sound.stores (h : m.Sound hash) (hquiet : ∀ r l, m.readers r ≠ .reading l)
    (hidle : m.holder = .idle) (htakes : m.shard.Takes e)
    (hfits : (m.shard.region into).start + e.size ≤ (m.shard.region into).stop) (i : Fin ways)
    {room : Nat} (hroom : e.value.length ≤ room) :
    ∃ m' seen, Runs hash asks m m' ∧ m'.readers = m.readers ∧
      m'.shard.lookAt (bucketOf n (hash e.space e.key)) e.space e.key room i = some (i, seen, e) := by
  have hcopy : m.holder.copy = none := by rw [hidle]; rfl
  have hlaid := h.laid
  rw [after_of_none hcopy] at hlaid
  obtain ⟨m₁, c, hruns, hholder, rfl, hoff, rfl, hjob, hdone, hshard, hreaders⟩ :
      ∃ m' c, Runs hash asks m m' ∧ m'.holder = .copying c ∧ c.entry = e ∧
        c.off = (m.shard.place into e e.bytes).2 ∧ c.into = into ∧ c.job = .write ∧ c.Done ∧
        m'.shard = (m.shard.place into e e.bytes).1 ∧ m'.readers = m.readers :=
    h.places hquiet hidle htakes hfits
  let b := bucketOf n (hash c.entry.space c.entry.key)
  let fp := fingerprint (hash c.entry.space c.entry.key)
  let slot : Slot := ⟨c.off, (m₁.shard.region c.into).cursor.gen, fp, 0⟩
  have hstep : Step hash asks m₁ { m₁ with shard := m₁.shard.setSlot b i slot, holder := .idle } :=
    .pointed i 0 hholder hjob hdone
  have hhome : Home hash b fp c.entry := ⟨rfl, rfl⟩
  obtain ⟨hnames, hlive⟩ := Shard.record_names hlaid htakes hfits rfl 0 hhome
  have hentry := hnames.entry (hlaid.place htakes hfits rfl) hlive
  rw [← hshard, ← hoff] at hlive hentry
  have hslot : (m₁.shard.setSlot b i slot).slots b i = slot := by
    rw [Shard.slots_setSlot, if_pos ⟨rfl, rfl⟩]
  refine ⟨_, slot, hruns.tail ⟨prompt_of_quiet (hreaders ▸ hquiet), hstep⟩, hreaders,
    Shard.lookAt_eq_some.2 ⟨rfl, hslot, ?_, ?_, Entry.isFor_iff.2 ⟨rfl, rfl⟩, hroom⟩⟩
  · rw [hslot]
    exact hlive
  · rw [hslot]
    exact hentry

theorem setReader_setReader (m : Race n ι) (r : ι) (phase phase' : Reader n) :
    (m.setReader r phase).setReader r phase' = m.setReader r phase' := by
  simp only [setReader, Function.update_idem]

theorem reader_setReader (m : Race n ι) (r : ι) (phase : Reader n) :
    (m.setReader r phase).readers r = phase := Function.update_self ..

/-- A lookup that has just loaded its slot hurries nobody. -/
theorem Prompt.setReader (h : m.Prompt) (hl : l.since = m.shard) :
    (m.setReader r (.reading l)).Prompt := by
  intro r' l' hreader
  by_cases hthis : r' = r
  · rw [hthis, reader_setReader] at hreader
    cases hreader
    rw [hl]
    exact Nat.lt_add_of_pos_right (by decide)
  · have hother : (m.setReader r (.reading l)).readers r' = m.readers r' :=
      Function.update_of_ne hthis ..
    exact h r' l' (hother ▸ hreader)

/-- The bytes from where the slot points on are read, one after the other. -/
theorem reads (hprompt : m.Prompt) (hl : l.since = m.shard)
    (hlength : l.view.length = m.shard.ring.length) {k : Nat}
    (hk : l.seen.off + k ≤ m.shard.ring.length) :
    ∃ l', Runs hash asks (m.setReader r (.reading l)) (m.setReader r (.reading l')) ∧
      l'.way = l.way ∧ l'.seen = l.seen ∧ l'.since = l.since ∧
      l'.view.length = m.shard.ring.length ∧
      ∀ j, j < k → l.seen.off + j ∈ l'.read ∧
        l'.view[l.seen.off + j]? = m.shard.ring[l.seen.off + j]? := by
  induction k with
  | zero => exact ⟨l, .refl, rfl, rfl, rfl, hlength, fun j hj => absurd hj (Nat.not_lt_zero j)⟩
  | succ k ih =>
    obtain ⟨l', hruns, hway, hseen, hsince, hlength', hread⟩ := ih (by omega)
    obtain ⟨x, hx⟩ : ∃ x, m.shard.ring[l.seen.off + k]? = some x :=
      ⟨_, List.getElem?_eq_getElem (by omega)⟩
    have hstep : Step hash asks (m.setReader r (.reading l')) _ :=
      .read (l.seen.off + k) x (m.reader_setReader r _) hx
    rw [setReader_setReader] at hstep
    refine ⟨_, hruns.tail ⟨hprompt.setReader (hsince.trans hl), hstep⟩, hway, hseen, hsince,
      List.length_set.trans hlength', ?_⟩
    intro j hj
    show l.seen.off + j ∈ (l.seen.off + k) :: l'.read ∧
      (l'.view.set (l.seen.off + k) x)[l.seen.off + j]? = m.shard.ring[l.seen.off + j]?
    rcases Nat.lt_succ_iff_lt_or_eq.1 hj with hj | rfl
    · rw [List.getElem?_set_ne (by omega)]
      exact ⟨List.mem_cons_of_mem _ (hread j hj).1, (hread j hj).2⟩
    · rw [List.getElem?_set_self (by omega), hx]
      exact ⟨List.mem_cons_self, rfl⟩

/-- A lookup that nobody disturbs is answered what is there. -/
theorem answers (hprompt : m.Prompt) (hscan : m.readers r = .scanning) {i : Fin ways} {seen : Slot}
    (hlook : m.shard.lookAt (bucket hash asks r) (asks r).space (asks r).key (asks r).room i =
      some (i, seen, e)) (hfresh : e.fresh (asks r).now = true) :
    ∃ m' l, Runs hash asks m m' ∧ m'.readers r = .answered l e ∧ l.way = i ∧ l.seen = seen ∧
      m'.shard = m.shard := by
  obtain ⟨-, rfl, hlive, hentry, hfor, hroom⟩ := Shard.lookAt_eq_some.1 hlook
  obtain ⟨hsized, hin, hbytes⟩ := Shard.bytes_of_entry hentry
  let seen := m.shard.slots (bucket hash asks r) i
  let l : Look n := ⟨i, seen, m.shard, List.replicate m.shard.ring.length 0, []⟩
  have hload : Step hash asks m (m.setReader r (.loaded l)) := .load i hscan
  have hjudge : Step hash asks (m.setReader r (.loaded l)) _ :=
    .judge (m.reader_setReader r _) hlive
  rw [setReader_setReader] at hjudge
  have hloaded : (m.setReader r (.loaded l)).Prompt := by
    intro r' l' hreader
    by_cases hthis : r' = r
    · rw [hthis, reader_setReader] at hreader
      cases hreader
    · have hother : (m.setReader r (.loaded l)).readers r' = m.readers r' :=
        Function.update_of_ne hthis ..
      exact hprompt r' l' (hother ▸ hreader)
  obtain ⟨l', hreads, hway, hseen, hsince, hlength, hread⟩ :
      ∃ l', Runs hash asks (m.setReader r (.reading l)) (m.setReader r (.reading l')) ∧
        l'.way = i ∧ l'.seen = seen ∧ l'.since = m.shard ∧
        l'.view.length = m.shard.ring.length ∧
        ∀ j, j < e.size → seen.off + j ∈ l'.read ∧
          l'.view[seen.off + j]? = m.shard.ring[seen.off + j]? :=
    reads hprompt rfl List.length_replicate hin
  have hview : window l'.view seen.off e.size = e.bytes := by
    rw [← hbytes]
    refine List.ext_getElem? fun j => ?_
    rw [Lib.getElem?_window, Lib.getElem?_window]
    split_ifs with hj
    · exact (hread j hj).2
    · rfl
  have hsettle : Step hash asks (m.setReader r (.reading l'))
      ((m.setReader r (.reading l')).setReader r (.answered l' e)) := by
    refine .settle (m.reader_setReader r _) ?_ ?_ hfor hroom (hseen.symm ▸ hlive) hfresh
    · rw [hseen]
      exact Shard.entry_of_bytes hsized (hin.trans_eq hlength.symm) hview
    · intro p hle hlt
      rw [hseen] at hle hlt
      obtain ⟨j, rfl⟩ := Nat.exists_eq_add_of_le hle
      exact (hread j (by omega)).1
  rw [setReader_setReader] at hsettle
  refine ⟨_, l', (((Relation.ReflTransGen.single ⟨hprompt, hload⟩).tail ⟨hloaded, hjudge⟩).trans
    hreads).tail ⟨hprompt.setReader hsince, hsettle⟩, m.reader_setReader r _, hway, hseen, rfl⟩

/-- **A lookup that holds nothing is answered as one that looked in no time at all.** In whatever
order the steps of the calls on a shard come, at one moment of a lookup that is answered, the one in
which it loaded its slot, the ring and the slot as they were then had that entry whole, live and
under that key, and it had been stored. -/
theorem answered_at_once (hle : 4096 ≤ cap) (hr : Runs hash asks (init n cap) m)
    (hans : m.readers r = .answered l e) :
    e.fresh (asks r).now = true ∧ ∃ m₀ : Race n ι,
      Runs hash asks (init n cap) m₀ ∧ Runs hash asks m₀ m ∧ m₀.readers r = .scanning ∧
      m₀.shard.lookAt (bucket hash asks r) (asks r).space (asks r).key (asks r).room l.way =
        some (l.way, l.seen, e) ∧ e ∈ m₀.stored := by
  obtain ⟨hfresh, m₀, hloaded, hlook⟩ := (follows_of_runs hle hr r).answer l e hans
  obtain ⟨-, hslot, hlive, hentry, -, -⟩ := Shard.lookAt_eq_some.1 hlook
  have h₀ := ((init_sound hle).runs hloaded.reached).1
  exact ⟨hfresh, m₀, hloaded.reached, hloaded.path, hloaded.scanning, hlook,
    h₀.stored_of_entry (h₀.named _ _) hlive hentry⟩

/-- An entry is stored, and then looked up. -/
theorem answered_at_once_alone :
    let hash : UInt32 → Bytes → UInt64 := fun _ _ => 0
    let asks : Unit → Ask := fun _ => ⟨1, [2], 8, 0⟩
    let e : Entry := ⟨0, 1, [2], [3]⟩
    ∃ (m : Race 1 Unit) (l : Look 1), m.readers () = .answered l e ∧ 4096 ≤ 4096 ∧
      Runs hash asks (init 1 4096) m ∧ e.fresh (asks ()).now = true ∧ ∃ m₀ : Race 1 Unit,
        Runs hash asks (init 1 4096) m₀ ∧ Runs hash asks m₀ m ∧ m₀.readers () = .scanning ∧
        m₀.shard.lookAt (bucket hash asks ()) (asks ()).space (asks ()).key (asks ()).room l.way =
          some (l.way, l.seen, e) ∧ e ∈ m₀.stored := by
  intro hash asks e
  have hinit : (init 1 4096 : Race 1 Unit).Sound hash := init_sound (Nat.le_refl _)
  have htakes : (Shard.init 1 4096).Takes e := by
    rw [Shard.Takes, show (Shard.init 1 4096).ring.length = 4096 from List.length_replicate]
    decide
  have hfits : ((Shard.init 1 4096).region .main).start + e.size ≤
      ((Shard.init 1 4096).region .main).stop := by decide
  obtain ⟨m₁, seen, hstores, hreaders, hlook⟩ : ∃ (m₁ : Race 1 Unit) (seen : Slot),
      Runs hash asks (init 1 4096) m₁ ∧ m₁.readers = (fun _ => .scanning) ∧
      m₁.shard.lookAt (bucket hash asks ()) 1 [2] 8 0 = some (0, seen, e) :=
    hinit.stores (fun _ _ hno => by cases hno) rfl htakes hfits 0 (by decide)
  have hprompt : m₁.Prompt := prompt_of_quiet fun r l hl => by rw [hreaders] at hl; cases hl
  obtain ⟨m, l, hlookup, hans, -, -, -⟩ : ∃ (m : Race 1 Unit) (l : Look 1), Runs hash asks m₁ m ∧
      m.readers () = .answered l e ∧ l.way = 0 ∧ l.seen = seen ∧ m.shard = m₁.shard :=
    answers hprompt (congrFun hreaders ()) hlook (by decide)
  have hruns := hstores.trans hlookup
  exact ⟨m, l, hans, Nat.le_refl _, hruns, answered_at_once (Nat.le_refl _) hruns hans⟩

end

end Race

end Nilo.Cache
