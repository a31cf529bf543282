import Nilo.Cache.Region
import Nilo.Std.Mem

/-!
# The cache's shards (`cache/store.zig`)

A shard is a table of buckets and one ring cut into two regions: a new entry goes into `small`, one
asked for again while it is there into `main`. What this file names is the same in every operation:
reserving room and the sweep behind it, reading an entry, carrying one to another place.
-/

namespace Nilo.Cache

open Text (Bytes)
open Mem (writeLe readLe)
open Lib (window patch copyForwards)

/-- Expiry, space, and the two lengths, ahead of the key. -/
def header : Nat := 12

structure Entry where
  expires : UInt32
  space : UInt32
  key : Bytes
  value : Bytes
deriving DecidableEq, Repr

namespace Entry

def size (e : Entry) : Nat := header + e.key.length + e.value.length

/-- An entry as it sits in the ring. -/
def bytes (e : Entry) : Bytes :=
  writeLe 4 e.expires.toNat ++ writeLe 4 e.space.toNat ++ writeLe 2 e.key.length ++
    writeLe 2 e.value.length ++ e.key ++ e.value

/-- Its lengths fit the two bytes each has in the header. -/
structure Sized (e : Entry) : Prop where
  key : e.key.length < 2 ^ 16
  value : e.value.length < 2 ^ 16

def isFor (e : Entry) (space : UInt32) (key : Bytes) : Bool := e.space = space ∧ e.key = key

/-- Zero is never. -/
def fresh (e : Entry) (now : UInt32) : Bool := e.expires = 0 ∨ now < e.expires

end Entry

/-- Whether an entry of this key and value fits a shard's ring. -/
def entryFits (ringLen keyLen valueLen : Nat) : Bool :=
  keyLen ≤ 2 ^ 16 - 1 ∧ valueLen ≤ 2 ^ 16 - 1 ∧ header + keyLen + valueLen ≤ ringLen / 4

inductive Side where
  | small
  | main
deriving DecidableEq, Repr

/-- An entry that was copied into a region, and on which pass. -/
structure Written where
  side : Side
  lap : Nat
  off : Nat
  entry : Entry
deriving DecidableEq, Repr

structure Shard (buckets : Nat) where
  slots : Fin buckets → Fin ways → Slot
  ring : Bytes
  small : Region
  main : Region
  /-- Every copy into the ring, the last one first. Nothing reads it. -/
  log : List Written

variable {n : Nat}

namespace Shard

def region (s : Shard n) : Side → Region
  | .small => s.small
  | .main => s.main

def setRegion (s : Shard n) : Side → Region → Shard n
  | .small, r => { s with small := r }
  | .main, r => { s with main := r }

def setSlot (s : Shard n) (b : Fin n) (i : Fin ways) (slot : Slot) : Shard n :=
  { s with slots := Function.update s.slots b (Function.update (s.slots b) i slot) }

/-- `regionOf`: which region an offset is in. -/
def sideOf (s : Shard n) (off : Nat) : Side := if s.small.holds off then .small else .main

def regionOf (s : Shard n) (off : Nat) : Region := s.region (s.sideOf off)

def live (s : Shard n) (slot : Slot) : Bool := Region.liveAt (s.regionOf slot.off).cursor slot

/-- What `init` leaves: the doorkeeper is a tenth of the ring, and no less than 512 bytes. -/
def init (n cap : Nat) : Shard n :=
  let smallLen := max (cap / smallShare) 512
  { slots := fun _ _ => .never
    ring := List.replicate cap 0
    small := .init 0 smallLen
    main := .init smallLen cap
    log := [] }

/-- A slot that points into `r` and has been dead for a lap. -/
def stale (r : Region) (slot : Slot) : Bool :=
  slot.gen ≠ 0 ∧ r.holds slot.off ∧ ¬ Region.liveAt r.cursor slot ∧ ¬ Region.ghostAt r.cursor slot

/-- Forget every slot that points into the region and has been dead for a lap. -/
def sweep (s : Shard n) (side : Side) : Shard n :=
  { s with
    slots := fun b i => if stale (s.region side) (s.slots b i) then .never else s.slots b i }

/-- `Region.reserve`, and then the sweep it may have asked for. -/
def reserve (s : Shard n) (into : Side) (total : Nat) : Shard n × Nat :=
  let r := (s.region into).reserve total
  (if r.1.sweepDue then (s.setRegion into { r.1 with sweepDue := false }).sweep into
    else s.setRegion into r.1, r.2)

/-- An integer of `k` bytes in the header at `off`. -/
def field (s : Shard n) (off i k : Nat) : Nat := readLe (window (window s.ring off header) i k)

/-- The header, the key and the value, read out of the ring. -/
def entry (s : Shard n) (slot : Slot) : Option Entry :=
  if s.ring.length < slot.off + header then none
  else if s.ring.length < slot.off + (header + s.field slot.off 8 2 + s.field slot.off 10 2) then
    none
  else some {
    expires := UInt32.ofNat (s.field slot.off 0 4)
    space := UInt32.ofNat (s.field slot.off 4 4)
    key := window s.ring (slot.off + header) (s.field slot.off 8 2)
    value := window s.ring (slot.off + header + s.field slot.off 8 2) (s.field slot.off 10 2) }

/-- Reserve room for an entry and fill it by `copy`. -/
def placeWith (s : Shard n) (into : Side) (e : Entry) (copy : Bytes → Nat → Bytes) :
    Shard n × Nat :=
  let r := s.reserve into e.size
  ({ r.1 with
      ring := copy r.1.ring r.2
      log := ⟨into, (r.1.region into).lap, r.2, e⟩ :: r.1.log }, r.2)

/-- Reserve room for an entry and copy its bytes there. -/
def place (s : Shard n) (into : Side) (e : Entry) (bytes : Bytes) : Shard n × Nat :=
  s.placeWith into e fun ring off => patch ring off bytes

/-- Copy an entry to the region's cursor and point its slot at the copy, unless a sweep took the
slot meanwhile. -/
def carry (s : Shard n) (into : Side) (b : Fin n) (i : Fin ways) (seen : Slot) (e : Entry) :
    Shard n × Bool :=
  let total := e.size
  if (s.region into).len < total then (s, false)
  else if (s.region into).wouldClobber total seen.off total then (s, false)
  else
    let p := s.placeWith into e fun ring off => copyForwards ring off seen.off total
    let now := p.1.slots b i
    if now.off ≠ seen.off ∨ now.gen ≠ seen.gen then (p.1, false)
    else (p.1.setSlot b i { now with off := p.2, gen := (p.1.region into).cursor.gen }, true)

/-- The write half of a read: what a lookup wants moved to `main`, if its slot is still the one it
saw. -/
def promote (s : Shard n) (b : Fin n) (i : Fin ways) (expect : Slot) : Shard n × Bool :=
  let seen := s.slots b i
  if seen.off ≠ expect.off ∨ seen.gen ≠ expect.gen then (s, false)
  else if ¬ s.live seen then (s, false)
  else match s.entry seen with
    | none => (s, false)
    | some e => s.carry .main b i seen e

end Shard

/-! ## Entries as bytes -/

namespace Entry

variable {e : Entry}

@[simp] theorem length_bytes (e : Entry) : e.bytes.length = e.size := by
  simp only [bytes, size, header, List.length_append, Mem.length_writeLe]

theorem sized_of_entryFits {e : Entry} {ringLen : Nat} (h : entryFits ringLen e.key.length e.value.length) :
    e.Sized ∧ e.size ≤ ringLen / 4 := by
  rw [entryFits, decide_eq_true_eq] at h
  exact ⟨⟨by omega, by omega⟩, h.2.2⟩

end Entry

namespace Shard

variable {s : Shard n} {slot : Slot} {e : Entry}

theorem length_header {off : Nat} (h : off + header ≤ s.ring.length) {i k : Nat}
    (hi : i + k ≤ header) : (window (window s.ring off header) i k).length = k :=
  Lib.length_window (by rwa [Lib.length_window h])

theorem writeLe_field {off : Nat} (h : off + header ≤ s.ring.length) {i k : Nat}
    (hi : i + k ≤ header) : writeLe k (s.field off i k) = window s.ring (off + i) k := by
  have hread := Mem.writeLe_readLe (window (window s.ring off header) i k)
  rw [length_header h hi] at hread
  rw [field, hread, Lib.window_window hi]

theorem field_lt {off : Nat} (h : off + header ≤ s.ring.length) {i k : Nat}
    (hi : i + k ≤ header) : s.field off i k < 256 ^ k := by
  have hlt := Mem.readLe_lt (window (window s.ring off header) i k)
  rwa [length_header h hi] at hlt

/-- The header and what is behind it, as the pieces they are written in. -/
theorem window_entry (ring : Bytes) (off klen vlen : Nat) :
    window ring off (header + klen + vlen) =
      window ring off 4 ++ window ring (off + 4) 4 ++ window ring (off + 8) 2 ++
        window ring (off + 10) 2 ++ window ring (off + header) klen ++
          window ring (off + header + klen) vlen := by
  have hheader : window ring off header = window ring off 4 ++ window ring (off + 4) 4 ++
      window ring (off + 8) 2 ++ window ring (off + 10) 2 := by
    show window ring off (4 + 4 + 2 + 2) = _
    rw [Lib.window_add, Lib.window_add, Lib.window_add]
  rw [Lib.window_add, Lib.window_add, hheader, Nat.add_assoc off header klen]

/-- What an entry is read as is what stands in the ring. -/
theorem bytes_of_entry (h : s.entry slot = some e) :
    e.Sized ∧ slot.off + e.size ≤ s.ring.length ∧ window s.ring slot.off e.size = e.bytes := by
  rw [entry] at h
  split_ifs at h with hhead htotal
  have hhead : slot.off + header ≤ s.ring.length := Nat.le_of_not_lt hhead
  have htotal := Nat.le_of_not_lt htotal
  have hword (i : Nat) (hi : i + 4 ≤ header) :
      writeLe 4 (UInt32.ofNat (s.field slot.off i 4)).toNat = window s.ring (slot.off + i) 4 := by
    rw [UInt32.toNat_ofNat_of_lt' (field_lt hhead hi), writeLe_field hhead hi]
  have hkey := @Lib.length_window _ s.ring (slot.off + header) (s.field slot.off 8 2) (by omega)
  have hvalue := @Lib.length_window _ s.ring (slot.off + header + s.field slot.off 8 2)
    (s.field slot.off 10 2) (by omega)
  obtain rfl := Option.some.inj h
  refine ⟨⟨?_, ?_⟩, ?_, ?_⟩
  · rw [hkey]
    exact field_lt hhead (by decide)
  · rw [hvalue]
    exact field_lt hhead (by decide)
  · rw [Entry.size, hkey, hvalue]
    exact htotal
  · rw [Entry.size, Entry.bytes, hkey, hvalue, hword 0 (by decide), hword 4 (by decide),
      writeLe_field hhead (by decide), writeLe_field hhead (by decide), window_entry]
    rfl

/-- An entry that stands in the ring is read. -/
theorem entry_of_bytes (hsized : e.Sized) (hin : slot.off + e.size ≤ s.ring.length)
    (h : window s.ring slot.off e.size = e.bytes) : s.entry slot = some e := by
  rw [Entry.size] at hin h
  rw [window_entry, Entry.bytes] at h
  have hlen (off k : Nat) (hoff : off + k ≤ slot.off + (header + e.key.length + e.value.length)) :
      (window s.ring off k).length = k :=
    Lib.length_window (Nat.le_trans hoff hin)
  have hheader : header = 12 := rfl
  obtain ⟨h, hvalue⟩ := List.append_inj' h (hlen _ _ (by omega))
  obtain ⟨h, hkey⟩ := List.append_inj' h (hlen _ _ (by omega))
  obtain ⟨h, hvlen⟩ := List.append_inj' h (by rw [hlen _ _ (by omega), Mem.length_writeLe])
  obtain ⟨h, hklen⟩ := List.append_inj' h (by rw [hlen _ _ (by omega), Mem.length_writeLe])
  obtain ⟨hexpires, hspace⟩ := List.append_inj' h (by rw [hlen _ _ (by omega), Mem.length_writeLe])
  have hfield {i k x : Nat} (hi : i + k ≤ header) (hx : x < 256 ^ k)
      (heq : window s.ring (slot.off + i) k = writeLe k x) : s.field slot.off i k = x := by
    rw [field, Lib.window_window hi, heq, Mem.readLe_writeLe, Nat.mod_eq_of_lt hx]
  have hexpires := @hfield 0 4 _ (by decide) e.expires.toNat_lt hexpires
  have hspace := hfield (by decide) e.space.toNat_lt hspace
  have hklen := hfield (by decide) hsized.key hklen
  have hvlen := hfield (by decide) hsized.value hvlen
  rw [entry, if_neg (by omega), hklen, hvlen, if_neg (by omega), hkey, hvalue, hexpires, hspace,
    UInt32.ofNat_toNat, UInt32.ofNat_toNat]

end Shard

end Nilo.Cache
