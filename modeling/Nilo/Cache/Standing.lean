import Nilo.Cache.Store

/-!
# What a live slot points at (`cache/store.zig`)

Every copy into the ring is kept in the shard's log with the pass it was written on. `Laid` says how
the ring, the two cursors and the log belong together: an entry the cursor has not come to again is
in the ring byte for byte, and nothing written after it touches it. `Sound` adds the table: a slot
names an entry of the log no older than the last sweep, so sixteen bits are enough to tell whether
it stands (`live_iff`), and no key has two live slots.
-/

namespace Nilo.Cache

open Text (Bytes)
open Lib (Cursor Piece window patch)
open Region (liveAt ghostAt)

variable {n : Nat}

/-! ## Regions -/

namespace Region

variable {r : Region} {total : Nat}

/-- The cursor, with its passes counted without a bound. -/
def spot (r : Region) : Cursor := ⟨r.lap, r.cursor.head⟩

structure Steady (r : Region) : Prop where
  start_le : r.start ≤ r.cursor.head
  le_stop : r.cursor.head ≤ r.stop
  gen : r.cursor.gen = genOf r.lap
  swept : r.sweepDue = false

theorem reserve_here (h : ¬ r.stop < r.cursor.head + total) :
    r.reserve total = ({ r with cursor := ⟨r.cursor.head + total, r.cursor.gen⟩ }, r.cursor.head) := by
  simp only [reserve, if_neg h]

theorem reserve_again (h : r.stop < r.cursor.head + total) :
    r.reserve total =
      ({ r.again with cursor := ⟨r.start + total, nextGen r.cursor.gen⟩ }, r.start) := by
  simp only [reserve, if_pos h, again]

/-- What `reserve` makes of a region, as the cursor sees it. -/
theorem reserve_spec (h : r.Steady) (total : Nat) :
    (r.reserve total).1.start = r.start ∧ (r.reserve total).1.stop = r.stop ∧
      (r.reserve total).1.spot = r.spot.next r.start r.stop total ∧
      (r.reserve total).2 = (r.spot.piece r.start r.stop total).off ∧
      (r.reserve total).1.cursor.gen = genOf (r.reserve total).1.lap := by
  by_cases hfull : r.stop < r.cursor.head + total
  · have hseat : r.spot.seat r.start r.stop total = ⟨r.lap + 1, r.start⟩ := if_pos hfull
    have hgen : nextGen r.cursor.gen = genOf (r.lap + 1) := by rw [h.gen, nextGen_genOf]
    rw [reserve_again hfull, Cursor.next, Cursor.piece, hseat]
    exact ⟨rfl, rfl, rfl, rfl, hgen⟩
  · have hseat : r.spot.seat r.start r.stop total = r.spot := if_neg hfull
    rw [reserve_here hfull, Cursor.next, Cursor.piece, hseat]
    exact ⟨rfl, rfl, rfl, rfl, h.gen⟩

/-- A sweep is due at the start of a pass that has one. -/
theorem sweepDue_reserve (h : r.Steady) (total : Nat) :
    (r.reserve total).1.sweepDue = true ↔
      (r.reserve total).1.lap = r.lap + 1 ∧ Sweeps (r.lap + 1) := by
  by_cases hfull : r.stop < r.cursor.head + total
  · have hgen : nextGen r.cursor.gen = genOf (r.lap + 1) := by rw [h.gen, nextGen_genOf]
    rw [reserve_again hfull]
    show (r.sweepDue || (nextGen r.cursor.gen &&& 0x7fff == 0 || nextGen r.cursor.gen == 1)) = true ↔
      r.lap + 1 = r.lap + 1 ∧ Sweeps (r.lap + 1)
    rw [h.swept, hgen, Bool.false_or, sweeps_iff]
    exact (and_iff_right rfl).symm
  · rw [reserve_here hfull]
    show r.sweepDue = true ↔ r.lap = r.lap + 1 ∧ Sweeps (r.lap + 1)
    rw [h.swept]
    refine ⟨fun hno => Bool.noConfusion hno, fun hlap => ?_⟩
    exact absurd hlap.1 (Nat.ne_of_lt (Nat.lt_succ_self _))

theorem lap_reserve (r : Region) (total : Nat) :
    (r.reserve total).1.lap = r.lap ∨ (r.reserve total).1.lap = r.lap + 1 := by
  by_cases hfull : r.stop < r.cursor.head + total
  · rw [reserve_again hfull]
    exact .inr rfl
  · rw [reserve_here hfull]
    exact .inl rfl

end Region

def Written.piece (w : Written) : Piece := ⟨w.lap, w.off, w.entry.size⟩

theorem Entry.size_pos (e : Entry) : 0 < e.size := by
  rw [Entry.size, header]
  omega

namespace Shard

@[simp] theorem region_setRegion (s : Shard n) (side : Side) (r : Region) :
    (s.setRegion side r).region side = r := by
  cases side <;> rfl

theorem region_setRegion_ne (s : Shard n) {side other : Side} (r : Region) (h : other ≠ side) :
    (s.setRegion side r).region other = s.region other := by
  cases side <;> cases other <;> first | rfl | exact absurd rfl h

@[simp] theorem ring_setRegion (s : Shard n) (side : Side) (r : Region) :
    (s.setRegion side r).ring = s.ring := by
  cases side <;> rfl

@[simp] theorem log_setRegion (s : Shard n) (side : Side) (r : Region) :
    (s.setRegion side r).log = s.log := by
  cases side <;> rfl

@[simp] theorem slots_setRegion (s : Shard n) (side : Side) (r : Region) :
    (s.setRegion side r).slots = s.slots := by
  cases side <;> rfl

/-! ## The ring and its log -/

/-- How far the cursor of an entry's region is from it. -/
def Stands (s : Shard n) (w : Written) : Prop := (s.region w.side).spot.Standing w.piece

/-- A shard accepts the entry. -/
def Takes (s : Shard n) (e : Entry) : Prop :=
  entryFits s.ring.length e.key.length e.value.length = true

structure Laid (s : Shard n) : Prop where
  small_start : (s.region .small).start = 0
  small_stop : (s.region .small).stop = (s.region .main).start
  main_stop : (s.region .main).stop = s.ring.length
  /-- The largest entry a shard accepts fits. -/
  roomy : s.ring.length / 4 ≤ (s.region .main).len
  steady : ∀ side, (s.region side).Steady
  cut : ∀ w ∈ s.log,
    (s.region w.side).spot.Cut (s.region w.side).start (s.region w.side).stop w.piece
  takes : ∀ w ∈ s.log, s.Takes w.entry
  intact : ∀ w ∈ s.log, s.Stands w → window s.ring w.off w.entry.size = w.entry.bytes
  apart : s.log.Pairwise fun later w => s.Stands w → later.piece.Apart w.piece

variable {s : Shard n} {w : Written} {e : Entry}

theorem Laid.of_slots (h : s.Laid) (slots : Fin n → Fin ways → Slot) :
    { s with slots := slots }.Laid :=
  ⟨h.small_start, h.small_stop, h.main_stop, h.roomy, h.steady, h.cut, h.takes, h.intact, h.apart⟩

theorem Laid.stop_le (h : s.Laid) (side : Side) : (s.region side).stop ≤ s.ring.length := by
  cases side with
  | small =>
    have hstart := (h.steady .main).start_le
    have hhead := (h.steady .main).le_stop
    have hstop := h.small_stop
    have hlen := h.main_stop
    omega
  | main => exact Nat.le_of_eq h.main_stop

/-- The region an entry was copied into is the one its offset is in. -/
theorem Laid.sideOf (h : s.Laid) (hw : w ∈ s.log) : s.sideOf w.off = w.side := by
  have hcut := h.cut w hw
  have hstart : (s.region w.side).start ≤ w.off := hcut.start_le
  have hstop : w.off + w.entry.size ≤ (s.region w.side).stop := hcut.le_stop
  have hpos := w.entry.size_pos
  have hsmall : s.small.start = 0 := h.small_start
  have hmeet : s.small.stop = s.main.start := h.small_stop
  cases hside : w.side with
  | small =>
    rw [hside] at hstop
    have hstop : w.off + w.entry.size ≤ s.small.stop := hstop
    refine if_pos (decide_eq_true ?_)
    omega
  | main =>
    rw [hside] at hstart
    have hstart : s.main.start ≤ w.off := hstart
    refine if_neg ?_
    intro hin
    have hin := of_decide_eq_true hin
    omega

/-- Entries of two regions do not touch. -/
theorem Laid.apart_of_side (h : s.Laid) {p q : Piece} {side other : Side} (hne : side ≠ other)
    (hp : (s.region side).start ≤ p.off ∧ p.off + p.size ≤ (s.region side).stop)
    (hq : (s.region other).start ≤ q.off ∧ q.off + q.size ≤ (s.region other).stop) :
    p.Apart q := by
  have hmeet := h.small_stop
  rw [Piece.Apart]
  cases side <;> cases other
  · exact absurd rfl hne
  · omega
  · omega
  · exact absurd rfl hne

/-! ## Reserving room -/

/-- The region after room was reserved in it. -/
def reserved (s : Shard n) (into : Side) (total : Nat) : Region :=
  { ((s.region into).reserve total).1 with sweepDue := false }

theorem reserve_eq (s : Shard n) (into : Side) (total : Nat) :
    s.reserve into total =
      (if ((s.region into).reserve total).1.sweepDue then
        (s.setRegion into (s.reserved into total)).sweep into
       else s.setRegion into (s.reserved into total), ((s.region into).reserve total).2) := by
  rw [reserve]
  split_ifs with hdue
  · rfl
  · rw [Bool.not_eq_true] at hdue
    have hsame : s.reserved into total = ((s.region into).reserve total).1 := by
      rw [reserved, ← hdue]
    rw [hsame]

theorem region_reserve (s : Shard n) (into side : Side) (total : Nat) :
    (s.reserve into total).1.region side =
      if side = into then s.reserved into total else s.region side := by
  have hset : ((s.setRegion into (s.reserved into total)).region side) =
      if side = into then s.reserved into total else s.region side := by
    split_ifs with hside
    · rw [hside, region_setRegion]
    · rw [region_setRegion_ne s _ hside]
  rw [reserve_eq, ← hset]
  split_ifs
  · cases side <;> rfl
  · rfl

theorem ring_reserve (s : Shard n) (into : Side) (total : Nat) :
    (s.reserve into total).1.ring = s.ring := by
  rw [reserve_eq, ← ring_setRegion s into (s.reserved into total)]
  split_ifs <;> rfl

theorem log_reserve (s : Shard n) (into : Side) (total : Nat) :
    (s.reserve into total).1.log = s.log := by
  rw [reserve_eq, ← log_setRegion s into (s.reserved into total)]
  split_ifs <;> rfl

theorem slots_reserve (s : Shard n) (into : Side) (total : Nat) (b : Fin n) (i : Fin ways) :
    (s.reserve into total).1.slots b i =
      if ((s.region into).reserve total).1.sweepDue ∧
          stale (s.reserved into total) (s.slots b i) then .never
      else s.slots b i := by
  rw [reserve_eq]
  by_cases hdue : ((s.region into).reserve total).1.sweepDue
  · have hslot : ((s.setRegion into (s.reserved into total)).sweep into).slots b i =
        if stale (s.reserved into total) (s.slots b i) then .never else s.slots b i := by
      simp only [sweep, region_setRegion, slots_setRegion]
    simp only [hdue, if_true, true_and, hslot]
  · simp only [hdue, if_false, false_and, slots_setRegion, Bool.false_eq_true]

/-! ## Copying an entry in -/

/-- The record of an entry that is copied in next. -/
def record (s : Shard n) (into : Side) (e : Entry) : Written :=
  ⟨into, (s.reserved into e.size).lap, ((s.region into).reserve e.size).2, e⟩

theorem place_log (s : Shard n) (into : Side) (e : Entry) (bytes : Bytes) :
    (s.place into e bytes).1.log = s.record into e :: s.log := by
  show _ :: (s.reserve into e.size).1.log = _
  rw [region_reserve, if_pos rfl, log_reserve]
  rfl

theorem place_ring (s : Shard n) (into : Side) (e : Entry) (bytes : Bytes) :
    (s.place into e bytes).1.ring = patch s.ring (s.record into e).off bytes := by
  show patch (s.reserve into e.size).1.ring _ bytes = _
  rw [ring_reserve]
  rfl

theorem region_place (s : Shard n) (into side : Side) (e : Entry) (bytes : Bytes) :
    (s.place into e bytes).1.region side =
      if side = into then s.reserved into e.size else s.region side := by
  rw [← region_reserve]
  cases side <;> rfl

theorem slots_place (s : Shard n) (into : Side) (e : Entry) (bytes : Bytes) (b : Fin n)
    (i : Fin ways) :
    (s.place into e bytes).1.slots b i =
      if ((s.region into).reserve e.size).1.sweepDue ∧
          stale (s.reserved into e.size) (s.slots b i) then .never
      else s.slots b i :=
  slots_reserve s into e.size b i

/-- What a place is about: the room it reserves, in terms of the cursor. -/
structure Room (s : Shard n) (into : Side) (e : Entry) : Prop where
  start : (s.reserved into e.size).start = (s.region into).start
  stop : (s.reserved into e.size).stop = (s.region into).stop
  spot : (s.reserved into e.size).spot =
    (s.region into).spot.next (s.region into).start (s.region into).stop e.size
  piece : (s.record into e).piece =
    (s.region into).spot.piece (s.region into).start (s.region into).stop e.size
  steady : (s.reserved into e.size).Steady

theorem Laid.room (h : s.Laid) {into : Side}
    (hfits : (s.region into).start + e.size ≤ (s.region into).stop) : s.Room into e := by
  obtain ⟨hstart, hstop, hspot, hoff, hgen⟩ := Region.reserve_spec (h.steady into) e.size
  have hlap : ((s.region into).reserve e.size).1.lap =
      ((s.region into).spot.seat (s.region into).start (s.region into).stop e.size).lap :=
    congrArg Cursor.lap hspot
  refine ⟨hstart, hstop, hspot, ?_, ?_⟩
  · show Piece.mk _ _ _ = _
    rw [show (s.record into e).off = _ from hoff, show (s.record into e).lap = _ from hlap]
    rfl
  · have hhead : (s.reserved into e.size).cursor.head = _ := congrArg Cursor.head hspot
    refine ⟨?_, ?_, hgen, rfl⟩
    · rw [hhead, show (s.reserved into e.size).start = _ from hstart]
      exact Nat.le_trans (Cursor.le_seat_head (h.steady into).start_le) (Nat.le_add_right _ _)
    · rw [hhead, show (s.reserved into e.size).stop = _ from hstop]
      exact Cursor.next_head_le hfits

/-- What still stands after an entry was copied in stood before, and the entry does not touch it. -/
theorem Laid.stands_of_place (h : s.Laid) {into : Side}
    (hfits : (s.region into).start + e.size ≤ (s.region into).stop) {bytes : Bytes}
    (hw : w ∈ s.log) (hstands : (s.place into e bytes).1.Stands w) :
    s.Stands w ∧ (s.record into e).piece.Apart w.piece := by
  have hroom := h.room hfits
  have hcut := h.cut w hw
  rw [Stands, region_place] at hstands
  by_cases hside : w.side = into
  · rw [if_pos hside, hroom.spot] at hstands
    rw [hside] at hcut
    rw [Stands, hside, hroom.piece]
    exact ⟨hstands.of_next hcut, hstands.apart hcut⟩
  · rw [if_neg hside] at hstands
    have hnew := Cursor.cut_piece (h.steady into).start_le hfits (c := (s.region into).spot)
    rw [← hroom.piece] at hnew
    exact ⟨hstands, h.apart_of_side (Ne.symm hside) ⟨hnew.start_le, hnew.le_stop⟩
      ⟨hcut.start_le, hcut.le_stop⟩⟩

theorem Laid.place (h : s.Laid) {into : Side} (htakes : s.Takes e)
    (hfits : (s.region into).start + e.size ≤ (s.region into).stop) {bytes : Bytes}
    (hbytes : bytes = e.bytes) : (s.place into e bytes).1.Laid := by
  have hroom := h.room hfits
  have hnew := Cursor.cut_piece (h.steady into).start_le hfits (c := (s.region into).spot)
  rw [← hroom.piece] at hnew
  have hin : (s.record into e).off + bytes.length ≤ s.ring.length := by
    rw [hbytes, Entry.length_bytes]
    exact Nat.le_trans hnew.le_stop (h.stop_le into)
  have hbounds (side : Side) :
      ((s.place into e bytes).1.region side).start = (s.region side).start ∧
        ((s.place into e bytes).1.region side).stop = (s.region side).stop := by
    rw [region_place]
    split_ifs with hside
    · rw [hside]
      exact ⟨hroom.start, hroom.stop⟩
    · exact ⟨rfl, rfl⟩
  refine ⟨?_, ?_, ?_, ?_, ?_, ?_, ?_, ?_, ?_⟩
  · rw [(hbounds _).1]
    exact h.small_start
  · rw [(hbounds _).1, (hbounds _).2]
    exact h.small_stop
  · rw [(hbounds _).2, place_ring, Lib.length_patch hin]
    exact h.main_stop
  · rw [Region.len, (hbounds _).1, (hbounds _).2, place_ring, Lib.length_patch hin]
    exact h.roomy
  · intro side
    rw [region_place]
    split_ifs
    · exact hroom.steady
    · exact h.steady side
  · intro w hw
    rw [place_log, List.mem_cons] at hw
    rw [(hbounds _).1, (hbounds _).2, region_place]
    rcases hw with rfl | hw
    · show (if into = into then s.reserved into e.size else _).spot.Cut _ _ _
      rw [if_pos rfl, hroom.spot]
      exact hnew
    · split_ifs with hside
      · rw [hroom.spot, hside]
        exact Cursor.cut_next (hside ▸ h.cut w hw)
      · exact h.cut w hw
  · intro w hw
    rw [place_log, List.mem_cons] at hw
    rw [Takes, place_ring, Lib.length_patch hin]
    rcases hw with rfl | hw
    · exact htakes
    · exact h.takes w hw
  · intro w hw hstands
    rw [place_log, List.mem_cons] at hw
    rw [place_ring]
    rcases hw with rfl | hw
    · have hself := Lib.window_patch_self hin
      rw [hbytes, Entry.length_bytes] at hself
      rw [hbytes]
      exact hself
    · obtain ⟨hstood, hapart⟩ := h.stands_of_place hfits hw hstands
      rw [Lib.window_patch_apart hin, h.intact w hw hstood]
      rw [hbytes, Entry.length_bytes]
      exact hapart.symm
  · rw [place_log, List.pairwise_cons]
    refine ⟨fun w hw hstands => (h.stands_of_place hfits hw hstands).2, ?_⟩
    refine List.Pairwise.imp_of_mem ?_ h.apart
    intro later w _ hw hapart hstands
    exact hapart (h.stands_of_place hfits hw hstands).1

end Shard

end Nilo.Cache
