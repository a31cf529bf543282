import Nilo.Cache.Shard
import Mathlib.Data.Nat.Log

/-!
# The cache store (`cache/store.zig`)

The operations on one shard under its lock (`write`, which is a put, a claim or an add; `get`, `del`
and `clear`), how a budget is cut into shards (`Options.layout`), and the store: every operation on
the shard its key hashes to, one after the other (`Store.run`).
-/

namespace Nilo.Cache

open Text (Bytes)
open Mem (writeLe readLe)
open Region (liveAt ghostAt)

variable {n : Nat}

/-! ## Counters -/

/-- An integer type: its bits, and the bytes it is stored in. -/
structure Num where
  signed : Bool
  bits : Nat
  size : Nat
  bits_le : bits ≤ 8 * size
  bits_pos : signed → 0 < bits
deriving DecidableEq

namespace Num

def min (t : Num) : Int := if t.signed then -2 ^ (t.bits - 1) else 0

def max (t : Num) : Int := if t.signed then 2 ^ (t.bits - 1) - 1 else 2 ^ t.bits - 1

/-- A value of the type. -/
def Value (t : Num) : Type := { v : Int // t.min ≤ v ∧ v ≤ t.max }

/-- `+|` -/
def satAdd (t : Num) (a b : Int) : Int := Max.max t.min (Min.min t.max (a + b))

/-- `std.mem.asBytes` -/
def asBytes (t : Num) (v : Int) : Bytes := writeLe t.size (v % 2 ^ (8 * t.size)).toNat

/-- `std.mem.bytesToValue` -/
def ofBytes (t : Num) (b : Bytes) : Int :=
  let low : Int := (readLe b % 2 ^ t.bits : Nat)
  if t.signed ∧ 2 ^ (t.bits - 1) ≤ low then low - 2 ^ t.bits else low

end Num

/-- What `write` is asked to do. -/
inductive Mode where
  | put
  | claim
  /-- The integer type an `add` reads and writes. -/
  | add (int : Num)
deriving DecidableEq

def Mode.adds : Mode → Bool
  | .add _ => true
  | _ => false

inductive Claim where
  | stored
  | taken
  | refused
deriving DecidableEq, Repr

/-- `+|` of two seconds. -/
def satAdd (a b : UInt32) : UInt32 := if a.toNat + b.toNat < 2 ^ 32 then a + b else 0xffffffff

/-- When an entry written now expires: `ttl` seconds and up to one more, never fewer. -/
def expiryOf (now ttl : UInt32) : UInt32 := if ttl = 0 then 0 else satAdd (satAdd now ttl) 1

/-- The clock a write goes by: a put that never expires reads none. -/
def clockOf (mode : Mode) (ttl now : UInt32) : UInt32 := if ttl = 0 ∧ mode = .put then 0 else now

/-- What `write` copies in, and the sum it answers: an add on a counter that is there and has not
expired adds to it and keeps its expiry, and counts from zero otherwise. -/
def Mode.entry (mode : Mode) (space : UInt32) (key value : Bytes) (expires now : UInt32)
    (found : Option Entry) : Entry × Int :=
  match mode with
  | .add int =>
    let delta := int.ofBytes value
    match found.filter fun e => e.fresh now ∧ e.value.length = int.size with
    | some e =>
      let sum := int.satAdd (int.ofBytes e.value) delta
      (⟨e.expires, space, key, int.asBytes sum⟩, sum)
    | none => (⟨expires, space, key, int.asBytes delta⟩, delta)
  | _ => (⟨expires, space, key, value⟩, 0)

/-! ## One shard -/

/-- Bits 50 to 63. -/
def fingerprint (hash : UInt64) : Nat := hash.toNat >>> 50

/-- By multiplying into the top half of a 64-bit product instead of masking. -/
def bucketOf (n : Nat) [NeZero n] (hash : UInt64) : Fin n :=
  ⟨(hash.toNat % 2 ^ 32 * n) >>> 32, by
    have hpos : 0 < n := Nat.pos_of_ne_zero (NeZero.ne n)
    have hlt : hash.toNat % 2 ^ 32 < 2 ^ 32 := Nat.mod_lt _ (by decide)
    rw [Nat.shiftRight_eq_div_pow]
    exact Nat.div_lt_of_lt_mul (Nat.mul_lt_mul_of_pos_right hlt hpos)⟩

/-- Which of a bucket's ways carry this fingerprint and have been written, in order. -/
def matching (bucket : Fin ways → Slot) (fp : Nat) : List (Fin ways) :=
  (List.finRange ways).filter fun i => (bucket i).fp = fp ∧ (bucket i).gen ≠ 0

namespace Shard

/-- What the key scan of `write` finds: whether the key was here inside the last lap, and the way
that holds it. -/
structure Scan where
  returning : Bool
  found : Option (Fin ways × Slot × Entry)

def scan (s : Shard n) (b : Fin n) (space : UInt32) (key : Bytes) :
    List (Fin ways) → Bool → Scan
  | [], returning => ⟨returning, none⟩
  | i :: rest, returning =>
    let seen := s.slots b i
    let m := (s.regionOf seen.off).cursor
    if ¬ liveAt m seen then s.scan b space key rest (returning || ghostAt m seen)
    else match s.entry seen with
      | none => s.scan b space key rest returning
      | some e =>
        if e.isFor space key then ⟨returning, some (i, seen, e)⟩
        else s.scan b space key rest returning

/-- Lowest goes first: what the ring already took, then what is still in the doorkeeper, then what
was promoted; then warmth, then write order. -/
def rank (s : Shard n) (seen : Slot) : Nat :=
  let tier := if ¬ s.live seen then 0 else if s.sideOf seen.off = .small then 1 else 2
  (tier <<< 62) ||| (seen.freq <<< 60) ||| (seen.gen <<< 32) ||| seen.off

/-- The way a new key takes, and whether it displaces another: one never written, or the coldest. -/
def victim (s : Shard n) (b : Fin n) : Fin ways × Bool :=
  match (List.finRange ways).find? fun i => (s.slots b i).gen = 0 with
  | some i => (i, false)
  | none =>
    let coldest := (List.finRange ways).foldl
      (fun (best : Nat × Fin ways) i =>
        if s.rank (s.slots b i) < best.1 then (s.rank (s.slots b i), i) else best) (2 ^ 64 - 1, 0)
    (coldest.2, true)

/-- A bucket decays when it cannot tell its ways apart. -/
def decay (s : Shard n) (b : Fin n) : Shard n :=
  { s with
    slots := Function.update s.slots b fun i =>
      { s.slots b i with freq := (s.slots b i).freq >>> 1 } }

/-- Where an entry goes in: through the doorkeeper, unless the cache is still filling, the key has
been here, or the entry is too large to leave room in it. -/
def choose (s : Shard n) (total : Nat) (returning : Bool) : Side :=
  let filling := s.main.cursor.gen = 1 ∧ s.main.cursor.head + total ≤ s.main.stop
  if filling ∨ returning ∨ s.small.len < total * 2 then .main else .small

/-- Copy the entry in and point a way of the bucket at it: the one that holds the key already, with
the warmth it earned, or one given up for it. -/
def enter (s : Shard n) (into : Side) (b : Fin n) (fp : Nat) (chosen : Option (Fin ways × Nat))
    (e : Entry) : Shard n :=
  let p := s.place into e e.bytes
  let gen := (p.1.region into).cursor.gen
  match chosen with
  | some (i, freq) => p.1.setSlot b i ⟨p.2, gen, fp, freq⟩
  | none =>
    let v := p.1.victim b
    let s := if v.2 ∧ 0 < (p.1.slots b v.1).freq then p.1.decay b else p.1
    s.setSlot b v.1 ⟨p.2, gen, fp, 0⟩

variable [NeZero n]

def write (s : Shard n) (hash : UInt64) (mode : Mode) (space : UInt32) (key value : Bytes)
    (ttl now : UInt32) : Shard n × Claim × Int :=
  if ¬ entryFits s.ring.length key.length value.length then (s, .refused, 0)
  else
    let now := clockOf mode ttl now
    let total := header + key.length + value.length
    let b := bucketOf n hash
    let fp := fingerprint hash
    let scan := s.scan b space key (matching (s.slots b) fp) false
    let e := mode.entry space key value (expiryOf now ttl) now (scan.found.map (·.2.2))
    match scan.found with
    | none => (s.enter (s.choose total scan.returning) b fp none e.1, .stored, e.2)
    | some (i, seen, held) =>
      if mode = .claim ∧ held.fresh now then (s, .taken, 0)
      else
        let returning := scan.returning || s.sideOf seen.off ≠ .small || mode.adds
        (s.enter (s.choose total returning) b fp (some (i, seen.freq)) e.1, .stored, e.2)

/-- What a lookup reads in one way: the entry of the key, when it is live before the bytes are
copied and again after. -/
def lookAt (s : Shard n) (b : Fin n) (space : UInt32) (key : Bytes) (room : Nat) (i : Fin ways) :
    Option (Fin ways × Slot × Entry) :=
  let seen := s.slots b i
  if ¬ liveAt (s.regionOf seen.off).cursor seen then none
  else match s.entry seen with
    | none => none
    | some e =>
      if ¬ e.isFor space key ∨ room < e.value.length then none
      else if ¬ liveAt (s.regionOf seen.off).cursor seen then none
      else some (i, seen, e)

/-- What a hit does to its slot, and whether the entry is to be moved. -/
def learn (s : Shard n) (b : Fin n) (i : Fin ways) (seen : Slot) (luck : Bool) : Shard n × Bool :=
  let warmed := s.setSlot b i ((s.slots b i).warmer seen luck)
  if s.sideOf seen.off = .small then (warmed, true)
  else if seen.freq < warm then (warmed, false)
  else (s, s.main.untilAt s.main.cursor seen < s.main.len / rescueWindow)

/-- Copy the value for the key into `room` bytes, and then what the policy makes of the read. -/
def get (s : Shard n) (hash : UInt64) (space : UInt32) (key : Bytes) (room : Nat) (now : UInt32)
    (luck : Bool) : Shard n × Option Bytes :=
  let b := bucketOf n hash
  match (matching (s.slots b) (fingerprint hash)).findSome? (s.lookAt b space key room) with
  | none => (s, none)
  | some (i, seen, e) =>
    if ¬ e.fresh now then (s.setSlot b i ((s.slots b i).clearIf seen luck), none)
    else
      let learned := s.learn b i seen luck
      (if learned.2 then (learned.1.promote b i seen).1 else learned.1, some e.value)

/-- Forget a key. True when there was something to forget. -/
def del (s : Shard n) (hash : UInt64) (space : UInt32) (key : Bytes) : Shard n × Bool :=
  let b := bucketOf n hash
  match (List.finRange ways).find? fun i =>
      let seen := s.slots b i
      decide (seen.gen ≠ 0 ∧ seen.fp = fingerprint hash) && s.live seen &&
        (s.entry seen).any (·.isFor space key) with
  | none => (s, false)
  | some i => (s.setSlot b i .never, true)

/-- Forget everything. The ring is not zeroed. -/
def clear (s : Shard n) : Shard n := { s with slots := fun _ _ => .never }

end Shard

/-! ## The store -/

inductive OpenError where
  | tooSmall
  | shardTooLarge
deriving DecidableEq, Repr

structure Options where
  /-- The whole budget: the ring and the table that points at it. -/
  bytes : Nat := 8 <<< 20
  /-- How many entries the table can point at, or zero. -/
  entries : Nat := 0
  shards : Nat := 64

/-- The most shards one store is cut into. -/
def maxShards : Nat := 1 <<< 16

/-- `std.math.ceilPowerOfTwo(usize, _)` -/
def ceilPowerOfTwo (x : Nat) : Option Nat :=
  if 2 ^ Nat.clog 2 x < 2 ^ 64 then some (2 ^ Nat.clog 2 x) else none

/-- `std.math.floorPowerOfTwo(usize, _)` -/
def floorPowerOfTwo (x : Nat) : Nat := 2 ^ Nat.log 2 x

/-- What `open` cuts its budget into. -/
structure Layout where
  shards : Nat
  /-- Of one shard. -/
  buckets : Nat
  /-- The bytes of one shard's ring. -/
  cap : Nat
  shards_eq : ∃ k ≤ 16, shards = 2 ^ k
  buckets_pos : 0 < buckets
  le_cap : 4096 ≤ cap
  cap_lt : cap < 2 ^ 32

/-- The bytes of a slot. -/
def slotBytes : Nat := 8

/-- How many slots a budget is given: a sixth of it, or what was asked for, up to a half. -/
def Options.slots (opts : Options) : Nat :=
  if opts.entries = 0 then opts.bytes / 6 / slotBytes
  else Nat.min opts.entries (opts.bytes / 2 / slotBytes)

/-- What is left of the budget for the rings. -/
def Options.cap (opts : Options) : Nat := opts.bytes - opts.slots * slotBytes

/-- How many shards the budget can carry, of those asked for. -/
def Options.carried (opts : Options) (asked : Nat) : Nat :=
  floorPowerOfTwo (Nat.max 1 (Nat.min asked (Nat.min maxShards (opts.cap / 4096))))

theorem le_cap_of_carried {opts : Options} {asked : Nat} (h : ¬ opts.cap < 4096) :
    4096 ≤ opts.cap / opts.carried asked := by
  have hone : 1 ≤ opts.cap / 4096 := by omega
  have hle : opts.carried asked ≤ opts.cap / 4096 := by
    refine Nat.le_trans (Nat.pow_log_le_self 2 ?_) ?_
    · exact Nat.ne_of_gt (Nat.le_max_left 1 _)
    · refine Nat.max_le.2 ⟨hone, ?_⟩
      exact Nat.le_trans (Nat.min_le_right _ _) (Nat.min_le_right _ _)
  have hpos : 0 < opts.carried asked := Nat.two_pow_pos _
  rw [Nat.le_div_iff_mul_le hpos]
  omega

theorem carried_eq (opts : Options) (asked : Nat) : ∃ k ≤ 16, opts.carried asked = 2 ^ k := by
  refine ⟨_, ?_, rfl⟩
  have hle : Nat.max 1 (Nat.min asked (Nat.min maxShards (opts.cap / 4096))) ≤ 2 ^ 16 := by
    refine Nat.max_le.2 ⟨by decide, ?_⟩
    exact Nat.le_trans (Nat.min_le_right _ _) (Nat.min_le_left _ _)
  refine Nat.le_trans (Nat.log_mono_right hle) ?_
  rw [Nat.log_pow (by decide)]

/-- `open`, but for the seed and the memory. -/
def Options.layout (opts : Options) : Except OpenError Layout :=
  if opts.bytes < 64 <<< 10 then .error .tooSmall
  else if hcap : opts.cap < 4096 then .error .tooSmall
  else match ceilPowerOfTwo (Nat.max opts.shards 1) with
    | none => .error .tooSmall
    | some asked =>
      let shards := opts.carried asked
      let cap := opts.cap / shards
      if hlarge : 2 ^ 32 - 1 < cap then .error .shardTooLarge
      else
        let buckets := opts.slots / shards / ways
        if hbuckets : buckets = 0 then .error .tooSmall
        else .ok {
          shards, buckets, cap
          shards_eq := carried_eq opts asked
          buckets_pos := Nat.pos_of_ne_zero hbuckets
          le_cap := le_cap_of_carried hcap
          cap_lt := Nat.lt_of_le_pred (by decide) (Nat.le_of_not_lt hlarge) }

theorem Layout.shards_pos (l : Layout) : 0 < l.shards := by
  obtain ⟨k, -, heq⟩ := l.shards_eq
  rw [heq]
  exact Nat.two_pow_pos k

instance (l : Layout) : NeZero l.buckets := ⟨Nat.ne_of_gt l.buckets_pos⟩

structure Store (l : Layout) where
  shards : Fin l.shards → Shard l.buckets

/-- One call, with the clock it reads. -/
inductive Op where
  | put (space : UInt32) (key value : Bytes) (ttl now : UInt32)
  | putIfAbsent (space : UInt32) (key value : Bytes) (ttl now : UInt32)
  | add (int : Num) (delta : int.Value) (space : UInt32) (key : Bytes) (ttl now : UInt32)
  /-- A lookup into a buffer of `room` bytes, and whether its one weak exchange goes through. -/
  | get (space : UInt32) (key : Bytes) (room : Nat) (now : UInt32) (luck : Bool)
  /-- The write half of a lookup of the key that comes later: the way it looked in, and what it saw
  there. -/
  | promote (space : UInt32) (key : Bytes) (way : Fin ways) (expect : Slot)
  | del (space : UInt32) (key : Bytes)
  | clear

inductive Answer where
  | claim (c : Claim)
  /-- `none` is `error.TooLarge`. -/
  | sum (v : Option Int)
  | value (v : Option Bytes)
  | was (b : Bool)
deriving DecidableEq, Repr

namespace Store

variable {l : Layout}

def init (l : Layout) : Store l := ⟨fun _ => .init l.buckets l.cap⟩

/-- `shardFor`: bits 32 up. -/
def shardFor (l : Layout) (hash : UInt64) : Fin l.shards :=
  ⟨(hash.toNat >>> 32) &&& (l.shards - 1),
    Nat.lt_of_le_of_lt Nat.and_le_right (Nat.sub_one_lt_of_lt l.shards_pos)⟩

def setShard (st : Store l) (k : Fin l.shards) (s : Shard l.buckets) : Store l :=
  ⟨Function.update st.shards k s⟩

variable (hash : UInt32 → Bytes → UInt64)

/-- What `write` does to the shard of the key. -/
def write (st : Store l) (mode : Mode) (space : UInt32) (key value : Bytes) (ttl now : UInt32) :
    Store l × Claim × Int :=
  let k := shardFor l (hash space key)
  let w := (st.shards k).write (hash space key) mode space key value ttl now
  (st.setShard k w.1, w.2)

/-- One call, holding the lock of the shard it is on. -/
def step (st : Store l) : Op → Store l × Answer
  | .put space key value ttl now =>
    let w := st.write hash .put space key value ttl now
    (w.1, .was (w.2.1 = .stored))
  | .putIfAbsent space key value ttl now =>
    let w := st.write hash .claim space key value ttl now
    (w.1, .claim w.2.1)
  | .add int delta space key ttl now =>
    let w := st.write hash (.add int) space key (int.asBytes delta.1) ttl now
    (w.1, .sum (if w.2.1 = .refused then none else some w.2.2))
  | .get space key room now luck =>
    let k := shardFor l (hash space key)
    let g := (st.shards k).get (hash space key) space key room now luck
    (st.setShard k g.1, .value g.2)
  | .promote space key way expect =>
    let k := shardFor l (hash space key)
    let p := (st.shards k).promote (bucketOf l.buckets (hash space key)) way expect
    (st.setShard k p.1, .was p.2)
  | .del space key =>
    let k := shardFor l (hash space key)
    let d := (st.shards k).del (hash space key) space key
    (st.setShard k d.1, .was d.2)
  | .clear => (⟨fun k => (st.shards k).clear⟩, .was true)

def run (st : Store l) (ops : List Op) : Store l := ops.foldl (fun st op => (st.step hash op).1) st

end Store

end Nilo.Cache
