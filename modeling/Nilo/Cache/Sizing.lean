import Nilo.Cache.Memory

/-!
# What a budget is cut into (`cache/store.zig`)

`open` chains roundings: the slots out of the budget, the rings out of what is left, the shards out
of the rings, the buckets out of the slots. Whatever the budget, nothing of it is spent twice
(`held_le`), and every accepted entry fits the region it is sent to, for as long as the store runs
(`open_sizes`): a ring keeps its length (`ring_length_run`).
-/

namespace Nilo.Cache

open Text (Bytes)

variable {hash : UInt32 → Bytes → UInt64}

/-! ## The budget -/

namespace Options

variable {opts : Options}

/-- The slots take at most half of the budget. -/
theorem slots_le (opts : Options) : opts.slots * slotBytes ≤ opts.bytes / 2 := by
  have hmin : Nat.min opts.entries (opts.bytes / 2 / slotBytes) ≤ opts.bytes / 2 / slotBytes :=
    Nat.min_le_right _ _
  rw [slots]
  simp only [slotBytes] at hmin ⊢
  split_ifs
  · omega
  · omega

/-- What an accepted budget is cut into. -/
theorem layout_eq_ok {l : Layout} (h : opts.layout = .ok l) :
    ∃ asked, l.shards = opts.carried asked ∧ l.cap = opts.cap / l.shards ∧
      l.buckets = opts.slots / l.shards / ways := by
  rw [layout] at h
  split_ifs at h
  split at h
  · cases h
  · rename_i asked _
    dsimp only at h
    split_ifs at h
    obtain rfl := Except.ok.inj h
    exact ⟨asked, rfl, rfl, rfl⟩

end Options

/-- Every byte the store will ever hold, table and values together. -/
def Layout.held (l : Layout) : Nat := l.shards * (l.cap + l.buckets * ways * slotBytes)

/-- The slots of all the shards are slots of the budget. -/
theorem slots_of_layout {opts : Options} {l : Layout} (h : opts.layout = .ok l) :
    l.shards * (l.buckets * ways) ≤ opts.slots := by
  obtain ⟨_, -, -, hbuckets⟩ := Options.layout_eq_ok h
  calc l.shards * (l.buckets * ways)
      ≤ l.shards * (opts.slots / l.shards) :=
        Nat.mul_le_mul_left _ (hbuckets ▸ Nat.div_mul_le_self _ _)
    _ ≤ opts.slots := Nat.mul_div_le _ _

theorem held_le {opts : Options} {l : Layout} (h : opts.layout = .ok l) : l.held ≤ opts.bytes := by
  obtain ⟨_, -, hcap, -⟩ := Options.layout_eq_ok h
  have hrings : l.shards * l.cap ≤ opts.cap := hcap ▸ Nat.mul_div_le _ _
  have hslots : l.shards * (l.buckets * ways) * slotBytes ≤ opts.slots * slotBytes :=
    Nat.mul_le_mul_right _ (slots_of_layout h)
  have hhalf := opts.slots_le
  have hcut : opts.cap = opts.bytes - opts.slots * slotBytes := rfl
  rw [Layout.held, Nat.mul_add, ← Nat.mul_assoc l.shards (l.buckets * ways)]
  omega

/-- The buckets of a shard are counted in 32 bits. -/
theorem buckets_lt {opts : Options} {l : Layout} (h : opts.layout = .ok l) :
    l.buckets < 2 ^ 32 := by
  obtain ⟨_, -, hcap, -⟩ := Options.layout_eq_ok h
  have hpos := l.shards_pos
  have hslots : l.shards * (l.buckets * ways) * slotBytes ≤ opts.slots * slotBytes :=
    Nat.mul_le_mul_right _ (slots_of_layout h)
  have hhalf := opts.slots_le
  have hcut : opts.cap = opts.bytes - opts.slots * slotBytes := rfl
  have hrings : opts.cap < l.shards * (l.cap + 1) := by
    rw [hcap, Nat.mul_comm]
    exact Nat.lt_mul_of_div_lt (Nat.lt_succ_self _) hpos
  have hcap_lt := l.cap_lt
  have hle : l.shards * (l.buckets * ways * slotBytes) < l.shards * (l.cap + 1) := by
    rw [← Nat.mul_assoc] at hslots ⊢
    rw [← Nat.mul_assoc]
    omega
  have := Nat.lt_of_mul_lt_mul_left hle
  simp only [ways, slotBytes] at this
  omega

/-! ## A ring keeps its length -/

namespace Shard

variable {n : Nat} {s : Shard n} {e : Entry}

theorem length_place (h : s.Laid) {into : Side}
    (hfits : (s.region into).start + e.size ≤ (s.region into).stop) :
    (s.place into e e.bytes).1.ring.length = s.ring.length := by
  have hroom := h.room hfits
  have hnew := Lib.Cursor.cut_piece (h.steady into).start_le hfits (c := (s.region into).spot)
  rw [← hroom.piece] at hnew
  rw [place_ring, Lib.length_patch]
  rw [Entry.length_bytes]
  exact Nat.le_trans hnew.le_stop (h.stop_le into)

theorem ring_enter (s : Shard n) (into : Side) (b : Fin n) (fp : Nat)
    (chosen : Option (Fin ways × Nat)) (e : Entry) :
    (s.enter into b fp chosen e).ring = (s.place into e e.bytes).1.ring := by
  cases chosen with
  | some chosen => rfl
  | none =>
    simp only [enter]
    split_ifs
    · rfl
    · rfl

theorem length_carry (s : Shard n) (into : Side) (b : Fin n) (i : Fin ways) (seen : Slot)
    (e : Entry) : (s.carry into b i seen e).1.ring.length = s.ring.length := by
  have hplaced : (s.placeWith into e
      fun ring off => Lib.copyForwards ring off seen.off e.size).1.ring.length = s.ring.length := by
    rw [placeWith]
    dsimp only
    rw [Lib.length_copyForwards, ring_reserve]
  rw [carry]
  dsimp only
  split_ifs
  · rfl
  · rfl
  · exact hplaced
  · exact hplaced

theorem length_promote (s : Shard n) (b : Fin n) (i : Fin ways) (expect : Slot) :
    (s.promote b i expect).1.ring.length = s.ring.length := by
  rw [promote]
  split_ifs
  · rfl
  · cases s.entry (s.slots b i) with
    | none => rfl
    | some e => exact length_carry s .main b i _ e
  · rfl

theorem ring_learn (s : Shard n) (b : Fin n) (i : Fin ways) (seen : Slot) (luck : Bool) :
    (s.learn b i seen luck).1.ring = s.ring := by
  rw [learn]
  split_ifs
  · rfl
  · rfl
  · rfl

variable [NeZero n]

theorem length_get (s : Shard n) (hash : UInt64) (space : UInt32) (key : Bytes) (room : Nat)
    (now : UInt32) (luck : Bool) :
    (s.get hash space key room now luck).1.ring.length = s.ring.length := by
  rw [get]
  dsimp only
  split
  · rfl
  · split_ifs
    · exact (length_promote _ _ _ _).trans (congrArg List.length (ring_learn s _ _ _ luck))
    · exact congrArg List.length (ring_learn s _ _ _ luck)
    · rfl

theorem ring_del (s : Shard n) (hash : UInt64) (space : UInt32) (key : Bytes) :
    (s.del hash space key).1.ring = s.ring := by
  rw [del]
  dsimp only
  split
  · rfl
  · rfl

theorem length_write (h : s.Sound hash) {mode : Mode} {value : Bytes} (space : UInt32)
    (key : Bytes) (ttl now : UInt32) (hlen : ∀ int, mode = .add int → value.length = int.size) :
    (s.write (hash space key) mode space key value ttl now).1.ring.length = s.ring.length := by
  have hentered {e : Entry} {returning : Bool} (hfits : entryFits s.ring.length key.length value.length)
      (hkey : e.key = key) (hvalue : e.value.length = value.length) (b : Fin n) (fp : Nat)
      (chosen : Option (Fin ways × Nat)) :
      (s.enter (s.choose (header + key.length + value.length) returning) b fp chosen e).ring.length =
        s.ring.length := by
    have hsize : e.size = header + key.length + value.length := by rw [Entry.size, hkey, hvalue]
    rw [ring_enter]
    refine length_place h.laid ?_
    rw [hsize]
    rw [entryFits, decide_eq_true_eq] at hfits
    exact choose_fits h hfits.2.2 returning
  rw [write]
  split_ifs with hfits
  · dsimp only
    split
    · obtain ⟨-, hkey, hvalue⟩ := Mode.entry_spec space key
        (expiryOf (clockOf mode ttl now) ttl) (clockOf mode ttl now)
        (Option.map (fun x => x.2.2) (s.scan (bucketOf n (hash space key)) space key
          (matching (s.slots (bucketOf n (hash space key))) (fingerprint (hash space key)))
          false).found) hlen
      exact hentered hfits hkey hvalue _ _ _
    · split_ifs
      · rfl
      · obtain ⟨-, hkey, hvalue⟩ := Mode.entry_spec space key
          (expiryOf (clockOf mode ttl now) ttl) (clockOf mode ttl now)
          (Option.map (fun x => x.2.2) (s.scan (bucketOf n (hash space key)) space key
            (matching (s.slots (bucketOf n (hash space key))) (fingerprint (hash space key)))
            false).found) hlen
        exact hentered hfits hkey hvalue _ _ _
  · rfl

end Shard

namespace Store

variable {l : Layout} {st : Store l}

theorem length_setShard {k : Fin l.shards} {s : Shard l.buckets}
    (hs : s.ring.length = (st.shards k).ring.length) (k' : Fin l.shards) :
    ((st.setShard k s).shards k').ring.length = (st.shards k').ring.length := by
  rw [shards_setShard]
  split_ifs with hk
  · rw [hk, hs]
  · rfl

theorem ring_length_step (h : st.Sound hash) (op : Op) (k : Fin l.shards) :
    ((st.step hash op).1.shards k).ring.length = (st.shards k).ring.length := by
  cases op with
  | put space key value ttl now =>
    have hlen (int : Num) (hno : Mode.put = Mode.add int) : value.length = int.size := nomatch hno
    exact length_setShard (Shard.length_write (h _) space key ttl now hlen) k
  | putIfAbsent space key value ttl now =>
    have hlen (int : Num) (hno : Mode.claim = Mode.add int) : value.length = int.size := nomatch hno
    exact length_setShard (Shard.length_write (h _) space key ttl now hlen) k
  | add int delta space key ttl now =>
    have hlen (int' : Num) (heq : Mode.add int = Mode.add int') :
        (int.asBytes delta.1).length = int'.size := asBytes_length heq
    exact length_setShard (Shard.length_write (h _) space key ttl now hlen) k
  | get space key room now luck => exact length_setShard (Shard.length_get _ _ space key room now luck) k
  | promote space key way expect => exact length_setShard (Shard.length_promote _ _ way expect) k
  | del space key => exact length_setShard (congrArg List.length (Shard.ring_del _ _ space key)) k
  | clear => rfl

theorem ring_length_run (h : st.Sound hash) (ops : List Op) (k : Fin l.shards) :
    ((st.run hash ops).shards k).ring.length = (st.shards k).ring.length := by
  induction ops generalizing st with
  | nil => rfl
  | cons op rest ih => exact (ih (h.step op)).trans (ring_length_step h op k)

theorem ring_length_init (l : Layout) (k : Fin l.shards) :
    ((Store.init l).shards k).ring.length = l.cap := List.length_replicate

end Store

/-! ## Room for what is accepted -/

/-- Where a stretch no longer than its region is reserved, and where the cursor is then. -/
theorem Region.reserve_within {r : Region} (h : r.Steady) {total : Nat}
    (hfits : r.start + total ≤ r.stop) :
    r.start ≤ (r.reserve total).2 ∧ (r.reserve total).2 + total ≤ r.stop ∧
      (r.reserve total).1.cursor.head = (r.reserve total).2 + total := by
  have hstart := h.start_le
  by_cases hfull : r.stop < r.cursor.head + total
  · rw [reserve_again hfull]
    exact ⟨Nat.le_refl _, hfits, rfl⟩
  · rw [reserve_here hfull]
    exact ⟨hstart, Nat.le_of_not_lt hfull, rfl⟩

/-- The bytes a store holds: the rings and the tables of its shards, all alike. -/
def Store.bytesHeld {l : Layout} (st : Store l) : Nat :=
  l.shards * ((st.shards ⟨0, l.shards_pos⟩).ring.length + l.buckets * ways * slotBytes)

/-- **What `open` accepts holds together.** The shards are a power of two, the memory stays inside
the budget whatever is stored, every hash has a shard and a bucket, and an entry that is accepted
is reserved inside the region it is sent to. -/
theorem open_sizes {opts : Options} {l : Layout} (h : opts.layout = .ok l)
    (hash : UInt32 → Bytes → UInt64) (ops : List Op) :
    let st := (Store.init l).run hash ops
    (∃ k ≤ 16, l.shards = 2 ^ k) ∧ st.bytesHeld ≤ opts.bytes ∧ l.buckets < 2 ^ 32 ∧
      (∀ x : UInt64, (Store.shardFor l x).val = (x.toNat >>> 32) % l.shards ∧
        (x.toNat >>> 32) % l.shards < l.shards ∧
        (x.toNat % 2 ^ 32 * l.buckets) >>> 32 * ways + ways ≤ l.buckets * ways) ∧
      ∀ (k : Fin l.shards) (keyLen valueLen : Nat) (returning : Bool),
        let s := st.shards k
        let total := header + keyLen + valueLen
        let r := s.region (s.choose total returning)
        entryFits s.ring.length keyLen valueLen = true →
          total ≤ r.len ∧ r.start ≤ (r.reserve total).2 ∧ (r.reserve total).2 + total ≤ r.stop ∧
            (r.reserve total).1.cursor.head ≤ r.stop ∧ r.stop ≤ s.ring.length := by
  intro st
  have hsound : st.Sound hash := (Store.init_sound l).run ops
  refine ⟨l.shards_eq, ?_, buckets_lt h, ?_, ?_⟩
  · rw [Store.bytesHeld, Store.ring_length_run (Store.init_sound l), Store.ring_length_init]
    exact held_le h
  · intro x
    have hpos := l.shards_pos
    refine ⟨?_, Nat.mod_lt _ hpos, ?_⟩
    · obtain ⟨k, -, heq⟩ := l.shards_eq
      show (x.toNat >>> 32) &&& (l.shards - 1) = (x.toNat >>> 32) % l.shards
      rw [heq, Nat.and_two_pow_sub_one_eq_mod]
    · have hbucket := (bucketOf l.buckets x).isLt
      show (bucketOf l.buckets x).val * ways + ways ≤ l.buckets * ways
      rw [← Nat.succ_mul]
      exact Nat.mul_le_mul_right _ hbucket
  · intro k keyLen valueLen returning s total r hfits
    have hs : s.Sound hash := hsound k
    rw [entryFits, decide_eq_true_eq] at hfits
    have hroom : r.start + total ≤ r.stop := Shard.choose_fits hs hfits.2.2 returning
    obtain ⟨hstart, hstop, hhead⟩ := Region.reserve_within (hs.laid.steady _) hroom
    refine ⟨?_, hstart, hstop, ?_, hs.laid.stop_le _⟩
    · rw [Region.len]
      omega
    · rw [hhead]
      exact hstop

/-- The smallest budget there is, and an entry of three bytes and a thousand. -/
theorem open_sizes_least :
    ∃ l : Layout, ({ bytes := 65536 } : Options).layout = .ok l ∧ l.shards = 8 ∧ l.cap = 6827 ∧
      (Store.init l).bytesHeld ≤ 65536 ∧
      ∀ k : Fin l.shards,
        let s := (Store.init l).shards k
        let r := s.region (s.choose 1015 false)
        (r.reserve 1015).2 + 1015 ≤ r.stop := by
  obtain ⟨l, hl, hshards, hcap⟩ : ∃ l : Layout, ({ bytes := 65536 } : Options).layout = .ok l ∧
      l.shards = 8 ∧ l.cap = 6827 := ⟨_, rfl, by decide, by decide⟩
  obtain ⟨-, hheld, -, -, hroom⟩ := open_sizes hl (fun _ _ => 0) []
  refine ⟨l, hl, hshards, hcap, hheld, fun k => ?_⟩
  have hfits : entryFits ((Store.init l).shards k).ring.length 3 1000 = true := by
    rw [Store.ring_length_init, hcap]
    decide
  exact (hroom k 3 1000 false hfits).2.2.1

end Nilo.Cache
