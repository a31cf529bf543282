import Nilo.Cache.Calls

/-!
# What the cache remembers (`cache/store.zig`)

Runs of the store. However often a cursor goes round, a live slot points at an entry that is whole
(`live_slot_whole`); and a lookup answers what was stored last under its key, or nothing
(`get_remembered`).
-/

namespace Nilo.Cache

open Text (Bytes)
open Lib (window)

variable (hash : UInt32 → Bytes → UInt64) {l : Layout}

/-! ## Every run is sound -/

theorem init_sound {n cap : Nat} [NeZero n] (hle : 4096 ≤ cap) : (Shard.init n cap).Sound hash := by
  have hsmall : max (cap / smallShare) 512 ≤ cap / 2 := by
    simp only [smallShare]
    omega
  have hsteady {start stop : Nat} (h : start ≤ stop) : (Region.init start stop).Steady :=
    ⟨Nat.le_refl _, h, rfl, rfl⟩
  have hnever (b : Fin n) (i : Fin ways) : (Shard.init n cap).live ((Shard.init n cap).slots b i) = false :=
    Shard.live_never _
  refine ⟨⟨rfl, rfl, ?_, ?_, ?_, ?_, ?_, ?_, .nil⟩, ?_, ?_⟩
  · exact List.length_replicate.symm
  · show (List.replicate cap (0 : UInt8)).length / 4 ≤ cap - max (cap / smallShare) 512
    rw [List.length_replicate]
    omega
  · intro side
    cases side with
    | small => exact hsteady (Nat.zero_le _)
    | main => exact hsteady (by omega)
  · intro w hw
    cases hw
  · intro w hw
    cases hw
  · intro w hw
    cases hw
  · exact fun b i hgen => absurd rfl hgen
  · intro b i w i' w' hh
    exact absurd hh.live (by rw [hnever]; decide)

namespace Store

def Sound (st : Store l) : Prop := ∀ k, (st.shards k).Sound hash

variable {hash} {st : Store l}

theorem shards_setShard (st : Store l) (k k' : Fin l.shards) (s : Shard l.buckets) :
    (st.setShard k s).shards k' = if k' = k then s else st.shards k' := by
  by_cases hk : k' = k
  · subst hk
    simp [setShard]
  · simp [setShard, hk]

theorem Sound.setShard (h : st.Sound hash) (k : Fin l.shards) {s : Shard l.buckets}
    (hs : s.Sound hash) : (st.setShard k s).Sound hash := by
  intro k'
  rw [shards_setShard]
  split_ifs
  · exact hs
  · exact h k'

theorem init_sound (l : Layout) : (Store.init l).Sound hash := fun _ => Cache.init_sound hash l.le_cap

theorem Sound.write {mode : Mode} {space : UInt32} {key value : Bytes} {ttl now : UInt32}
    (h : st.Sound hash) (hlen : ∀ int, mode = .add int → value.length = int.size) :
    (st.write hash mode space key value ttl now).1.Sound hash := by
  refine h.setShard _ ?_
  obtain ⟨-, hw⟩ | ⟨-, -, -, hw⟩ | ⟨-, -, -, hstores⟩ :=
    Shard.write_cases (h (shardFor l (hash space key))) space key ttl now hlen
  · rw [hw]
    exact h _
  · rw [hw]
    exact h _
  · exact hstores.sound

theorem asBytes_length {int int' : Num} {v : Int} (h : Mode.add int = Mode.add int') :
    (int.asBytes v).length = int'.size := by
  cases h
  exact Num.length_asBytes int v

theorem Sound.step (h : st.Sound hash) (op : Op) : (st.step hash op).1.Sound hash := by
  cases op with
  | put space key value ttl now => exact h.write (fun _ hno => nomatch hno)
  | putIfAbsent space key value ttl now => exact h.write (fun _ hno => nomatch hno)
  | add int delta space key ttl now => exact h.write (fun _ heq => asBytes_length heq)
  | get space key room now luck =>
    exact h.setShard _ (Shard.get_looks (h _) space key room now luck).sound
  | promote space key way expect => exact h.setShard _ (Shard.promote_keeps (h _) _ way expect).sound
  | del space key => exact h.setShard _ (Shard.del_spec (h _) space key).1
  | clear => exact fun k => (Shard.clear_spec (h k)).1

theorem Sound.run (h : st.Sound hash) (ops : List Op) : (st.run hash ops).Sound hash := by
  induction ops generalizing st with
  | nil => exact h
  | cons op rest ih => exact ih (h.step op)

/-- Whatever was done with a store, and however often its cursors went round: a slot that is live
points at an entry that was written there, on the pass it says, and that nothing was written over
since; and no slot is left that is more than half a turn of the passes old. -/
theorem live_slot_whole (ops : List Op) (k : Fin l.shards) (b : Fin l.buckets) (i : Fin ways) :
    let s := ((Store.init l).run hash ops).shards k
    let slot := s.slots b i
    (s.live slot = true →
      ∃ later w earlier, s.log = later ++ w :: earlier ∧ w.side = s.sideOf slot.off ∧
        w.off = slot.off ∧ genOf w.lap = slot.gen ∧
        (w.lap = (s.regionOf slot.off).lap ∨ w.lap + 1 = (s.regionOf slot.off).lap) ∧
        window s.ring slot.off w.entry.size = w.entry.bytes ∧
        ∀ x ∈ later, x.piece.Apart w.piece) ∧
    (slot.gen ≠ 0 → ∃ w ∈ s.log, w.side = s.sideOf slot.off ∧ w.off = slot.off ∧
      genOf w.lap = slot.gen ∧ w.lap ≤ (s.regionOf slot.off).lap ∧
      (s.regionOf slot.off).lap ≤ w.lap + 2 ^ 15) := by
  intro s slot
  have h : s.Sound hash := (init_sound l).run ops k
  have hside {w : Written} (hn : s.Names hash b slot w) : w.side = s.sideOf slot.off := by
    rw [← hn.off]
    exact (h.laid.sideOf hn.mem).symm
  constructor
  · intro hlive
    obtain ⟨w, hn, -⟩ := h.holds_of_live hlive
    have hstands := hn.stands h.laid hlive
    obtain ⟨later, earlier, hlog⟩ := List.append_of_mem hn.mem
    refine ⟨later, w, earlier, hlog, hside hn, hn.off, hn.gen, ?_, ?_, ?_⟩
    · rw [Shard.regionOf, ← hside hn]
      exact hstands.imp_right And.left
    · rw [← hn.off]
      exact h.laid.intact w hn.mem hstands
    · intro x hx
      have hapart := h.laid.apart
      rw [hlog, List.pairwise_append] at hapart
      exact hapart.2.2 x hx w List.mem_cons_self hstands
  · intro hgen
    obtain ⟨w, hn⟩ := h.named b i hgen
    have hle := hn.lap_le h.laid
    have hrecent := hn.recent
    have hfloor := le_floor_add (s.region w.side).lap
    refine ⟨w, hn.mem, hside hn, hn.off, hn.gen, ?_, ?_⟩
    · rwa [Shard.regionOf, ← hside hn]
    · rw [Shard.regionOf, ← hside hn]
      omega

variable (hash) in
/-- A live slot of its key's shard points at the entry. -/
def Has (st : Store l) (e : Entry) : Prop :=
  (st.shards (shardFor l (hash e.space e.key))).Has hash e

end Store

/-! ## A memory without a ring -/

/-- What was stored last under each key of each space. -/
abbrev Memory := UInt32 → Bytes → Option Entry

namespace Memory

def empty : Memory := fun _ _ => none

def set (m : Memory) (e : Entry) : Memory := fun space key =>
  if e.isFor space key then some e else m space key

def forget (m : Memory) (space : UInt32) (key : Bytes) : Memory := fun space' key' =>
  if space = space' ∧ key = key' then none else m space' key'

/-- The count that an add finds to add to. -/
def Counts (st : Store l) (int : Num) (space : UInt32) (key : Bytes) (now : UInt32) (e : Entry) :
    Prop :=
  st.Has hash e ∧ e.isFor space key = true ∧ e.fresh now = true ∧ e.value.length = int.size

/-- What a call on the store that was answered so makes of the memory. A sum is stored as its bytes,
to expire when the count it was added to did, or, where none could be read, as a new entry does. -/
def After (st : Store l) (m m' : Memory) : Op → Answer → Prop
  | .put space key value ttl now, .was true => m' = m.set ⟨expiryOf now ttl, space, key, value⟩
  | .putIfAbsent space key value ttl now, .claim .stored =>
    m' = m.set ⟨expiryOf now ttl, space, key, value⟩
  | .add int _ space key ttl now, .sum (some v) =>
    ∃ expires, m' = m.set ⟨expires, space, key, int.asBytes v⟩ ∧
      ((∃ e, Counts hash st int space key now e ∧ expires = e.expires) ∨
        (∀ e, ¬ Counts hash st int space key now e) ∧ expires = expiryOf now ttl)
  | .del space key, _ => m' = m.forget space key
  | .clear, _ => m' = empty
  | _, _ => m' = m

/-- A store, and what the calls so far make of a memory. -/
inductive Of : Store l → Memory → Prop
  | init : Of (Store.init l) empty
  | step {st : Store l} {m m' : Memory} (op : Op) :
      Of st m → After hash st m m' op (st.step hash op).2 → Of (st.step hash op).1 m'

variable {m : Memory} {e : Entry} {space : UInt32} {key : Bytes}

theorem set_of_isFor (h : e.isFor space key = true) : m.set e space key = some e := if_pos h

theorem set_of_not_isFor (h : e.isFor space key = false) : m.set e space key = m space key :=
  if_neg (by rw [h]; decide)

end Memory

namespace Store

variable {hash} {st : Store l} {m m' : Memory} {e : Entry}

/-- Whatever can be read is what the memory holds. -/
def Agrees (hash : UInt32 → Bytes → UInt64) (st : Store l) (m : Memory) : Prop :=
  ∀ e, st.Has hash e → m e.space e.key = some e

theorem has_setShard {k : Fin l.shards} {s : Shard l.buckets} :
    (st.setShard k s).Has hash e ↔
      if shardFor l (hash e.space e.key) = k then s.Has hash e else st.Has hash e := by
  rw [Has, shards_setShard]
  split_ifs
  · exact Iff.rfl
  · exact Iff.rfl

/-- A shard that gained nothing. -/
theorem has_of_setShard {k : Fin l.shards} {s : Shard l.buckets}
    (hs : ∀ e, s.Has hash e → (st.shards k).Has hash e) (he : (st.setShard k s).Has hash e) :
    st.Has hash e := by
  rw [has_setShard] at he
  split_ifs at he with hk
  · rw [Has, hk]
    exact hs e he
  · exact he

theorem Agrees.set {new : Entry} (h : st.Agrees hash m) {s : Shard l.buckets}
    (hs : Shard.Stores hash (st.shards (shardFor l (hash new.space new.key))) s new) :
    (st.setShard (shardFor l (hash new.space new.key)) s).Agrees hash (m.set new) := by
  intro e he
  rw [has_setShard] at he
  have hkey (hfor : e.isFor new.space new.key = false) : new.isFor e.space e.key = false := by
    rw [Bool.eq_false_iff, Ne, Entry.isFor_iff] at hfor ⊢
    exact fun hsame => hfor ⟨hsame.1.symm, hsame.2.symm⟩
  split_ifs at he with hk
  · obtain rfl | ⟨hold, hother⟩ := hs.had e he
    · exact Memory.set_of_isFor (Entry.isFor_iff.2 ⟨rfl, rfl⟩)
    · rw [Memory.set_of_not_isFor (hkey hother)]
      refine h e ?_
      rwa [Has, hk]
  · rw [Memory.set_of_not_isFor (hkey ?_)]
    · exact h e he
    · by_contra hfor
      rw [Bool.not_eq_false, Entry.isFor_iff] at hfor
      exact hk (by rw [hfor.1, hfor.2])

theorem expiryOf_clockOf (mode : Mode) (ttl now : UInt32) :
    expiryOf (clockOf mode ttl now) ttl = expiryOf now ttl := by
  rw [clockOf]
  split_ifs with hnever
  · rw [expiryOf, expiryOf, if_pos hnever.1, if_pos hnever.1]
  · rfl

theorem clockOf_of_ne_put {mode : Mode} (h : mode ≠ .put) (ttl now : UInt32) :
    clockOf mode ttl now = now :=
  if_neg fun hput => h hput.2

/-- What an add copies in: its sum, to expire as what it was added to or anew. -/
theorem entry_add (int : Num) (space : UInt32) (key value : Bytes) (expires now : UInt32)
    (found : Option Entry) :
    ∃ x, ((Mode.add int).entry space key value expires now found).1 =
        ⟨x, space, key, int.asBytes ((Mode.add int).entry space key value expires now found).2⟩ ∧
      ((∃ e, found = some e ∧ e.fresh now = true ∧ e.value.length = int.size ∧ x = e.expires) ∨
        (∀ e, found = some e → ¬ (e.fresh now = true ∧ e.value.length = int.size)) ∧
          x = expires) := by
  rw [Mode.entry]
  split
  · rename_i e he
    obtain ⟨hfound, hcond⟩ := Option.filter_eq_some_iff.1 he
    obtain ⟨hfresh, hsize⟩ := of_decide_eq_true hcond
    exact ⟨e.expires, rfl, .inl ⟨e, hfound, hfresh, hsize, rfl⟩⟩
  · rename_i hnone
    refine ⟨expires, rfl, .inr ⟨?_, rfl⟩⟩
    rintro e rfl hcond
    rw [Option.filter_some, if_pos (decide_eq_true hcond)] at hnone
    cases hnone

theorem has_iff {space : UInt32} {key : Bytes} (hfor : e.isFor space key = true) :
    st.Has hash e ↔ (st.shards (shardFor l (hash space key))).Has hash e := by
  obtain ⟨rfl, rfl⟩ := Entry.isFor_iff.1 hfor
  exact Iff.rfl

/-- What a write would store. -/
def writes (hash : UInt32 → Bytes → UInt64) (st : Store l) (mode : Mode) (space : UInt32)
    (key value : Bytes) (ttl now : UInt32) : Entry × Int :=
  mode.entry space key value (expiryOf now ttl) (clockOf mode ttl now)
    ((st.shards (shardFor l (hash space key))).prior (hash space key) space key)

theorem writes_eq (mode : Mode) (space : UInt32) (key value : Bytes) (ttl now : UInt32) :
    (st.shards (shardFor l (hash space key))).writes (hash space key) mode space key value ttl now =
      st.writes hash mode space key value ttl now := by
  rw [Shard.writes, expiryOf_clockOf]
  rfl

theorem Agrees.of_had {k : Fin l.shards} {s : Shard l.buckets} (h : st.Agrees hash m)
    (hs : ∀ e, s.Has hash e → (st.shards k).Has hash e) : (st.setShard k s).Agrees hash m :=
  fun e he => h e (has_of_setShard hs he)

theorem Agrees.write {mode : Mode} {value : Bytes} (hsound : st.Sound hash)
    (h : st.Agrees hash m) (space : UInt32) (key : Bytes) (ttl now : UInt32)
    (hlen : ∀ int, mode = .add int → value.length = int.size) :
    ((st.write hash mode space key value ttl now).2.1 ≠ .stored ∧
        (mode ≠ .claim → (st.write hash mode space key value ttl now).2.1 = .refused) ∧
        (st.write hash mode space key value ttl now).1.Agrees hash m) ∨
      ((st.write hash mode space key value ttl now).2 =
          (.stored, (st.writes hash mode space key value ttl now).2) ∧
        (st.write hash mode space key value ttl now).1.Agrees hash
          (m.set (st.writes hash mode space key value ttl now).1)) := by
  have hcases := Shard.write_cases (hsound (shardFor l (hash space key))) space key ttl now hlen
  rw [writes_eq] at hcases
  rcases hcases with ⟨-, hw⟩ | ⟨-, hclaim, -, hw⟩ | ⟨-, -, hw, hstores⟩
  · have hanswer : (st.write hash mode space key value ttl now).2.1 = .refused :=
      congrArg (·.2.1) hw
    refine .inl ⟨?_, fun _ => hanswer, h.of_had ?_⟩
    · rw [hanswer]
      exact fun hno => nomatch hno
    · rw [hw]
      exact fun _ he => he
  · have hanswer : (st.write hash mode space key value ttl now).2.1 = .taken := congrArg (·.2.1) hw
    refine .inl ⟨?_, fun hno => absurd hclaim hno, h.of_had ?_⟩
    · rw [hanswer]
      exact fun hno => nomatch hno
    · rw [hw]
      exact fun _ he => he
  · refine .inr ⟨hw, ?_⟩
    obtain ⟨hspace, hkey, -⟩ := Mode.entry_spec space key (expiryOf now ttl) (clockOf mode ttl now)
      ((st.shards (shardFor l (hash space key))).prior (hash space key) space key) hlen
    have hset := @Agrees.set hash l st m (st.writes hash mode space key value ttl now).1 h
      ((st.shards (shardFor l (hash space key))).write (hash space key) mode space key value ttl
        now).1
    rw [writes, hspace, hkey] at hset
    exact hset hstores

/-- A call leaves a store that agrees with what it and its answer make of the memory. -/
theorem Agrees.step (hsound : st.Sound hash) (h : st.Agrees hash m) (op : Op)
    (hafter : Memory.After hash st m m' op (st.step hash op).2) : (st.step hash op).1.Agrees hash m' := by
  cases op with
  | put space key value ttl now =>
    have hlen (int : Num) (hno : Mode.put = Mode.add int) : value.length = int.size := nomatch hno
    have hcases := h.write hsound space key ttl now hlen
    simp only [Store.step] at hafter ⊢
    rcases hcases with ⟨hw, -, hagrees⟩ | ⟨hw, hagrees⟩
    · rw [decide_eq_false hw] at hafter
      have heq : m' = m := hafter
      rw [heq]
      exact hagrees
    · rw [hw] at hafter
      have heq : m' = m.set ⟨expiryOf now ttl, space, key, value⟩ := hafter
      rw [heq]
      exact hagrees
  | putIfAbsent space key value ttl now =>
    have hlen (int : Num) (hno : Mode.claim = Mode.add int) : value.length = int.size := nomatch hno
    have hcases := h.write hsound space key ttl now hlen
    simp only [Store.step] at hafter ⊢
    rcases hcases with ⟨hw, -, hagrees⟩ | ⟨hw, hagrees⟩
    · have heq : m' = m := by
        cases hclaim : (st.write hash .claim space key value ttl now).2.1 with
        | stored => exact absurd hclaim hw
        | taken =>
          rw [hclaim] at hafter
          exact hafter
        | refused =>
          rw [hclaim] at hafter
          exact hafter
      rw [heq]
      exact hagrees
    · rw [hw] at hafter
      have heq : m' = m.set ⟨expiryOf now ttl, space, key, value⟩ := hafter
      rw [heq]
      exact hagrees
  | add int delta space key ttl now =>
    have hlen (int' : Num) (heq : Mode.add int = Mode.add int') :
        (int.asBytes delta.1).length = int'.size := asBytes_length heq
    have hcases := h.write hsound space key ttl now hlen
    simp only [Store.step] at hafter ⊢
    rcases hcases with ⟨-, hw, hagrees⟩ | ⟨hw, hagrees⟩
    · rw [if_pos (hw fun hno => nomatch hno)] at hafter
      have heq : m' = m := hafter
      rw [heq]
      exact hagrees
    · rw [hw, if_neg fun hno => nomatch hno] at hafter
      obtain ⟨expires, rfl, hexpires⟩ := hafter
      obtain ⟨x, hentry, hx⟩ := entry_add int space key (int.asBytes delta.1) (expiryOf now ttl)
        (clockOf (.add int) ttl now)
        ((st.shards (shardFor l (hash space key))).prior (hash space key) space key)
      have hnow := @clockOf_of_ne_put (.add int) (fun hno => nomatch hno) ttl now
      have hcounts (e : Entry) : Memory.Counts hash st int space key now e ↔
          (st.shards (shardFor l (hash space key))).prior (hash space key) space key = some e ∧
            e.fresh now = true ∧ e.value.length = int.size := by
        rw [Shard.prior_eq_some (hsound _), Memory.Counts, and_assoc]
        exact ⟨fun he => ⟨(has_iff he.2.1).1 he.1, he.2⟩, fun he => ⟨(has_iff he.2.1).2 he.1, he.2⟩⟩
      have hsame : x = expires := by
        rw [hnow] at hx
        rcases hx with ⟨e, hfound, hfresh, hsize, rfl⟩ | ⟨hno, rfl⟩
        · have he := (hcounts e).2 ⟨hfound, hfresh, hsize⟩
          rcases hexpires with ⟨e', he', rfl⟩ | ⟨hno, -⟩
          · have hfound' := ((hcounts e').1 he').1
            rw [Option.some.inj (hfound.symm.trans hfound')]
          · exact absurd he (hno e)
        · rcases hexpires with ⟨e', he', -⟩ | ⟨-, rfl⟩
          · obtain ⟨hfound, hcond⟩ := (hcounts e').1 he'
            exact absurd hcond (hno e' hfound)
          · rfl
      rw [writes, hentry, hsame] at hagrees
      exact hagrees
  | get space key room now luck =>
    have heq : m' = m := hafter
    rw [heq]
    exact h.of_had (Shard.get_looks (hsound _) space key room now luck).had
  | promote space key way expect =>
    have heq : m' = m := hafter
    rw [heq]
    exact h.of_had (Shard.promote_keeps (hsound _) _ way expect).had
  | del space key =>
    have heq : m' = m.forget space key := hafter
    obtain ⟨-, hdel⟩ := Shard.del_spec (hsound (shardFor l (hash space key))) space key
    rw [heq]
    intro e he
    have hold := has_of_setShard (fun e he => ((hdel e).1 he).1) he
    have hother : ¬ (space = e.space ∧ key = e.key) := by
      rintro ⟨rfl, rfl⟩
      have he := has_setShard.1 he
      rw [if_pos rfl] at he
      have hself : e.isFor e.space e.key = true := Entry.isFor_iff.2 ⟨rfl, rfl⟩
      rw [((hdel e).1 he).2] at hself
      cases hself
    exact (if_neg hother).trans (h e hold)
  | clear =>
    intro e he
    exact absurd he ((Shard.clear_spec (hsound _)).2 e)

theorem sound_of_memory (h : Memory.Of hash st m) : st.Sound hash := by
  induction h with
  | init => exact init_sound l
  | step op _ _ ih => exact ih.step op

/-- After every run, what can be read is what was stored last. -/
theorem agrees_of_memory (h : Memory.Of hash st m) : st.Agrees hash m := by
  induction h with
  | init =>
    intro e he
    obtain ⟨b, i, w, hh, -⟩ := he
    have hdead : (Shard.init l.buckets l.cap).live ((Shard.init l.buckets l.cap).slots b i) = false :=
      Shard.live_never _
    exact absurd (hdead.symm.trans hh.live) (by decide)
  | step op hof hafter ih => exact ih.step (sound_of_memory hof) op hafter

/-- A write that fits is refused by no shard, and only a claim finds it taken. -/
theorem write_stored {mode : Mode} {value : Bytes} (hsound : st.Sound hash) (space : UInt32)
    (key : Bytes) (ttl now : UInt32) (hlen : ∀ int, mode = .add int → value.length = int.size)
    (hmode : mode ≠ .claim)
    (hfits : entryFits (st.shards (shardFor l (hash space key))).ring.length key.length
      value.length = true) :
    (st.write hash mode space key value ttl now).2 =
        (.stored, (st.writes hash mode space key value ttl now).2) ∧
      Shard.Stores hash (st.shards (shardFor l (hash space key)))
        ((st.shards (shardFor l (hash space key))).write (hash space key) mode space key value ttl
          now).1 (st.writes hash mode space key value ttl now).1 := by
  have hcases := Shard.write_cases (hsound (shardFor l (hash space key))) space key ttl now hlen
  rw [writes_eq] at hcases
  rcases hcases with ⟨hno, -⟩ | ⟨-, hclaim, -⟩ | ⟨-, -, hw, hstores⟩
  · rw [hfits] at hno
    cases hno
  · exact absurd hclaim hmode
  · exact ⟨hw, hstores⟩

/-- **A lookup answers the value stored last under its key**, and only while it has not expired, or
answers nothing. -/
theorem get_remembered (h : Memory.Of hash st m) (space : UInt32) (key : Bytes) (room : Nat)
    (now : UInt32) (luck : Bool) :
    (st.step hash (.get space key room now luck)).2 = .value none ∨
      ∃ e, m space key = some e ∧ e.space = space ∧ e.key = key ∧ e.fresh now = true ∧
        (st.step hash (.get space key room now luck)).2 = .value (some e.value) := by
  simp only [Store.step]
  cases hv : ((st.shards (shardFor l (hash space key))).get (hash space key) space key room now
      luck).2 with
  | none => exact .inl rfl
  | some v =>
    obtain ⟨e, he, hfor, rfl, hfresh⟩ := Shard.has_of_get (sound_of_memory h _) hv
    obtain ⟨rfl, rfl⟩ := Entry.isFor_iff.1 hfor
    exact .inr ⟨e, agrees_of_memory h e he, rfl, rfl, hfresh, rfl⟩

theorem get_remembered_put :
    let l : Layout := ⟨1, 1, 4096, ⟨0, by decide⟩, by decide, by decide, by decide⟩
    let st := ((Store.init l).step (fun _ _ => 0) (.put 1 [2] [3] 0 0)).1
    (st.step (fun _ _ => 0) (.get 1 [2] 8 0 true)).2 = .value none ∨
      ∃ e, Memory.empty.set ⟨0, 1, [2], [3]⟩ 1 [2] = some e ∧ e.space = 1 ∧ e.key = [2] ∧
        e.fresh 0 = true ∧
        (st.step (fun _ _ => 0) (.get 1 [2] 8 0 true)).2 = .value (some e.value) := by
  intro l st
  refine get_remembered (.step (.put 1 [2] [3] 0 0) .init ?_) 1 [2] 8 0 true
  have hfits : entryFits (List.replicate 4096 (0 : UInt8)).length 1 1 = true := by
    rw [List.length_replicate]
    decide
  have hstored := (@write_stored (fun _ _ => 0) l (Store.init l) .put [3] (init_sound l) 1 [2] 0 0
    (fun _ hno => nomatch hno) (fun hno => nomatch hno) hfits).1
  simp only [Store.step]
  rw [hstored]
  rfl

end Store

end Nilo.Cache
