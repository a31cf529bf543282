import Nilo.Cache.Table

/-!
# What a call leaves of a shard (`cache/store.zig`)

`Has` is that an entry can be read: a live slot points at it. Every call keeps the shard sound; an
entry that can be read afterwards could be read before or is the one just stored, and one that no
longer can was deleted, was found expired, was passed by the cursor (`Lapped`) or lost its slot in a
full bucket (`Displaced`).
-/

namespace Nilo.Cache

open Text (Bytes)
open Region (liveAt ghostAt)

variable {n : Nat} [NeZero n] {hash : UInt32 → Bytes → UInt64}

theorem Entry.isFor_iff {e : Entry} {space : UInt32} {key : Bytes} :
    e.isFor space key = true ↔ e.space = space ∧ e.key = key := by
  rw [Entry.isFor, decide_eq_true_iff]

namespace Shard

variable {s s' : Shard n} {b : Fin n} {i : Fin ways} {w : Written} {e : Entry}

variable (hash) in
/-- A live slot points at the entry. -/
def Has (s : Shard n) (e : Entry) : Prop := ∃ b i w, s.Holds hash b i w ∧ w.entry = e

variable (hash) in
/-- The cursor passed the entry: its slot is dead by where the cursor is now. -/
def Lapped (s s' : Shard n) (e : Entry) : Prop :=
  ∃ b i w, s.Holds hash b i w ∧ w.entry = e ∧ s'.live (s.slots b i) = false

variable (hash) in
/-- The entry's slot, in a bucket with no way left, was given to another key. -/
def Displaced (s s' : Shard n) (e : Entry) : Prop :=
  ∃ b i w, s.Holds hash b i w ∧ w.entry = e ∧ (∀ j, (s.slots b j).gen ≠ 0) ∧
    ∃ w', s'.Holds hash b i w' ∧ w'.entry.isFor e.space e.key = false

/-- An entry is in the bucket of its key, in a way with its fingerprint. -/
theorem Holds.home {space : UInt32} {key : Bytes} (hh : s.Holds hash b i w)
    (hfor : w.entry.isFor space key = true) :
    bucketOf n (hash space key) = b ∧ (s.slots b i).fp = fingerprint (hash space key) ∧
      (s.slots b i).gen ≠ 0 := by
  obtain ⟨rfl, rfl⟩ := Entry.isFor_iff.1 hfor
  exact ⟨hh.names.home.1, hh.names.home.2.symm, gen_ne_zero_of_live hh.live⟩

theorem Holds.mem_matching {space : UInt32} {key : Bytes} (hh : s.Holds hash b i w)
    (hfor : w.entry.isFor space key = true) :
    i ∈ matching (s.slots b) (fingerprint (hash space key)) := by
  obtain ⟨-, hfp, hgen⟩ := hh.home hfor
  exact List.mem_filter.2 ⟨List.mem_finRange i, decide_eq_true ⟨hfp, hgen⟩⟩

/-- Two slots that hold the same key are one. -/
theorem Sound.same (h : s.Sound hash) {space : UInt32} {key : Bytes} {b' : Fin n} {i' : Fin ways}
    {w' : Written} (hh : s.Holds hash b i w) (hh' : s.Holds hash b' i' w')
    (hfor : w.entry.isFor space key = true) (hfor' : w'.entry.isFor space key = true) :
    b' = b ∧ i' = i := by
  obtain rfl := (hh.home hfor).1
  obtain rfl := (hh'.home hfor').1
  rw [Entry.isFor_iff] at hfor hfor'
  exact ⟨rfl, h.single _ i' w' i w hh' hh (hfor'.1.trans hfor.1.symm) (hfor'.2.trans hfor.2.symm)⟩

/-- A way that reads as live reads an entry that can be read. -/
theorem Sound.holds_of_entry (h : s.Sound hash) (hlive : s.live (s.slots b i) = true)
    (hentry : s.entry (s.slots b i) = some e) : ∃ w, s.Holds hash b i w ∧ w.entry = e := by
  obtain ⟨w, hh⟩ := h.holds_of_live hlive
  exact ⟨w, hh, Option.some.inj ((hh.entry h.laid).symm.trans hentry)⟩

/-! ## Fading -/

/-- A way was set to a slot that points where the one before did, or nowhere. -/
theorem Sound.setSlot_fade (h : s.Sound hash) {slot : Slot} (hf : Fades (s.slots b i) slot) :
    (s.setSlot b i slot).Sound hash := by
  refine h.fade ?_
  intro b' i'
  have hslots := slots_setSlot s b b' i i' slot
  rw [show Function.update s.slots b (Function.update (s.slots b) i slot) b' i' = _ from hslots]
  split_ifs with hthis
  · obtain ⟨rfl, rfl⟩ := hthis
    exact hf
  · exact .refl

theorem fades_clearIf (slot seen : Slot) (luck : Bool) : Fades slot (slot.clearIf seen luck) := by
  rw [Slot.clearIf]
  split_ifs
  · exact .inl rfl
  · exact .refl

/-- Warming a slot changes neither what it points at nor its key. -/
theorem warmer_spec (slot seen : Slot) (luck : Bool) :
    (slot.warmer seen luck).off = slot.off ∧ (slot.warmer seen luck).gen = slot.gen ∧
      (slot.warmer seen luck).fp = slot.fp := by
  rw [Slot.warmer]
  split_ifs with hwarm hsame
  · exact ⟨rfl, rfl, rfl⟩
  · rw [hsame.1]
    exact ⟨rfl, rfl, rfl⟩
  · exact ⟨rfl, rfl, rfl⟩

theorem holds_setSlot_same {slot : Slot} (hoff : slot.off = (s.slots b i).off)
    (hgen : slot.gen = (s.slots b i).gen) (hfp : slot.fp = (s.slots b i).fp) {b' : Fin n}
    {i' : Fin ways} :
    (s.setSlot b i slot).Holds hash b' i' w ↔ s.Holds hash b' i' w := by
  rw [holds_setSlot]
  split_ifs with hthis
  · obtain ⟨rfl, rfl⟩ := hthis
    rw [live_congr s hoff hgen]
    exact ⟨fun hh => ⟨hh.1.congr hoff.symm hgen.symm hfp.symm, hh.2⟩,
      fun hh => ⟨hh.names.congr hoff hgen hfp, hh.live⟩⟩
  · exact Iff.rfl

/-! ## Carrying -/

/-- What a call that stores and deletes nothing leaves. -/
structure Keeps (hash : UInt32 → Bytes → UInt64) (s s' : Shard n) : Prop where
  sound : s'.Sound hash
  had : ∀ e, s'.Has hash e → s.Has hash e
  has : ∀ e, s.Has hash e → s'.Has hash e ∨ s.Lapped hash s' e

theorem Keeps.refl (h : s.Sound hash) : Keeps hash s s := ⟨h, fun _ he => he, fun _ he => .inl he⟩

theorem Keeps.place (h : s.Sound hash) {into : Side} (htakes : s.Takes e)
    (hfits : (s.region into).start + e.size ≤ (s.region into).stop) :
    Keeps hash s (s.place into e e.bytes).1 where
  sound := h.place htakes hfits rfl
  had := by
    rintro e' ⟨b, i, w, hh, rfl⟩
    exact ⟨b, i, w, ((holds_place h htakes hfits rfl).1 hh).1, rfl⟩
  has := by
    rintro e' ⟨b, i, w, hh, rfl⟩
    cases hlive : (s.place into e e.bytes).1.live (s.slots b i) with
    | true => exact .inl ⟨b, i, w, (holds_place h htakes hfits rfl).2 ⟨hh, hlive⟩, rfl⟩
    | false => exact .inr ⟨b, i, w, hh, rfl, hlive⟩

/-- The place a copy goes to is the one `wouldClobber` asks about. -/
theorem apart_of_not_clobber {r : Region} {total src : Nat}
    (h : ¬ r.wouldClobber total src total = true) :
    (r.reserve total).2 + total ≤ src ∨ src + total ≤ (r.reserve total).2 := by
  rw [Region.wouldClobber, decide_eq_true_iff] at h
  by_cases hfull : r.stop < r.cursor.head + total
  · rw [Region.reserve_again hfull]
    simp only [if_pos hfull] at h ⊢
    omega
  · rw [Region.reserve_here hfull]
    simp only [if_neg hfull] at h ⊢
    omega

theorem placeWith_congr {into : Side} {copy copy' : Bytes → Nat → Bytes}
    (h : copy s.ring ((s.region into).reserve e.size).2 =
      copy' s.ring ((s.region into).reserve e.size).2) :
    s.placeWith into e copy = s.placeWith into e copy' := by
  have h : copy s.ring (s.reserve into e.size).2 = copy' s.ring (s.reserve into e.size).2 := h
  simp only [placeWith]
  rw [ring_reserve, h]

/-- An entry that is carried is copied as if it were written again. -/
theorem placeWith_copyForwards (h : s.Sound hash) (hh : s.Holds hash b i w) {into : Side}
    (hfits : (s.region into).start + w.entry.size ≤ (s.region into).stop)
    (hclobber : ¬ (s.region into).wouldClobber w.entry.size (s.slots b i).off w.entry.size = true) :
    (s.placeWith into w.entry fun ring off =>
      Lib.copyForwards ring off (s.slots b i).off w.entry.size) =
      s.place into w.entry w.entry.bytes := by
  obtain ⟨-, hin, hbytes⟩ := bytes_of_entry (hh.entry h.laid)
  have hroom := h.laid.room hfits
  have hstop : ((s.region into).reserve w.entry.size).2 + w.entry.size ≤ s.ring.length := by
    have hcut := Lib.Cursor.cut_piece (h.laid.steady into).start_le hfits (c := (s.region into).spot)
    rw [← hroom.piece] at hcut
    exact Nat.le_trans hcut.le_stop (h.laid.stop_le into)
  refine placeWith_congr ?_
  rw [Lib.copyForwards_of_apart hstop hin (apart_of_not_clobber hclobber), hbytes]

theorem carry_keeps (h : s.Sound hash) (hh : s.Holds hash b i w) (into : Side) :
    Keeps hash s (s.carry into b i (s.slots b i) w.entry).1 := by
  rw [carry]
  by_cases hlen : (s.region into).len < w.entry.size
  · rw [if_pos hlen]
    exact .refl h
  · rw [if_neg hlen]
    by_cases hclobber : (s.region into).wouldClobber w.entry.size (s.slots b i).off w.entry.size
    · rw [if_pos hclobber]
      exact .refl h
    · have hsteady := h.laid.steady into
      have hfits : (s.region into).start + w.entry.size ≤ (s.region into).stop := by
        have hstart := hsteady.start_le
        have hstop := hsteady.le_stop
        rw [Region.len] at hlen
        omega
      have htakes := h.laid.takes w hh.names.mem
      have hplace := Keeps.place h htakes hfits
      rw [if_neg hclobber]
      simp only [placeWith_copyForwards h hh hfits hclobber]
      split_ifs with hmoved
      · exact hplace
      · rw [not_or, not_not, not_not] at hmoved
        have hkept : (s.place into w.entry w.entry.bytes).1.slots b i = s.slots b i :=
          (slots_place_of_gen (by rw [hmoved.2]; exact gen_ne_zero_of_live hh.live)).1
        obtain ⟨hnames, hlive⟩ := record_names h.laid htakes hfits rfl
          (s.slots b i).freq hh.names.home
        rw [hkept]
        refine ⟨hplace.sound.point hnames hlive ?_, ?_, ?_⟩
        · intro i' w' hne hh' hkey
          have hheld := ((holds_place h htakes hfits rfl).1 hh').1
          exact hne (h.single b i' w' i w hheld hh hkey.1.symm hkey.2.symm)
        · rintro e ⟨b', i', w', hh', rfl⟩
          rw [holds_setSlot] at hh'
          split_ifs at hh' with hthis
          · have hentry := Option.some.inj ((hh'.1.entry hplace.sound.laid hh'.2).symm.trans
              (hnames.entry hplace.sound.laid hlive))
            exact ⟨b, i, w, hh, hentry.symm⟩
          · exact hplace.had _ ⟨b', i', w', hh', rfl⟩
        · rintro e ⟨b', i', w', hh', rfl⟩
          by_cases hthis : b' = b ∧ i' = i
          · obtain ⟨rfl, rfl⟩ := hthis
            have hsame : w'.entry = w.entry :=
              Option.some.inj ((hh'.entry h.laid).symm.trans (hh.entry h.laid))
            refine .inl ⟨b', i', s.record into w.entry, holds_setSlot.2 ?_, hsame.symm⟩
            rw [if_pos ⟨rfl, rfl⟩]
            exact ⟨hnames, hlive⟩
          · cases hlive' : (s.place into w.entry w.entry.bytes).1.live (s.slots b' i') with
            | true =>
              refine .inl ⟨b', i', w', holds_setSlot.2 ?_, rfl⟩
              rw [if_neg hthis]
              exact (holds_place h htakes hfits rfl).2 ⟨hh', hlive'⟩
            | false => exact .inr ⟨b', i', w', hh', rfl, hlive'⟩

theorem promote_keeps (h : s.Sound hash) (b : Fin n) (i : Fin ways) (expect : Slot) :
    Keeps hash s (s.promote b i expect).1 := by
  rw [promote]
  by_cases hmoved : (s.slots b i).off ≠ expect.off ∨ (s.slots b i).gen ≠ expect.gen
  · simp only [if_pos hmoved]
    exact .refl h
  · simp only [if_neg hmoved]
    by_cases hlive : s.live (s.slots b i) = true
    · simp only [hlive, not_true, if_false]
      obtain ⟨w, hh⟩ := h.holds_of_live hlive
      rw [hh.entry h.laid]
      exact carry_keeps h hh .main
    · simp only [hlive, not_false_iff]
      exact .refl h

/-! ## Looking up -/

variable {space : UInt32} {key : Bytes} {room : Nat}

theorem lookAt_eq_some {j : Fin ways} {seen : Slot} :
    s.lookAt b space key room i = some (j, seen, e) ↔
      i = j ∧ s.slots b i = seen ∧ s.live (s.slots b i) = true ∧
        s.entry (s.slots b i) = some e ∧ e.isFor space key = true ∧ e.value.length ≤ room := by
  have hlive : liveAt (s.regionOf (s.slots b i).off).cursor (s.slots b i) = s.live (s.slots b i) := rfl
  rw [lookAt]
  simp only [hlive]
  cases hl : s.live (s.slots b i) with
  | false => simp
  | true =>
    cases he : s.entry (s.slots b i) with
    | none => simp
    | some e' =>
      simp only [not_true, if_false, Option.some.injEq]
      by_cases hfor : ¬ e'.isFor space key = true ∨ room < e'.value.length
      · rw [if_pos hfor]
        constructor
        · intro hno
          cases hno
        · rintro ⟨-, -, -, rfl, hisFor, hroom⟩
          rcases hfor with hnot | hlong
          · exact absurd hisFor hnot
          · exact absurd hroom (Nat.not_le_of_lt hlong)
      · rw [if_neg hfor]
        rw [not_or, not_not, Nat.not_lt] at hfor
        simp only [Option.some.injEq, Prod.mk.injEq]
        constructor
        · rintro ⟨rfl, rfl, rfl⟩
          exact ⟨rfl, rfl, trivial, rfl, hfor⟩
        · rintro ⟨rfl, rfl, -, rfl, -⟩
          exact ⟨rfl, rfl, rfl⟩

/-- What the lookup of a key finds: the one slot that holds it, if the value fits the buffer. -/
theorem findSome?_lookAt (h : s.Sound hash) (space : UInt32) (key : Bytes) (room : Nat) :
    (∀ j seen e, (matching (s.slots (bucketOf n (hash space key)))
        (fingerprint (hash space key))).findSome?
          (s.lookAt (bucketOf n (hash space key)) space key room) = some (j, seen, e) →
      seen = s.slots (bucketOf n (hash space key)) j ∧ e.isFor space key = true ∧
        e.value.length ≤ room ∧
        ∃ w, s.Holds hash (bucketOf n (hash space key)) j w ∧ w.entry = e) ∧
    (∀ b i w, s.Holds hash b i w → w.entry.isFor space key = true → w.entry.value.length ≤ room →
      (matching (s.slots (bucketOf n (hash space key))) (fingerprint (hash space key))).findSome?
        (s.lookAt (bucketOf n (hash space key)) space key room) = some (i, s.slots b i, w.entry)) := by
  have hfound {j : Fin ways} {seen : Slot} {e : Entry}
      (hf : (matching (s.slots (bucketOf n (hash space key)))
        (fingerprint (hash space key))).findSome?
          (s.lookAt (bucketOf n (hash space key)) space key room) = some (j, seen, e)) :
      seen = s.slots (bucketOf n (hash space key)) j ∧ e.isFor space key = true ∧
        e.value.length ≤ room ∧
        ∃ w, s.Holds hash (bucketOf n (hash space key)) j w ∧ w.entry = e := by
    obtain ⟨i, -, hlook⟩ := List.exists_of_findSome?_eq_some hf
    obtain ⟨rfl, hseen, hlive, hentry, hfor, hroom⟩ := lookAt_eq_some.1 hlook
    exact ⟨hseen.symm, hfor, hroom, h.holds_of_entry hlive hentry⟩
  refine ⟨fun j seen e hf => hfound hf, ?_⟩
  intro b i w hh hfor hroom
  obtain ⟨rfl, -, -⟩ := hh.home hfor
  have hlook : s.lookAt (bucketOf n (hash space key)) space key room i =
      some (i, s.slots (bucketOf n (hash space key)) i, w.entry) :=
    lookAt_eq_some.2 ⟨rfl, rfl, hh.live, hh.entry h.laid, hfor, hroom⟩
  cases hf : (matching (s.slots (bucketOf n (hash space key)))
      (fingerprint (hash space key))).findSome?
        (s.lookAt (bucketOf n (hash space key)) space key room) with
  | none =>
    rw [List.findSome?_eq_none_iff] at hf
    rw [hf i (hh.mem_matching hfor)] at hlook
    cases hlook
  | some found =>
    obtain ⟨j, seen, e⟩ := found
    obtain ⟨rfl, hfor', -, w', hh', rfl⟩ := hfound hf
    obtain ⟨-, rfl⟩ := h.same hh hh' hfor hfor'
    rw [Option.some.inj ((hh'.entry h.laid).symm.trans (hh.entry h.laid))]

variable {now : UInt32} {luck : Bool}

/-- The three ways a lookup ends: nothing is there that fits the buffer, what is there has expired,
or it is answered. -/
theorem get_cases (h : s.Sound hash) (space : UInt32) (key : Bytes) (room : Nat) (now : UInt32)
    (luck : Bool) :
    (s.get (hash space key) space key room now luck = (s, none) ∧
      ∀ e, s.Has hash e → e.isFor space key = true → room < e.value.length) ∨
    ∃ b i w, s.Holds hash b i w ∧ w.entry.isFor space key = true ∧ w.entry.value.length ≤ room ∧
      ((w.entry.fresh now = false ∧ s.get (hash space key) space key room now luck =
          (s.setSlot b i ((s.slots b i).clearIf (s.slots b i) luck), none)) ∨
        (w.entry.fresh now = true ∧ s.get (hash space key) space key room now luck =
          (if (s.learn b i (s.slots b i) luck).2 then
              ((s.learn b i (s.slots b i) luck).1.promote b i (s.slots b i)).1
            else (s.learn b i (s.slots b i) luck).1, some w.entry.value))) := by
  obtain ⟨hfound, hfinds⟩ := findSome?_lookAt h space key room
  simp only [get]
  cases hf : (matching (s.slots (bucketOf n (hash space key)))
      (fingerprint (hash space key))).findSome?
        (s.lookAt (bucketOf n (hash space key)) space key room) with
  | none =>
    refine .inl ⟨rfl, ?_⟩
    rintro e ⟨b, i, w, hh, rfl⟩ hfor
    by_contra hroom
    rw [hfinds b i w hh hfor (Nat.le_of_not_lt hroom)] at hf
    cases hf
  | some found =>
    obtain ⟨i, seen, e⟩ := found
    obtain ⟨rfl, hfor, hroom, w, hh, rfl⟩ := hfound i seen e hf
    refine .inr ⟨_, i, w, hh, hfor, hroom, ?_⟩
    cases hfresh : w.entry.fresh now with
    | false => exact .inl ⟨rfl, by simp [hfresh]⟩
    | true => exact .inr ⟨rfl, by simp [hfresh]⟩

/-- What a hit learns changes no entry. -/
theorem holds_learn (s : Shard n) (b : Fin n) (i : Fin ways) (luck : Bool) {b' : Fin n}
    {i' : Fin ways} :
    (s.learn b i (s.slots b i) luck).1.Holds hash b' i' w ↔ s.Holds hash b' i' w := by
  obtain ⟨hoff, hgen, hfp⟩ := warmer_spec (s.slots b i) (s.slots b i) luck
  rw [learn]
  split_ifs
  · exact holds_setSlot_same hoff hgen hfp
  · exact holds_setSlot_same hoff hgen hfp
  · exact Iff.rfl

theorem learn_slots (s : Shard n) (b : Fin n) (i : Fin ways) (luck : Bool) (b' : Fin n)
    (i' : Fin ways) :
    ((s.learn b i (s.slots b i) luck).1.slots b' i').off = (s.slots b' i').off ∧
      ((s.learn b i (s.slots b i) luck).1.slots b' i').gen = (s.slots b' i').gen := by
  obtain ⟨hoff, hgen, hfp⟩ := warmer_spec (s.slots b i) (s.slots b i) luck
  have hset : (((s.setSlot b i ((s.slots b i).warmer (s.slots b i) luck))).slots b' i').off =
      (s.slots b' i').off ∧
      ((s.setSlot b i ((s.slots b i).warmer (s.slots b i) luck)).slots b' i').gen =
        (s.slots b' i').gen := by
    rw [slots_setSlot]
    split_ifs with hthis
    · obtain ⟨rfl, rfl⟩ := hthis
      exact ⟨hoff, hgen⟩
    · exact ⟨rfl, rfl⟩
  rw [learn]
  split_ifs
  · exact hset
  · exact hset
  · exact ⟨rfl, rfl⟩

theorem learn_sound (h : s.Sound hash) (b : Fin n) (i : Fin ways) (luck : Bool) :
    (s.learn b i (s.slots b i) luck).1.Sound hash := by
  have hfades : Fades (s.slots b i) ((s.slots b i).warmer (s.slots b i) luck) :=
    .inr (warmer_spec _ _ luck)
  rw [learn]
  split_ifs
  · exact h.setSlot_fade hfades
  · exact h.setSlot_fade hfades
  · exact h

/-- What a lookup leaves: all it could read, but for what it found expired. -/
structure Looks (hash : UInt32 → Bytes → UInt64) (s s' : Shard n) (space : UInt32) (key : Bytes)
    (now : UInt32) : Prop where
  sound : s'.Sound hash
  had : ∀ e, s'.Has hash e → s.Has hash e
  has : ∀ e, s.Has hash e →
    s'.Has hash e ∨ s.Lapped hash s' e ∨ e.isFor space key = true ∧ e.fresh now = false

theorem get_looks (h : s.Sound hash) (space : UInt32) (key : Bytes) (room : Nat) (now : UInt32)
    (luck : Bool) : Looks hash s (s.get (hash space key) space key room now luck).1 space key now := by
  obtain ⟨hget, -⟩ | ⟨b, i, w, hh, hfor, -, ⟨hfresh, hget⟩ | ⟨-, hget⟩⟩ :=
    get_cases h space key room now luck
  · rw [hget]
    exact ⟨h, fun _ he => he, fun _ he => .inl he⟩
  · have hfades := fades_clearIf (s.slots b i) (s.slots b i) luck
    rw [hget]
    refine ⟨h.setSlot_fade hfades, ?_, ?_⟩
    · rintro e ⟨b', i', w', hh', rfl⟩
      refine ⟨b', i', w', hh'.of_fades ?_, rfl⟩
      rw [show Function.update s.slots b (Function.update (s.slots b) i _) b' i' = _ from
        slots_setSlot s b b' i i' _]
      split_ifs with hthis
      · obtain ⟨rfl, rfl⟩ := hthis
        exact hfades
      · exact .refl
    · rintro e ⟨b', i', w', hh', rfl⟩
      by_cases hthis : b' = b ∧ i' = i
      · obtain ⟨rfl, rfl⟩ := hthis
        rw [Option.some.inj ((hh'.entry h.laid).symm.trans (hh.entry h.laid))]
        exact .inr (.inr ⟨hfor, hfresh⟩)
      · refine .inl ⟨b', i', w', holds_setSlot.2 ?_, rfl⟩
        rwa [if_neg hthis]
  · rw [hget]
    have hlearned := learn_sound h b i luck
    by_cases hmove : (s.learn b i (s.slots b i) luck).2 = true
    · rw [if_pos hmove]
      have hkeeps := promote_keeps hlearned b i (s.slots b i)
      refine ⟨hkeeps.sound, ?_, ?_⟩
      · intro e he
        obtain ⟨b', i', w', hh', rfl⟩ := hkeeps.had e he
        exact ⟨b', i', w', (holds_learn s b i luck).1 hh', rfl⟩
      · rintro e ⟨b', i', w', hh', rfl⟩
        obtain he | ⟨b₂, i₂, w₂, hh₂, hw₂, hdead⟩ :=
          hkeeps.has w'.entry ⟨b', i', w', (holds_learn s b i luck).2 hh', rfl⟩
        · exact .inl he
        · refine .inr (.inl ⟨b₂, i₂, w₂, (holds_learn s b i luck).1 hh₂, hw₂, ?_⟩)
          obtain ⟨hoff, hgen⟩ := learn_slots s b i luck b₂ i₂
          rw [← live_congr _ hoff hgen]
          exact hdead
    · rw [if_neg hmove]
      refine ⟨hlearned, ?_, ?_⟩
      · rintro e ⟨b', i', w', hh', rfl⟩
        exact ⟨b', i', w', (holds_learn s b i luck).1 hh', rfl⟩
      · rintro e ⟨b', i', w', hh', rfl⟩
        exact .inl ⟨b', i', w', (holds_learn s b i luck).2 hh', rfl⟩

/-- A lookup answers an entry of the key that can be read and has not expired. -/
theorem has_of_get (h : s.Sound hash) {v : Bytes}
    (hv : (s.get (hash space key) space key room now luck).2 = some v) :
    ∃ e, s.Has hash e ∧ e.isFor space key = true ∧ e.value = v ∧ e.fresh now = true := by
  obtain ⟨hget, -⟩ | ⟨b, i, w, hh, hfor, -, ⟨-, hget⟩ | ⟨hfresh, hget⟩⟩ :=
    get_cases h space key room now luck
  · rw [hget] at hv
    cases hv
  · rw [hget] at hv
    cases hv
  · rw [hget] at hv
    exact ⟨w.entry, ⟨b, i, w, hh, rfl⟩, hfor, Option.some.inj hv, hfresh⟩

/-- And answers every such entry whose value fits the buffer. -/
theorem get_of_has (h : s.Sound hash) (luck : Bool) (he : s.Has hash e) (hfor : e.isFor space key = true)
    (hfresh : e.fresh now = true) (hroom : e.value.length ≤ room) :
    (s.get (hash space key) space key room now luck).2 = some e.value := by
  obtain ⟨hget, hnone⟩ | ⟨b, i, w, hh, hfor', -, hcase⟩ :=
    get_cases h space key room now luck
  · exact absurd (hnone e he hfor) (Nat.not_lt_of_le hroom)
  · obtain ⟨b', i', w', hh', rfl⟩ := he
    obtain ⟨rfl, rfl⟩ := h.same hh hh' hfor' hfor
    have hsame := Option.some.inj ((hh'.entry h.laid).symm.trans (hh.entry h.laid))
    rcases hcase with ⟨hdead, -⟩ | ⟨-, hget⟩
    · rw [← hsame, hfresh] at hdead
      cases hdead
    · rw [hget, hsame]

/-! ## Forgetting -/

/-- A delete forgets the key and nothing else. -/
theorem del_spec (h : s.Sound hash) (space : UInt32) (key : Bytes) :
    (s.del (hash space key) space key).1.Sound hash ∧
      ∀ e, (s.del (hash space key) space key).1.Has hash e ↔
        s.Has hash e ∧ e.isFor space key = false := by
  have hmatches {i : Fin ways} {w : Written} (hh : s.Holds hash (bucketOf n (hash space key)) i w)
      (hfor : w.entry.isFor space key = true) :
      (decide ((s.slots (bucketOf n (hash space key)) i).gen ≠ 0 ∧
          (s.slots (bucketOf n (hash space key)) i).fp = fingerprint (hash space key)) &&
        s.live (s.slots (bucketOf n (hash space key)) i) &&
        (s.entry (s.slots (bucketOf n (hash space key)) i)).any (·.isFor space key)) = true := by
    obtain ⟨-, hfp, hgen⟩ := hh.home hfor
    rw [hh.entry h.laid, hh.live, decide_eq_true ⟨hgen, hfp⟩]
    simpa using hfor
  simp only [del]
  split
  · rename_i hnone
    rw [List.find?_eq_none] at hnone
    refine ⟨h, fun e => ⟨fun he => ⟨he, ?_⟩, And.left⟩⟩
    obtain ⟨b, i, w, hh, rfl⟩ := he
    by_contra hfor
    rw [Bool.not_eq_false] at hfor
    obtain ⟨rfl, -, -⟩ := hh.home hfor
    exact hnone i (List.mem_finRange i) (hmatches hh hfor)
  · rename_i i hfound
    have hthis := List.find?_some hfound
    simp only [Bool.and_eq_true, Option.any_eq_true] at hthis
    obtain ⟨⟨-, hlive⟩, e₀, hentry, hfor⟩ := hthis
    obtain ⟨w, hh, rfl⟩ := h.holds_of_entry hlive hentry
    refine ⟨h.setSlot_fade (.inl rfl), fun e => ⟨?_, ?_⟩⟩
    · rintro ⟨b', i', w', hh', rfl⟩
      rw [holds_setSlot] at hh'
      split_ifs at hh' with hsame
      · cases hh'.2
      · refine ⟨⟨b', i', w', hh', rfl⟩, ?_⟩
        by_contra hfor'
        rw [Bool.not_eq_false] at hfor'
        exact hsame (h.same hh hh' hfor hfor')
    · rintro ⟨⟨b', i', w', hh', rfl⟩, hfor'⟩
      refine ⟨b', i', w', holds_setSlot.2 ?_, rfl⟩
      rw [if_neg ?_]
      · exact hh'
      · rintro ⟨rfl, rfl⟩
        rw [Option.some.inj ((hh'.entry h.laid).symm.trans hentry), hfor] at hfor'
        cases hfor'

theorem clear_spec (h : s.Sound hash) : s.clear.Sound hash ∧ ∀ e, ¬ s.clear.Has hash e := by
  refine ⟨h.fade fun _ _ => .inl rfl, ?_⟩
  rintro e ⟨b, i, w, hh, -⟩
  cases hh.live

/-! ## Writing -/

theorem scan_found {l : List (Fin ways)} {returning : Bool} {seen : Slot}
    (hf : (s.scan b space key l returning).found = some (i, seen, e)) :
    seen = s.slots b i ∧ s.live seen = true ∧ s.entry seen = some e ∧ e.isFor space key = true := by
  induction l generalizing returning with
  | nil => cases hf
  | cons j rest ih =>
    simp only [scan] at hf
    by_cases hlive : liveAt (s.regionOf (s.slots b j).off).cursor (s.slots b j) = true
    · rw [if_neg (not_not.2 hlive)] at hf
      split at hf
      · exact ih hf
      · rename_i e' hentry
        split_ifs at hf with hfor
        · cases hf
          exact ⟨rfl, hlive, hentry, hfor⟩
        · exact ih hf
    · rw [if_pos hlive] at hf
      exact ih hf

theorem scan_none {l : List (Fin ways)} {returning : Bool}
    (hf : (s.scan b space key l returning).found = none) (hi : i ∈ l)
    (hlive : s.live (s.slots b i) = true) (hentry : s.entry (s.slots b i) = some e) :
    e.isFor space key = false := by
  induction l generalizing returning with
  | nil => cases hi
  | cons j rest ih =>
    simp only [scan] at hf
    rcases List.mem_cons.1 hi with rfl | hi
    · have hlive' : ¬ ¬ liveAt (s.regionOf (s.slots b i).off).cursor (s.slots b i) = true :=
        not_not.2 hlive
      rw [if_neg hlive', hentry] at hf
      by_contra hfor
      rw [Bool.not_eq_false] at hfor
      simp [hfor] at hf
    · by_cases hlive' : liveAt (s.regionOf (s.slots b j).off).cursor (s.slots b j) = true
      · rw [if_neg (not_not.2 hlive')] at hf
        split at hf
        · exact ih hf hi
        · split_ifs at hf with hfor
          exact ih hf hi
      · rw [if_pos hlive'] at hf
        exact ih hf hi

/-- What a stored entry leaves: it can be read, and of the others those of another key. -/
structure Stores (hash : UInt32 → Bytes → UInt64) (s s' : Shard n) (e : Entry) : Prop where
  sound : s'.Sound hash
  new : s'.Has hash e
  had : ∀ e', s'.Has hash e' → e' = e ∨ s.Has hash e' ∧ e'.isFor e.space e.key = false
  has : ∀ e', s.Has hash e' → e'.isFor e.space e.key = false →
    s'.Has hash e' ∨ s.Lapped hash s' e' ∨ s.Displaced hash s' e'

/-- Slots that point where they did. -/
def Same (slots slots' : Fin n → Fin ways → Slot) : Prop :=
  ∀ b i, (slots' b i).off = (slots b i).off ∧ (slots' b i).gen = (slots b i).gen ∧
    (slots' b i).fp = (slots b i).fp

theorem holds_same {slots : Fin n → Fin ways → Slot} (hsame : Same s.slots slots) :
    { s with slots := slots }.Holds hash b i w ↔ s.Holds hash b i w := by
  obtain ⟨hoff, hgen, hfp⟩ := hsame b i
  refine ⟨fun hh => hh.of_fades (.inr ⟨hoff, hgen, hfp⟩), fun hh => ⟨?_, ?_⟩⟩
  · have hn := hh.names.congr hoff hgen hfp
    exact ⟨hn.mem, hn.off, hn.gen, hn.recent, hn.home⟩
  · exact (live_congr s hoff hgen).trans hh.live

theorem decay_same (s : Shard n) (b : Fin n) : Same s.slots (s.decay b).slots := by
  intro b' i'
  by_cases hb : b' = b
  · subst hb
    simp [decay]
  · simp [decay, hb]

/-- A copy, and the slot pointed at it: the only one that held the key before, if there was one. -/
theorem stores_of_place (h : s.Sound hash) {into : Side} {fp freq : Nat} (hhome : Home hash b fp e)
    (htakes : s.Takes e) (hfits : (s.region into).start + e.size ≤ (s.region into).stop)
    {slots : Fin n → Fin ways → Slot} (hsame : Same (s.place into e e.bytes).1.slots slots)
    (honly : ∀ i' w', s.Holds hash b i' w' → w'.entry.isFor e.space e.key = true → i' = i)
    (hfull : ∀ w', (s.place into e e.bytes).1.Holds hash b i w' →
      w'.entry.isFor e.space e.key = false → ∀ j, (s.slots b j).gen ≠ 0) :
    Stores hash s ({ (s.place into e e.bytes).1 with slots := slots }.setSlot b i
      ⟨(s.place into e e.bytes).2, ((s.place into e e.bytes).1.region into).cursor.gen, fp, freq⟩)
      e := by
  have hplace := Keeps.place h htakes hfits
  obtain ⟨hn, hlive⟩ := record_names h.laid htakes hfits rfl freq hhome
  have hsound : { (s.place into e e.bytes).1 with slots := slots }.Sound hash :=
    hplace.sound.fade fun b' i' => .inr (hsame b' i')
  have hnames : { (s.place into e e.bytes).1 with slots := slots }.Names hash b
      ⟨(s.place into e e.bytes).2, ((s.place into e e.bytes).1.region into).cursor.gen, fp, freq⟩
      (s.record into e) := ⟨hn.mem, hn.off, hn.gen, hn.recent, hn.home⟩
  have hheld {b' : Fin n} {i' : Fin ways} {w' : Written}
      (hh : { (s.place into e e.bytes).1 with slots := slots }.Holds hash b' i' w') :
      s.Holds hash b' i' w' :=
    ((holds_place h htakes hfits rfl).1 ((holds_same hsame).1 hh)).1
  have hself : e.isFor e.space e.key = true := Entry.isFor_iff.2 ⟨rfl, rfl⟩
  refine ⟨hsound.point hnames hlive ?_, ?_, ?_, ?_⟩
  · intro i' w' hne hh' hkey
    exact hne (honly i' w' (hheld hh') (Entry.isFor_iff.2 ⟨hkey.1.symm, hkey.2.symm⟩))
  · refine ⟨b, i, s.record into e, holds_setSlot.2 ?_, rfl⟩
    rw [if_pos ⟨rfl, rfl⟩]
    exact ⟨hnames, hlive⟩
  · rintro e' ⟨b', i', w', hh', rfl⟩
    rw [holds_setSlot] at hh'
    split_ifs at hh' with hthis
    · exact .inl (Option.some.inj ((hh'.1.entry hsound.laid hh'.2).symm.trans
        (hnames.entry hsound.laid hlive)))
    · refine .inr ⟨⟨b', i', w', hheld hh', rfl⟩, ?_⟩
      by_contra hfor
      rw [Bool.not_eq_false] at hfor
      have hb : b' = b := ((hheld hh').home hfor).1.symm.trans hhome.1
      subst hb
      exact hthis ⟨rfl, honly i' w' (hheld hh') hfor⟩
  · rintro e' ⟨b', i', w', hh', rfl⟩ hother
    cases hlive' : (s.place into e e.bytes).1.live (s.slots b' i') with
    | false => exact .inr (.inl ⟨b', i', w', hh', rfl, hlive'⟩)
    | true =>
      have hplaced := (holds_place h htakes hfits rfl).2 ⟨hh', hlive'⟩
      by_cases hthis : b' = b ∧ i' = i
      · obtain ⟨rfl, rfl⟩ := hthis
        refine .inr (.inr ⟨b', i', w', hh', rfl, hfull w' hplaced hother, s.record into e,
          holds_setSlot.2 ?_, ?_⟩)
        · rw [if_pos ⟨rfl, rfl⟩]
          exact ⟨hnames, hlive⟩
        · rw [Bool.eq_false_iff, Ne, Entry.isFor_iff] at hother ⊢
          exact fun hkey => hother ⟨hkey.1.symm, hkey.2.symm⟩
      · refine .inl ⟨b', i', w', holds_setSlot.2 ?_, rfl⟩
        rw [if_neg hthis]
        exact (holds_same hsame).2 hplaced

theorem gen_of_place {into : Side} {bytes : Bytes} {j : Fin ways}
    (hgen : ((s.place into e bytes).1.slots b j).gen ≠ 0) : (s.slots b j).gen ≠ 0 := by
  rw [(slots_place_of_gen hgen).1] at hgen
  exact hgen

/-- A way that was written is only given up in a bucket with no way left. -/
theorem victim_full (hgen : (s.slots b (s.victim b).1).gen ≠ 0) (j : Fin ways) :
    (s.slots b j).gen ≠ 0 := by
  rw [victim] at hgen
  split at hgen
  · rename_i i hfound
    have hzero := List.find?_some hfound
    exact absurd (of_decide_eq_true hzero) hgen
  · rename_i hnone
    rw [List.find?_eq_none] at hnone
    have hj := hnone j (List.mem_finRange j)
    rwa [decide_eq_true_iff] at hj

theorem enter_stores (h : s.Sound hash) {into : Side} {fp : Nat} (hhome : Home hash b fp e)
    (htakes : s.Takes e) (hfits : (s.region into).start + e.size ≤ (s.region into).stop)
    {chosen : Option (Fin ways × Nat)}
    (hsome : ∀ i freq, chosen = some (i, freq) →
      ∃ w, s.Holds hash b i w ∧ w.entry.isFor e.space e.key = true)
    (hnone : chosen = none → ∀ e', s.Has hash e' → e'.isFor e.space e.key = false) :
    Stores hash s (s.enter into b fp chosen e) e := by
  cases chosen with
  | some way =>
    obtain ⟨i, freq⟩ := way
    obtain ⟨w, hh, hfor⟩ := hsome i freq rfl
    refine stores_of_place h hhome htakes hfits (fun _ _ => ⟨rfl, rfl, rfl⟩) ?_ ?_
    · exact fun i' w' hh' hfor' => (h.same hh hh' hfor hfor').2
    · intro w' hplaced hother
      have hh' := ((holds_place h htakes hfits rfl).1 hplaced).1
      rw [Option.some.inj ((hh'.entry h.laid).symm.trans (hh.entry h.laid)), hfor] at hother
      cases hother
  | none =>
    have hnone := hnone rfl
    have honly (i i' : Fin ways) (w' : Written) (hh' : s.Holds hash b i' w')
        (hfor : w'.entry.isFor e.space e.key = true) : i' = i := by
      rw [hnone _ ⟨b, i', w', hh', rfl⟩] at hfor
      cases hfor
    have hfull (w' : Written)
        (hplaced : (s.place into e e.bytes).1.Holds hash b ((s.place into e e.bytes).1.victim b).1 w')
        (_ : w'.entry.isFor e.space e.key = false) (j : Fin ways) : (s.slots b j).gen ≠ 0 :=
      gen_of_place (victim_full (gen_ne_zero_of_live hplaced.live) j)
    simp only [enter]
    split_ifs with hdecay
    · exact stores_of_place h hhome htakes hfits (decay_same _ b) (honly _) hfull
    · exact stores_of_place h hhome htakes hfits (fun _ _ => ⟨rfl, rfl, rfl⟩) (honly _) hfull

/-- What `write` finds of its key, if anything. -/
def prior (s : Shard n) (hash : UInt64) (space : UInt32) (key : Bytes) : Option Entry :=
  (s.scan (bucketOf n hash) space key (matching (s.slots (bucketOf n hash)) (fingerprint hash))
    false).found.map (·.2.2)

/-- What was there of the key is what could be read of it. -/
theorem prior_eq_some (h : s.Sound hash) :
    s.prior (hash space key) space key = some e ↔ s.Has hash e ∧ e.isFor space key = true := by
  rw [prior]
  constructor
  · intro hp
    obtain ⟨⟨i, seen, e'⟩, hfound, rfl⟩ := Option.map_eq_some_iff.1 hp
    obtain ⟨rfl, hlive, hentry, hfor⟩ := scan_found hfound
    obtain ⟨w, hh, hw⟩ := h.holds_of_entry hlive hentry
    exact ⟨⟨_, i, w, hh, hw⟩, hfor⟩
  · rintro ⟨⟨b, i, w, hh, rfl⟩, hfor⟩
    obtain ⟨rfl, -, -⟩ := hh.home hfor
    cases hfound : (s.scan (bucketOf n (hash space key)) space key
        (matching (s.slots (bucketOf n (hash space key))) (fingerprint (hash space key)))
        false).found with
    | none =>
      rw [scan_none hfound (hh.mem_matching hfor) hh.live (hh.entry h.laid)] at hfor
      cases hfor
    | some found =>
      obtain ⟨j, seen, e'⟩ := found
      obtain ⟨rfl, hlive, hentry, hfor'⟩ := scan_found hfound
      obtain ⟨w', hh', rfl⟩ := h.holds_of_entry hlive hentry
      obtain ⟨-, rfl⟩ := h.same hh hh' hfor hfor'
      exact congrArg some (Option.some.inj (hentry.symm.trans (hh.entry h.laid)))

/-- Where an accepted entry is sent, it fits. -/
theorem choose_fits (h : s.Sound hash) {total : Nat} (htotal : total ≤ s.ring.length / 4)
    (returning : Bool) :
    (s.region (s.choose total returning)).start + total ≤
      (s.region (s.choose total returning)).stop := by
  have hroomy := h.laid.roomy
  have hmain := h.laid.steady .main
  have hsmall := h.laid.steady .small
  have hstart := hmain.start_le
  have hstop := hmain.le_stop
  have hstart' := hsmall.start_le
  have hstop' := hsmall.le_stop
  rw [choose]
  split_ifs with hwhere
  · rw [Region.len] at hroomy
    omega
  · rw [not_or, not_or, Nat.not_lt] at hwhere
    have hsmall : total * 2 ≤ (s.region .small).stop - (s.region .small).start := hwhere.2.2
    omega

end Shard

variable {mode : Mode} {space : UInt32} {key value : Bytes} {now : UInt32}

@[simp] theorem Num.length_asBytes (int : Num) (v : Int) : (int.asBytes v).length = int.size :=
  Mem.length_writeLe _ _

/-- What a write copies in is of its key, and of the length it was asked with. -/
theorem Mode.entry_spec (space : UInt32) (key : Bytes) (expires now : UInt32) (found : Option Entry)
    (hlen : ∀ int, mode = .add int → value.length = int.size) :
    (mode.entry space key value expires now found).1.space = space ∧
      (mode.entry space key value expires now found).1.key = key ∧
      (mode.entry space key value expires now found).1.value.length = value.length := by
  cases mode with
  | put => exact ⟨rfl, rfl, rfl⟩
  | claim => exact ⟨rfl, rfl, rfl⟩
  | add int =>
    rw [Mode.entry]
    split
    · exact ⟨rfl, rfl, by simp [hlen int rfl]⟩
    · exact ⟨rfl, rfl, by simp [hlen int rfl]⟩

namespace Shard

variable {s : Shard n} {ttl : UInt32}

/-- What a write would store. -/
def writes (s : Shard n) (hash : UInt64) (mode : Mode) (space : UInt32) (key value : Bytes)
    (ttl now : UInt32) : Entry × Int :=
  mode.entry space key value (expiryOf (clockOf mode ttl now) ttl) (clockOf mode ttl now)
    (s.prior hash space key)

/-- The three ways a write ends. -/
theorem write_cases (h : s.Sound hash) (space : UInt32) (key : Bytes) (ttl now : UInt32)
    (hlen : ∀ int, mode = .add int → value.length = int.size) :
    (entryFits s.ring.length key.length value.length = false ∧
      s.write (hash space key) mode space key value ttl now = (s, .refused, 0)) ∨
    (entryFits s.ring.length key.length value.length = true ∧ mode = .claim ∧
      (∃ e, s.Has hash e ∧ e.isFor space key = true ∧ e.fresh now = true) ∧
      s.write (hash space key) mode space key value ttl now = (s, .taken, 0)) ∨
    (entryFits s.ring.length key.length value.length = true ∧
      (mode = .claim → ∀ e, s.Has hash e → e.isFor space key = true → e.fresh now = false) ∧
      (s.write (hash space key) mode space key value ttl now).2 =
        (.stored, (s.writes (hash space key) mode space key value ttl now).2) ∧
      Stores hash s (s.write (hash space key) mode space key value ttl now).1
        (s.writes (hash space key) mode space key value ttl now).1) := by
  cases hfits : entryFits s.ring.length key.length value.length with
  | false => exact .inl ⟨rfl, by simp [write, hfits]⟩
  | true =>
    refine .inr ?_
    obtain ⟨hspace, hkey, hvalue⟩ := Mode.entry_spec space key
      (expiryOf (clockOf mode ttl now) ttl) (clockOf mode ttl now)
      (s.prior (hash space key) space key) hlen
    have hclaim : mode = .claim → clockOf mode ttl now = now := by
      rintro rfl
      exact if_neg fun hput => Mode.noConfusion hput.2
    have htakes : s.Takes (s.writes (hash space key) mode space key value ttl now).1 := by
      rwa [Takes, writes, hkey, hvalue]
    have hsize := (Entry.sized_of_entryFits htakes).2
    have htotal : header + key.length + value.length =
        (s.writes (hash space key) mode space key value ttl now).1.size := by
      rw [Entry.size, writes, hkey, hvalue]
    have hhome : Home hash (bucketOf n (hash space key)) (fingerprint (hash space key))
        (s.writes (hash space key) mode space key value ttl now).1 := by
      rw [Home, writes, hspace, hkey]
      exact ⟨rfl, rfl⟩
    have henter {chosen : Option (Fin ways × Nat)} (returning : Bool)
        (hsome : ∀ i freq, chosen = some (i, freq) →
          ∃ w, s.Holds hash (bucketOf n (hash space key)) i w ∧ w.entry.isFor space key = true)
        (hnone : chosen = none → ∀ e', s.Has hash e' → e'.isFor space key = false) :
        Stores hash s (s.enter (s.choose (header + key.length + value.length) returning)
          (bucketOf n (hash space key)) (fingerprint (hash space key)) chosen
          (s.writes (hash space key) mode space key value ttl now).1)
          (s.writes (hash space key) mode space key value ttl now).1 := by
      refine enter_stores h hhome htakes ?_ ?_ ?_
      · rw [← htotal] at hsize ⊢
        exact choose_fits h hsize returning
      · rw [writes, hspace, hkey]
        exact hsome
      · rw [writes, hspace, hkey]
        exact hnone
    have hpriors (e : Entry) : s.prior (hash space key) space key = some e ↔
        s.Has hash e ∧ e.isFor space key = true := prior_eq_some h
    simp only [write, hfits, not_true, if_false]
    split
    · rename_i hfound
      have hnone : s.prior (hash space key) space key = none := by
        rw [prior, hfound]
        rfl
      have hhas (e : Entry) (he : s.Has hash e) : e.isFor space key = false := by
        by_contra hfor
        rw [Bool.not_eq_false] at hfor
        rw [(hpriors e).2 ⟨he, hfor⟩] at hnone
        cases hnone
      refine .inr ⟨trivial, ?_, rfl, ?_⟩
      · intro _ e he hfor
        rw [hhas e he] at hfor
        cases hfor
      · refine @henter none _ ?_ fun _ => hhas
        intro i freq hno
        cases hno
    · rename_i i seen held hfound
      obtain ⟨rfl, hlive, hentry, hfor⟩ := scan_found hfound
      obtain ⟨w, hh, rfl⟩ := h.holds_of_entry hlive hentry
      have hother (e : Entry) (he : s.Has hash e) (hfor' : e.isFor space key = true) :
          e = w.entry := by
        obtain ⟨b', i', w', hh', rfl⟩ := he
        obtain ⟨rfl, rfl⟩ := h.same hh hh' hfor hfor'
        exact Option.some.inj ((hh'.entry h.laid).symm.trans hentry)
      by_cases htaken : mode = .claim ∧ w.entry.fresh (clockOf mode ttl now) = true
      · obtain ⟨rfl, hfresh⟩ := htaken
        rw [hclaim rfl] at hfresh
        refine .inl ⟨trivial, rfl, ⟨w.entry, ⟨_, i, w, hh, rfl⟩, hfor, hfresh⟩, ?_⟩
        rw [hclaim rfl]
        exact if_pos ⟨rfl, hfresh⟩
      · refine .inr ⟨trivial, ?_, ?_, ?_⟩
        · rintro rfl e he hfor'
          rw [hother e he hfor']
          rw [hclaim rfl] at htaken
          exact Bool.eq_false_iff.2 fun hfresh => htaken ⟨rfl, hfresh⟩
        · rw [if_neg htaken]
          rfl
        · rw [if_neg htaken]
          refine @henter (some (i, (s.slots _ i).freq)) _ ?_ ?_
          · intro i' freq hsome
            cases hsome
            exact ⟨w, hh, hfor⟩
          · intro hno
            cases hno

end Shard

end Nilo.Cache
