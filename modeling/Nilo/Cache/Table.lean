import Nilo.Cache.Standing

/-!
# The table over the ring (`cache/store.zig`)

A slot names an entry of the log, of its own bucket and fingerprint, and no older than the last
sweep (`Names`); so the sixteen bits of its pass are enough to say whether the entry stands
(`live_iff`). `Sound` is kept by every edit of a shard: a slot that fades (`Sound.fade`), a copy into
the ring (`Sound.place`), and the slot of the copy (`Sound.point`).
-/

namespace Nilo.Cache

open Text (Bytes)
open Lib (Cursor Piece)
open Region (liveAt ghostAt)

variable {n : Nat} [NeZero n] (hash : UInt32 → Bytes → UInt64)

/-- The bucket and the fingerprint an entry's key has. -/
def Home (b : Fin n) (fp : Nat) (e : Entry) : Prop :=
  bucketOf n (hash e.space e.key) = b ∧ fingerprint (hash e.space e.key) = fp

namespace Shard

structure Names (s : Shard n) (b : Fin n) (slot : Slot) (w : Written) : Prop where
  mem : w ∈ s.log
  off : w.off = slot.off
  gen : genOf w.lap = slot.gen
  recent : floor (s.region w.side).lap ≤ w.lap
  home : Home hash b slot.fp w.entry

/-- The slot is live, and the entry is what it points at. -/
structure Holds (s : Shard n) (b : Fin n) (i : Fin ways) (w : Written) : Prop where
  names : s.Names hash b (s.slots b i) w
  live : s.live (s.slots b i) = true

structure Sound (s : Shard n) : Prop where
  laid : s.Laid
  named : ∀ b i, (s.slots b i).gen ≠ 0 → ∃ w, s.Names hash b (s.slots b i) w
  single : ∀ b i w i' w', s.Holds hash b i w → s.Holds hash b i' w' →
    w.entry.space = w'.entry.space → w.entry.key = w'.entry.key → i = i'

variable {hash} {s : Shard n} {b : Fin n} {i : Fin ways} {slot : Slot} {w : Written} {e : Entry}

theorem gen_ne_zero_of_live (h : s.live slot = true) : slot.gen ≠ 0 := by
  intro hzero
  rw [live, liveAt, if_pos hzero] at h
  cases h

@[simp] theorem live_never (s : Shard n) : s.live .never = false := rfl

/-! ## What a named slot's pass says -/

theorem Names.lap_le (h : s.Laid) (hn : s.Names hash b slot w) : w.lap ≤ (s.region w.side).lap :=
  (h.cut w hn.mem).lap_le

theorem Names.near (hn : s.Names hash b slot w) :
    (s.region w.side).lap + 1 < w.lap + passes := by
  have hfloor := le_floor_add (s.region w.side).lap
  have hrecent := hn.recent
  simp only [passes]
  omega

/-- What a cursor on the pass after `lap` at most makes of a slot's pass. -/
theorem Names.liveAt_iff (hn : s.Names hash b slot w) {m : Mark} {lap : Nat} (hm : m.gen = genOf lap)
    (hle : w.lap ≤ lap) (hnear : lap < w.lap + passes) :
    liveAt m slot = true ↔
      w.lap = lap ∧ w.off < m.head ∨ w.lap + 1 = lap ∧ genOf lap ≠ 1 ∧ m.head ≤ w.off := by
  have hzero : slot.gen ≠ 0 := hn.gen ▸ genOf_ne_zero _
  have hsucc := genOf_succ_iff hle hnear
  rw [liveAt, if_neg hzero, ← hn.gen, ← hn.off, hm]
  by_cases hsame : genOf w.lap = genOf lap
  · have heq := lap_eq_of_genOf hle hnear hsame
    rw [if_pos hsame, decide_eq_true_iff]
    omega
  · have hne : w.lap ≠ lap := fun heq => hsame (congrArg genOf heq)
    rw [if_neg hsame]
    by_cases hnext : (genOf w.lap + 1) % 2 ^ 16 = genOf lap
    · have hnext' := hsucc.1 hnext
      rw [if_pos hnext, decide_eq_true_iff]
      omega
    · rw [if_neg hnext]
      refine ⟨fun hno => Bool.noConfusion hno, ?_⟩
      rintro (⟨heq, -⟩ | ⟨hlap, hgen, -⟩)
      · exact absurd heq hne
      · exact absurd (hsucc.2 ⟨hlap, hgen⟩) hnext

/-- Whether a named slot is live: its entry is of this pass, or of the one before and still ahead
of the cursor. -/
theorem live_iff (h : s.Laid) (hn : s.Names hash b slot w) :
    s.live slot = true ↔ w.lap = (s.region w.side).lap ∨
      w.lap + 1 = (s.region w.side).lap ∧ genOf (s.region w.side).lap ≠ 1 ∧
        (s.region w.side).cursor.head ≤ w.off := by
  have hregion : s.regionOf slot.off = s.region w.side := by
    rw [regionOf, ← hn.off, h.sideOf hn.mem]
  rw [live, hregion, hn.liveAt_iff (h.steady w.side).gen (hn.lap_le h)
    (Nat.lt_of_succ_lt hn.near)]
  refine or_congr_left (and_iff_left_of_imp fun heq => ?_)
  have hbehind : w.off + w.entry.size ≤ (s.region w.side).cursor.head :=
    (h.cut w hn.mem).behind heq
  have hpos := w.entry.size_pos
  omega

theorem Names.stands (h : s.Laid) (hn : s.Names hash b slot w) (hlive : s.live slot = true) :
    s.Stands w := by
  obtain heq | ⟨hlap, -, hhead⟩ := (live_iff h hn).1 hlive
  · exact .inl heq
  · exact .inr ⟨hlap, hhead⟩

theorem Names.entry (h : s.Laid) (hn : s.Names hash b slot w) (hlive : s.live slot = true) :
    s.entry slot = some w.entry := by
  have hcut := h.cut w hn.mem
  refine entry_of_bytes (Entry.sized_of_entryFits (h.takes w hn.mem)).1 ?_ ?_
  · rw [← hn.off]
    exact Nat.le_trans hcut.le_stop (h.stop_le w.side)
  · rw [← hn.off]
    exact h.intact w hn.mem (hn.stands h hlive)

theorem Holds.entry (h : s.Laid) (hh : s.Holds hash b i w) :
    s.entry (s.slots b i) = some w.entry :=
  hh.names.entry h hh.live

theorem Sound.holds_of_live (h : s.Sound hash) (hlive : s.live (s.slots b i) = true) :
    ∃ w, s.Holds hash b i w := by
  obtain ⟨w, hn⟩ := h.named b i (gen_ne_zero_of_live hlive)
  exact ⟨w, hn, hlive⟩

/-! ## Slots that fade -/

/-- A slot was forgotten, or what it points at is the same. -/
def Fades (slot slot' : Slot) : Prop :=
  slot' = .never ∨ slot'.off = slot.off ∧ slot'.gen = slot.gen ∧ slot'.fp = slot.fp

theorem Fades.refl : Fades slot slot := .inr ⟨rfl, rfl, rfl⟩

theorem Names.congr (hn : s.Names hash b slot w) {slot' : Slot} (hoff : slot'.off = slot.off)
    (hgen : slot'.gen = slot.gen) (hfp : slot'.fp = slot.fp) : s.Names hash b slot' w :=
  ⟨hn.mem, hn.off.trans hoff.symm, hn.gen.trans hgen.symm, hn.recent, hfp ▸ hn.home⟩

theorem live_congr (s : Shard n) {slot' : Slot} (hoff : slot'.off = slot.off)
    (hgen : slot'.gen = slot.gen) : s.live slot' = s.live slot := by
  rw [live, live, liveAt, liveAt, hoff, hgen]

theorem Holds.of_fades {slots : Fin n → Fin ways → Slot} (hf : Fades (s.slots b i) (slots b i))
    (hh : { s with slots := slots }.Holds hash b i w) : s.Holds hash b i w := by
  have hn : s.Names hash b (slots b i) w :=
    ⟨hh.names.mem, hh.names.off, hh.names.gen, hh.names.recent, hh.names.home⟩
  have hlive : s.live (slots b i) = true := hh.live
  rcases hf with hnever | ⟨hoff, hgen, hfp⟩
  · rw [hnever, live_never] at hlive
    cases hlive
  · exact ⟨hn.congr hoff.symm hgen.symm hfp.symm, (live_congr s hoff hgen) ▸ hlive⟩

theorem Sound.fade (h : s.Sound hash) {slots : Fin n → Fin ways → Slot}
    (hf : ∀ b i, Fades (s.slots b i) (slots b i)) : { s with slots := slots }.Sound hash where
  laid := h.laid.of_slots slots
  named b i hgen := by
    rcases hf b i with hnever | ⟨hoff, hgen', hfp⟩
    · exact absurd (congrArg Slot.gen hnever) hgen
    · obtain ⟨w, hn⟩ := h.named b i (hgen' ▸ hgen)
      have hn := hn.congr hoff hgen' hfp
      exact ⟨w, hn.mem, hn.off, hn.gen, hn.recent, hn.home⟩
  single b i w i' w' hh hh' :=
    h.single b i w i' w' (hh.of_fades (hf b i)) (hh'.of_fades (hf b i'))

/-! ## A copy into the ring -/

section Place

variable {into : Side} {bytes : Bytes}

theorem lap_reserved (s : Shard n) (into : Side) (total : Nat) :
    (s.reserved into total).lap = (s.region into).lap ∨
      (s.reserved into total).lap = (s.region into).lap + 1 :=
  Region.lap_reserve _ total

theorem lap_place_le (s : Shard n) (into side : Side) (e : Entry) (bytes : Bytes) :
    (s.region side).lap ≤ ((s.place into e bytes).1.region side).lap := by
  rw [region_place]
  split_ifs with hside
  · rw [hside]
    have hlap := lap_reserved s into e.size
    omega
  · exact Nat.le_refl _

/-- A slot that a sweep leaves is recent still. -/
theorem Names.place (h : s.Laid) (hfits : (s.region into).start + e.size ≤ (s.region into).stop)
    (hn : s.Names hash b slot w)
    (hkept : ¬ (((s.region into).reserve e.size).1.sweepDue = true ∧
      stale (s.reserved into e.size) slot = true)) :
    (s.place into e bytes).1.Names hash b slot w := by
  refine ⟨?_, hn.off, hn.gen, ?_, hn.home⟩
  · rw [place_log]
    exact List.mem_cons_of_mem _ hn.mem
  · rw [region_place]
    split_ifs with hside
    · have hroom := h.room hfits
      have hle := hn.lap_le h
      have hnear := hn.near
      have hrecent := hn.recent
      rw [hside] at hle hnear hrecent
      obtain hsame | hnext := lap_reserved s into e.size
      · rw [hsame]
        exact hrecent
      · rw [hnext]
        by_cases hsweeps : Sweeps ((s.region into).lap + 1)
        · -- The sweep ran and left the slot: the pass before is as far back as it leaves one.
          have hdue := (Region.sweepDue_reserve (h.steady into) e.size).2 ⟨hnext, hsweeps⟩
          have hgen : (s.reserved into e.size).cursor.gen = genOf ((s.region into).lap + 1) := by
            rw [hroom.steady.gen, hnext]
          have hsucc := genOf_succ_iff (Nat.le_succ_of_le hle) hnear
          have hcut := h.cut w hn.mem
          have hholds : (s.reserved into e.size).holds slot.off = true := by
            have hstart : (s.region w.side).start ≤ w.off := hcut.start_le
            have hstop : w.off + w.entry.size ≤ (s.region w.side).stop := hcut.le_stop
            have hpos := w.entry.size_pos
            rw [hside] at hstart hstop
            rw [Region.holds, hroom.start, hroom.stop, ← hn.off, decide_eq_true_iff]
            omega
          have hlapgen : w.lap + 1 = (s.region into).lap + 1 ∧ genOf ((s.region into).lap + 1) ≠ 1 := by
            by_contra hold
            refine hkept ⟨hdue, decide_eq_true ⟨hn.gen ▸ genOf_ne_zero _, hholds, ?_, ?_⟩⟩
            · rw [hn.liveAt_iff hgen (Nat.le_succ_of_le hle) hnear]
              rintro (⟨heq, -⟩ | ⟨heq, hne, -⟩)
              · omega
              · exact hold ⟨heq, hne⟩
            · rw [ghostAt, decide_eq_true_iff, ← hn.gen, hgen, hsucc]
              exact fun hghost => hold hghost.2.1
          obtain ⟨-, hfloor | hone⟩ := floor_of_sweeps hsweeps
          · omega
          · exact absurd hone hlapgen.2
        · rw [floor_succ hsweeps]
          exact hrecent
    · exact hn.recent

theorem slots_place_of_gen (hgen : ((s.place into e bytes).1.slots b i).gen ≠ 0) :
    (s.place into e bytes).1.slots b i = s.slots b i ∧
      ¬ (((s.region into).reserve e.size).1.sweepDue = true ∧
        stale (s.reserved into e.size) (s.slots b i) = true) := by
  rw [slots_place] at hgen ⊢
  split_ifs at hgen ⊢ with hswept
  · exact absurd rfl hgen
  · exact ⟨rfl, hswept⟩

/-- What the new record says is not said of any slot that is there already. -/
theorem not_names_record (h : s.Laid) (htakes : s.Takes e)
    (hfits : (s.region into).start + e.size ≤ (s.region into).stop) (hbytes : bytes = e.bytes)
    (hn : s.Names hash b slot w) : ¬ (s.place into e bytes).1.Names hash b slot (s.record into e) := by
  intro hnew
  have hlaid := h.place htakes hfits hbytes
  have hmem : w ∈ (s.place into e bytes).1.log := by
    rw [place_log]
    exact List.mem_cons_of_mem _ hn.mem
  have hoff : w.off = (s.record into e).off := hn.off.trans hnew.off.symm
  have hside : w.side = into := by
    rw [← hlaid.sideOf hmem, hoff, hlaid.sideOf hnew.mem]
    rfl
  have hle := hn.lap_le h
  have hnear := hn.near
  rw [hside] at hle hnear
  have hlap := lap_reserved s into e.size
  have hlap' : w.lap = (s.reserved into e.size).lap := by
    refine lap_eq_of_genOf (by omega) (by omega) ?_
    exact hn.gen.trans hnew.gen.symm
  have hstands : (s.place into e bytes).1.Stands w := by
    refine .inl ?_
    rw [region_place, if_pos hside]
    exact hlap'
  have hapart := (h.stands_of_place hfits hn.mem hstands).2
  have hapart : (s.record into e).off + e.size ≤ w.off ∨
    w.off + w.entry.size ≤ (s.record into e).off := hapart
  have hpos := e.size_pos
  have hpos' := w.entry.size_pos
  omega

/-- The slots that are live after a copy: those that were, and that the cursor left. -/
theorem holds_place (h : s.Sound hash) (htakes : s.Takes e)
    (hfits : (s.region into).start + e.size ≤ (s.region into).stop) (hbytes : bytes = e.bytes) :
    (s.place into e bytes).1.Holds hash b i w ↔
      s.Holds hash b i w ∧ (s.place into e bytes).1.live (s.slots b i) = true := by
  have hlaid := h.laid.place htakes hfits hbytes
  constructor
  · rintro ⟨hn', hlive'⟩
    have hgen := gen_ne_zero_of_live hlive'
    obtain ⟨hslot, -⟩ := slots_place_of_gen hgen
    rw [hslot] at hn' hlive' hgen
    refine ⟨?_, hlive'⟩
    obtain ⟨w₀, hn₀⟩ := h.named b i hgen
    have hmem : w ∈ s.log := by
      have hmem := hn'.mem
      rw [place_log, List.mem_cons] at hmem
      rcases hmem with rfl | hmem
      · exact absurd hn' (not_names_record h.laid htakes hfits hbytes hn₀)
      · exact hmem
    have hn : s.Names hash b (s.slots b i) w :=
      ⟨hmem, hn'.off, hn'.gen,
        Nat.le_trans (floor_mono (lap_place_le s into w.side e bytes)) hn'.recent, hn'.home⟩
    refine ⟨hn, (live_iff h.laid hn).2 ?_⟩
    have hcut := (h.laid.cut w hmem)
    have hle := hn.lap_le h.laid
    obtain hlap | ⟨hlap, hone, hhead⟩ := (live_iff hlaid hn').1 hlive'
    · refine .inl (Nat.le_antisymm hle ?_)
      rw [hlap]
      exact lap_place_le s into w.side e bytes
    · rw [region_place] at hlap hone hhead
      split_ifs at hlap hone hhead with hside
      · have hstands : (s.place into e bytes).1.Stands w := by
          refine .inr ?_
          rw [region_place, if_pos hside]
          exact ⟨hlap, hhead⟩
        obtain heq | ⟨heq, hbehind⟩ := (h.laid.stands_of_place hfits hmem hstands).1
        · exact .inl heq
        · refine .inr ⟨heq, ?_, hbehind⟩
          have heq : w.lap + 1 = (s.region w.side).lap := heq
          rwa [← heq, hlap]
      · exact .inr ⟨hlap, hone, hhead⟩
  · rintro ⟨⟨hn, hlive⟩, hlive'⟩
    have hkept : ¬ (((s.region into).reserve e.size).1.sweepDue = true ∧
        stale (s.reserved into e.size) (s.slots b i) = true) := by
      rintro ⟨-, hstale⟩
      obtain ⟨-, hholds, hdead, -⟩ := of_decide_eq_true hstale
      have hroom := h.laid.room hfits
      rw [Region.holds, hroom.start, hroom.stop, decide_eq_true_iff, ← hn.off] at hholds
      have hcut := h.laid.cut w hn.mem
      have hside : w.side = into := by
        by_contra hne
        have hapart := h.laid.apart_of_side (q := ⟨0, w.off, 1⟩) hne ⟨hcut.start_le, hcut.le_stop⟩
          ⟨hholds.1, hholds.2⟩
        have hapart : w.off + w.entry.size ≤ w.off ∨ w.off + 1 ≤ w.off := hapart
        have hpos := w.entry.size_pos
        omega
      have hmem : w ∈ (s.place into e bytes).1.log := by
        rw [place_log]
        exact List.mem_cons_of_mem _ hn.mem
      refine hdead ?_
      rw [live, regionOf, ← hn.off, hlaid.sideOf hmem, region_place, if_pos hside] at hlive'
      exact hlive'
    have hslot : (s.place into e bytes).1.slots b i = s.slots b i := by
      rw [slots_place, if_neg hkept]
    rw [← hslot] at hlive'
    refine ⟨?_, hlive'⟩
    rw [hslot]
    exact hn.place h.laid hfits hkept

theorem Sound.place (h : s.Sound hash) (htakes : s.Takes e)
    (hfits : (s.region into).start + e.size ≤ (s.region into).stop) (hbytes : bytes = e.bytes) :
    (s.place into e bytes).1.Sound hash where
  laid := h.laid.place htakes hfits hbytes
  named b i hgen := by
    obtain ⟨hslot, hkept⟩ := slots_place_of_gen hgen
    rw [hslot] at hgen ⊢
    obtain ⟨w, hn⟩ := h.named b i hgen
    exact ⟨w, hn.place h.laid hfits hkept⟩
  single b i w i' w' hh hh' :=
    h.single b i w i' w' ((holds_place h htakes hfits hbytes).1 hh).1
      ((holds_place h htakes hfits hbytes).1 hh').1

/-- The slot of an entry that was just copied in. -/
theorem record_names (h : s.Laid) (htakes : s.Takes e)
    (hfits : (s.region into).start + e.size ≤ (s.region into).stop) (hbytes : bytes = e.bytes)
    {fp : Nat} (freq : Nat) (hhome : Home hash b fp e) :
    (s.place into e bytes).1.Names hash b
        ⟨(s.place into e bytes).2, ((s.place into e bytes).1.region into).cursor.gen, fp, freq⟩
        (s.record into e) ∧
      (s.place into e bytes).1.live
        ⟨(s.place into e bytes).2, ((s.place into e bytes).1.region into).cursor.gen, fp, freq⟩ =
        true := by
  have hlaid := h.place htakes hfits hbytes
  have hlap : (s.record into e).lap = ((s.place into e bytes).1.region into).lap := by
    rw [region_place, if_pos rfl]
    rfl
  have hnames : (s.place into e bytes).1.Names hash b
      ⟨(s.place into e bytes).2, ((s.place into e bytes).1.region into).cursor.gen, fp, freq⟩
      (s.record into e) := by
    refine ⟨?_, rfl, ?_, ?_, hhome⟩
    · rw [place_log]
      exact List.mem_cons_self
    · rw [hlap]
      exact (hlaid.steady into).gen.symm
    · rw [hlap]
      exact floor_le _
  exact ⟨hnames, (live_iff hlaid hnames).2 (.inl hlap)⟩

end Place

/-! ## A slot that is pointed at an entry -/

theorem slots_setSlot (s : Shard n) (b b' : Fin n) (i i' : Fin ways) (slot : Slot) :
    (s.setSlot b i slot).slots b' i' = if b' = b ∧ i' = i then slot else s.slots b' i' := by
  by_cases hb : b' = b
  · subst hb
    by_cases hi : i' = i
    · subst hi
      simp [setSlot]
    · simp [setSlot, hi]
  · simp [setSlot, hb]

/-- What is live after a slot was set: what it names, and what was live in the other slots. -/
theorem holds_setSlot {b' : Fin n} {i' : Fin ways} :
    (s.setSlot b i slot).Holds hash b' i' w ↔
      if b' = b ∧ i' = i then s.Names hash b slot w ∧ s.live slot = true
      else s.Holds hash b' i' w := by
  have hnames (b' : Fin n) (slot' : Slot) :
      (s.setSlot b i slot).Names hash b' slot' w ↔ s.Names hash b' slot' w :=
    ⟨fun hn => ⟨hn.mem, hn.off, hn.gen, hn.recent, hn.home⟩,
      fun hn => ⟨hn.mem, hn.off, hn.gen, hn.recent, hn.home⟩⟩
  have hholds : (s.setSlot b i slot).Holds hash b' i' w ↔
      s.Names hash b' ((s.setSlot b i slot).slots b' i') w ∧
        s.live ((s.setSlot b i slot).slots b' i') = true :=
    ⟨fun hh => ⟨(hnames _ _).1 hh.names, hh.live⟩, fun hh => ⟨(hnames _ _).2 hh.1, hh.2⟩⟩
  rw [hholds, slots_setSlot]
  split_ifs with hthis
  · rw [hthis.1]
  · exact ⟨fun hh => ⟨hh.1, hh.2⟩, fun hh => ⟨hh.names, hh.live⟩⟩

/-- A slot may be pointed at an entry whose key no other slot holds. -/
theorem Sound.point (h : s.Sound hash) (hnames : s.Names hash b slot w) (hlive : s.live slot = true)
    (halone : ∀ i' w', i' ≠ i → s.Holds hash b i' w' →
      ¬ (w.entry.space = w'.entry.space ∧ w.entry.key = w'.entry.key)) :
    (s.setSlot b i slot).Sound hash where
  laid := h.laid.of_slots _
  named b' i' hgen := by
    have hnamed : ∃ w, s.Names hash b' ((s.setSlot b i slot).slots b' i') w := by
      rw [slots_setSlot] at hgen ⊢
      split_ifs at hgen ⊢ with hthis
      · exact ⟨w, hthis.1 ▸ hnames⟩
      · exact h.named b' i' hgen
    obtain ⟨w', hn⟩ := hnamed
    exact ⟨w', hn.mem, hn.off, hn.gen, hn.recent, hn.home⟩
  single b' i₁ w₁ i₂ w₂ hh₁ hh₂ hspace hkey := by
    have hsame {w' : Written} (hn : s.Names hash b slot w') : w'.entry = w.entry :=
      Option.some.inj ((hn.entry h.laid hlive).symm.trans (hnames.entry h.laid hlive))
    rw [holds_setSlot] at hh₁ hh₂
    split_ifs at hh₁ hh₂ with hthis₁ hthis₂ hthis₂
    · exact hthis₁.2.trans hthis₂.2.symm
    · obtain ⟨rfl, rfl⟩ := hthis₁
      rw [hsame hh₁.1] at hspace hkey
      exact absurd ⟨hspace, hkey⟩ (halone i₂ w₂ (fun hi => hthis₂ ⟨rfl, hi⟩) hh₂)
    · obtain ⟨rfl, rfl⟩ := hthis₂
      rw [hsame hh₂.1] at hspace hkey
      exact absurd ⟨hspace.symm, hkey.symm⟩ (halone i₁ w₁ (fun hi => hthis₁ ⟨rfl, hi⟩) hh₁)
    · exact h.single b' i₁ w₁ i₂ w₂ hh₁ hh₂ hspace hkey

end Shard

end Nilo.Cache
