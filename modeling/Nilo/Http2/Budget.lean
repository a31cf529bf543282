import Nilo.Http2.Windows

/-!
# The budget of held bytes

* `Budgeted` — the counts a connection keeps are those of its streams, and none
  was ever taken below zero.
* `Admitted` — after a pass over what the calls have said, the oldest call that
  waits for room waits because it does not fit and another call will give bytes
  back; the oldest that waits for window, because the budget is full and it is not
  the one whose turn it is.

A pass looks at the table as the budget sees it (`claimants`), and what it does
after it has settled the calls waiting for room does not change that.
-/

namespace Nilo.Http2

open Nilo.Lib
open Nilo.Lib.Prog (Ends)

variable {D : Type} {h : Host} {cd : Codec D} {c : Conn D} {r : Ref}

/-! ## The counts -/

/-- The table as the budget sees it, each stream under its reference. -/
def Conn.stakes (c : Conn D) : List (Ref × Claimant) := c.streams.map fun s => (s.ref, s.claimant)

/-- What a pass leaves alone once the calls waiting for room are settled. -/
structure Conn.Even (c c' : Conn D) : Prop where
  stakes : c'.stakes = c.stakes
  collected : c'.collected = c.collected
  shared : c'.shared = c.shared

theorem Conn.Even.refl (c : Conn D) : c.Even c := ⟨rfl, rfl, rfl⟩

theorem Conn.Even.trans {c₁ c₂ c₃ : Conn D} (h₁ : c₁.Even c₂) (h₂ : c₂.Even c₃) : c₁.Even c₃ :=
  ⟨h₂.stakes.trans h₁.stakes, h₂.collected.trans h₁.collected, h₂.shared.trans h₁.shared⟩

theorem Conn.Even.refs {c c' : Conn D} (he : c.Even c') : c'.refs = c.refs := by
  have := congrArg (List.map Prod.fst) he.stakes
  rwa [Conn.stakes, Conn.stakes, List.map_map, List.map_map] at this

theorem Conn.Even.claimants {c c' : Conn D} (he : c.Even c') : c'.claimants = c.claimants := by
  have := congrArg (List.map Prod.snd) he.stakes
  rwa [Conn.stakes, Conn.stakes, List.map_map, List.map_map] at this

theorem Conn.Even.mod {f : Stream → Stream} (hr : ∀ s, (f s).ref = s.ref)
    (hf : ∀ s, (f s).claimant = s.claimant) : c.Even (c.mod r f) := by
  refine ⟨?_, rfl, rfl⟩
  rw [Conn.stakes, Conn.mod]
  exact map_edit fun s => by rw [hr, hf]

theorem emit_even {f : Sent} : Ends (fun _ => True) c (emit f) fun _ c' =>
    c.Even c' ∧ c'.streams = c.streams := by
  refine .get_bind ?_
  split
  · refine ⟨fun _ _ => trivial, fun _ hok => ?_⟩
    cases hok
  · exact .change ⟨⟨rfl, rfl, rfl⟩, rfl⟩
  · exact .change ⟨⟨rfl, rfl, rfl⟩, rfl⟩

/-! ## Window -/

/-- A stream's window is topped up, and it is still counted as it was. -/
theorem topUp_even : Ends (fun _ => True) c (topUp r) fun _ c' =>
    c.Even c' ∧ c'.streams.map (fun s => (s.ref, s.starved)) =
      c.streams.map fun s => (s.ref, s.starved) := by
  refine .get_bind (.bind emit_even fun _ c₁ ⟨he₁, hst₁⟩ => ?_)
  refine .bind (Q := fun _ c' => c₁.Even c' ∧ c'.streams = c₁.streams)
    (.change ⟨⟨rfl, rfl, rfl⟩, rfl⟩) fun _ c₂ ⟨he₂, hst₂⟩ => ?_
  refine .change ⟨(he₁.trans he₂).trans (.mod (fun _ => rfl) fun _ => rfl), ?_⟩
  have hmap : (c₂.mod r fun s =>
      { s with recvWindow := s.recvWindow + s.unacked, unacked := 0 }).streams.map
        (fun s => (s.ref, s.starved)) = c₂.streams.map fun s => (s.ref, s.starved) :=
    map_edit fun _ => rfl
  rw [hmap, hst₂, hst₁]

/-- The streams under some references are not starved. -/
def Conn.Fed (c : Conn D) (rs : List Ref) : Prop := ∀ s ∈ c.streams, s.ref ∈ rs → s.starved = false

theorem Conn.Fed.of_map {c c' : Conn D} {rs : List Ref} (hc : c.Fed rs)
    (hm : c'.streams.map (fun s => (s.ref, s.starved)) = c.streams.map fun s => (s.ref, s.starved)) :
    c'.Fed rs := by
  intro s hs hr
  have hmem : (s.ref, s.starved) ∈ c.streams.map fun s => (s.ref, s.starved) := by
    rw [← hm]
    exact List.mem_map.2 ⟨s, hs, rfl⟩
  obtain ⟨t, ht, heq⟩ := List.mem_map.1 hmem
  rw [Prod.mk.injEq] at heq
  rw [← heq.2]
  exact hc t ht (heq.1 ▸ hr)

/-- One more stream is fed. -/
theorem Conn.unstarve_fed {rs : List Ref} (hn : c.refs.Nodup) (hc : c.Fed rs) :
    (c.unstarve r).Fed (rs ++ [r]) ∧ c.Even (c.unstarve r) := by
  rw [Conn.unstarve]
  split
  · refine ⟨?_, ?_⟩
    · intro s hs hr
      obtain ⟨t, ht, rfl⟩ := mem_edit.1 hs
      by_cases htr : t.ref = r
      · rw [if_pos htr]
      · rw [if_neg htr] at hr ⊢
        rcases List.mem_append.1 hr with hr | hr
        · exact hc t ht hr
        · exact absurd (List.mem_singleton.1 hr) htr
    · have he : c.Even (c.mod r fun s => { s with starved := false }) :=
        .mod (fun _ => rfl) fun _ => rfl
      exact ⟨he.stakes, he.collected, he.shared⟩
  · rename_i hno
    refine ⟨fun s hs hr => ?_, .refl c⟩
    rcases List.mem_append.1 hr with hr | hr
    · exact hc s hs hr
    · rw [Conn.eq_get hn hs (List.mem_singleton.1 hr)]
      exact Bool.eq_false_iff.2 hno

/-- The oldest call that waits for window is not allowed any. -/
def Conn.WindowDue (h : Host) (c : Conn D) : Prop :=
  ∀ s, c.streams.find? (·.starved) = some s → c.mayGrow h s.ref = false

theorem grantWaitingFrom_due {before rs : List Ref} (hn : c.refs.Nodup) (hrs : c.refs = before ++ rs)
    (hfed : c.Fed before) :
    Ends (fun _ => True) c (grantWaitingFrom h rs) fun _ c' => c.Even c' ∧ c'.WindowDue h := by
  induction rs generalizing c before with
  | nil =>
    refine .pure ⟨.refl c, fun s hs => ?_⟩
    have hmem := List.mem_of_find?_eq_some hs
    have hr : s.ref ∈ before := by
      rw [List.append_nil] at hrs
      rw [← hrs]
      exact List.mem_map_of_mem hmem
    have := List.find?_some hs
    rw [hfed s hmem hr] at this
    cases this
  | cons r rest ih =>
    have hnext (c' : Conn D) (he : c.Even c') (hfed' : c'.Fed (before ++ [r])) :
        Ends (fun _ => True) c' (grantWaitingFrom h rest) fun _ c'' =>
          c.Even c'' ∧ c''.WindowDue h := by
      refine (ih ?_ ?_ hfed').weaken fun _ _ hk => ⟨he.trans hk.1, hk.2⟩
      · rwa [he.refs]
      · rw [he.refs, hrs, List.append_assoc, List.singleton_append]
    refine .get_bind (.ite (fun hno => ?_) fun hyes => .get_bind (.ite (fun hfull => ?_) fun _ => ?_))
    · refine hnext c (.refl c) fun s hs hr => ?_
      rcases List.mem_append.1 hr with hr | hr
      · exact hfed s hs hr
      · rw [Conn.eq_get hn hs (List.mem_singleton.1 hr)]
        simpa using hno
    · -- the first that is starved, and everyone before it is fed
      refine .pure ⟨.refl c, fun s hs => ?_⟩
      obtain ⟨as, bs, hst, has, hbs⟩ := List.map_eq_append_iff.1 hrs
      obtain ⟨t, cs, rfl, htr, -⟩ := List.map_eq_cons_iff.1 hbs
      have hnone : as.find? (·.starved) = none := by
        refine List.find?_eq_none.2 fun a ha => ?_
        rw [hfed a (hst ▸ List.mem_append_left _ ha) (has ▸ List.mem_map_of_mem ha)]
        nofun
      have ht : t.starved = true := by
        have hmem : t ∈ c.streams := hst ▸ List.mem_append_right _ List.mem_cons_self
        rw [Conn.eq_get hn hmem htr]
        simpa using hyes
      rw [hst, List.find?_append, hnone, List.find?_cons_of_pos (by exact ht)] at hs
      obtain rfl : t = s := Option.some.inj hs
      rw [htr]
      simpa using hfull
    · refine .bind topUp_even fun _ c₁ ⟨he₁, hmap₁⟩ => ?_
      obtain ⟨hfed₂, he₂⟩ := Conn.unstarve_fed (r := r) (he₁.refs ▸ hn) (hfed.of_map hmap₁)
      refine .bind (Q := fun _ c' => c' = c₁.unstarve r) (.change rfl) fun _ c₂ hc₂ => ?_
      rw [hc₂]
      exact hnext _ (he₁.trans he₂) hfed₂

theorem grantWaiting_due (hn : c.refs.Nodup) (hstarved : c.starved = c.streams.countP (·.starved)) :
    Ends (fun _ => True) c (grantWaiting h) fun _ c' => c.Even c' ∧ c'.WindowDue h := by
  refine .get_bind (.ite (fun hzero => .pure ⟨.refl c, fun s hs => ?_⟩) fun _ => .get_bind ?_)
  · rw [hzero] at hstarved
    have := List.countP_eq_zero.1 hstarved.symm s (List.mem_of_find?_eq_some hs)
    exact absurd (List.find?_some hs) this
  · exact grantWaitingFrom_due hn (List.nil_append _).symm fun _ _ hr => absurd hr List.not_mem_nil

/-! ## Room -/

/-- The oldest call that waits for room does not fit, and a started call that waits for none
still holds bytes. -/
def Conn.RoomDue (h : Host) (c : Conn D) : Prop :=
  ∀ x, c.claimants.find? (·.waits) = some x →
    (∃ y ∈ c.claimants, y.holds = true ∧ y.wants = 0) ∧
      Conn.budget h - (c.collected - x.held) < x.wants

theorem Conn.Even.roomDue {c c' : Conn D} (he : c.Even c') (hc : c.RoomDue h) : c'.RoomDue h := by
  rw [Conn.RoomDue, he.claimants, he.collected]
  exact hc

/-- What admissions leave alone. -/
structure Conn.Roomed (c c' : Conn D) : Prop where
  refs : c'.refs = c.refs
  hungry : c'.streams.map (·.starved) = c.streams.map (·.starved)
  starved : c'.starved = c.starved
  shared : c'.shared = c.shared

theorem Conn.Roomed.refl (c : Conn D) : c.Roomed c := ⟨rfl, rfl, rfl, rfl⟩

theorem Conn.Roomed.trans {c₁ c₂ c₃ : Conn D} (h₁ : c₁.Roomed c₂) (h₂ : c₂.Roomed c₃) :
    c₁.Roomed c₃ :=
  ⟨h₂.refs.trans h₁.refs, h₂.hungry.trans h₁.hungry, h₂.starved.trans h₁.starved,
    h₂.shared.trans h₁.shared⟩

theorem Conn.Roomed.mod {f : Stream → Stream} (hr : ∀ s, (f s).ref = s.ref)
    (hf : ∀ s, (f s).starved = s.starved) : c.Roomed (c.mod r f) :=
  ⟨Conn.refs_mod hr, map_edit hf, rfl, rfl⟩

theorem Conn.Roomed.hold {n : Nat} : c.Roomed (c.hold r n) := by
  have hmod : c.Roomed (c.mod r fun s => { s with held := s.held + n }) :=
    .mod (fun _ => rfl) fun _ => rfl
  exact ⟨hmod.refs, hmod.hungry, rfl, rfl⟩

/-- A call that is given room waits no more, and nobody else begins to. -/
theorem Conn.granted_waits {s : Stream} {room : Nat} {f : Stream → Stream} (hn : c.refs.Nodup)
    (hs : s ∈ c.streams) (hwait : s.claimant.waits = true) (hdone : (f s).claimant.waits = false) :
    ((c.mod s.ref f).hold s.ref room).claimants.countP (·.waits) <
      c.claimants.countP (·.waits) := by
  have hsum := sum_edit (w := fun s : Stream => s.claimant.waits.toNat) (f := f) hn hs rfl
  rw [hwait, hdone] at hsum
  have hheld : ((c.mod s.ref f).hold s.ref room).streams.map
      (fun s : Stream => s.claimant.waits.toNat) =
      (edit (·.ref) s.ref f c.streams).map fun s : Stream => s.claimant.waits.toNat :=
    map_edit fun _ => rfl
  rw [Conn.claimants, Conn.claimants, List.countP_map, List.countP_map, countP_eq_sum,
    countP_eq_sum]
  show (List.map (fun s : Stream => s.claimant.waits.toNat) _).sum <
    (c.streams.map fun s : Stream => s.claimant.waits.toNat).sum
  rw [hheld]
  simp only [Bool.toNat_true, Bool.toNat_false] at hsum
  omega

theorem admitReservationsFrom_due {fuel started : Nat} (hn : c.refs.Nodup)
    (hfuel : c.claimants.countP (·.waits) < fuel) :
    Ends (fun _ => True) c (admitReservationsFrom h fuel started) fun _ c' =>
      c.Roomed c' ∧ c'.RoomDue h := by
  induction fuel generalizing c started with
  | zero => cases hfuel
  | succ fuel ih =>
    refine .get_bind ?_
    split
    · rename_i hnone
      refine .bind (Q := fun _ c' => c.Roomed c' ∧ c'.RoomDue h)
        (.change ⟨⟨rfl, rfl, rfl, rfl⟩, fun x hx => ?_⟩) fun _ _ hk => .pure hk
      have hx : c.claimants.find? (·.waits) = some x := hx
      rw [Conn.claimants, List.find?_map] at hx
      have hnone : c.streams.find? ((·.waits) ∘ Stream.claimant) = none := hnone
      rw [hnone] at hx
      cases hx
    · rename_i s hs
      have hmem := List.mem_of_find?_eq_some hs
      have hget : c.get s.ref = s := (Conn.eq_get hn hmem rfl).symm
      have hwait : s.phase = .running ∧ s.inbox.wanted ≠ 0 := by
        simpa using List.find?_some hs
      obtain ⟨hok, hgrant⟩ := Inbox.grant_wanted hwait.2
      refine .ite (fun hfull => ?_) fun _ => .ite (fun _ => ?_) fun hno => absurd hok hno
      · rw [Bool.and_eq_true, decide_eq_true_eq, Conn.startedHolds, List.any_eq_true] at hfull
        obtain ⟨hlt, t, ht, hholds⟩ := hfull
        rw [Bool.and_eq_true, beq_iff_eq] at hholds
        refine .pure ⟨.refl c, fun x hx => ?_⟩
        obtain rfl : s.claimant = x := Option.some.inj ((Conn.find_waits hs).symm.trans hx)
        refine ⟨⟨t.claimant, List.mem_map_of_mem ht, hholds.1, hholds.2⟩, ?_⟩
        rw [Conn.budgetLeft, hget] at hlt
        exact hlt
      · refine .bind (Q := fun _ c' => c'.streams = c.streams ∧ c.Roomed c')
          (.change ⟨rfl, ⟨rfl, rfl, rfl, rfl⟩⟩) fun _ c₁ hc₁ => ?_
        obtain ⟨hst, hk₁⟩ := hc₁
        have hn₁ : c₁.refs.Nodup := hk₁.refs ▸ hn
        have hmem₁ : s ∈ c₁.streams := hst ▸ hmem
        -- the call's pipe is granted what it asked for
        have hmod : (c₁.mod s.ref fun t => { t with inbox := (t.inbox.grant s.inbox.wanted).2 }) =
            c₁.mod s.ref fun t => { t with inbox := { t.inbox with granted := true } } := by
          rw [Conn.mod, Conn.mod]
          congr 1
          refine edit_congr fun t ht htr => ?_
          rw [eq_of_key hn₁ ht hmem₁ htr, hgrant]
        refine .bind (Q := fun _ c' => c' = c₁.mod s.ref fun t =>
          { t with inbox := { t.inbox with granted := true } }) (.change hmod) fun _ c₂ hc₂ => ?_
        rw [hc₂]
        refine .bind (Q := fun _ c' => c' = (c₁.mod s.ref fun t =>
          { t with inbox := { t.inbox with granted := true } }).hold s.ref s.inbox.wanted)
          (.change rfl) fun _ c₃ hc₃ => ?_
        have hcl : c₁.claimants = c.claimants := by rw [Conn.claimants, hst, Conn.claimants]
        have hlt : c₃.claimants.countP (·.waits) < c.claimants.countP (·.waits) := by
          rw [hc₃, ← hcl]
          refine Conn.granted_waits hn₁ hmem₁ ?_ ?_
          · rw [Claimant.waits, Bool.and_eq_true]
            exact ⟨beq_iff_eq.2 hwait.1, bne_iff_ne.2 hwait.2⟩
          · simp [Claimant.waits, Stream.claimant, Inbox.wanted]
        have hk₃ : c₁.Roomed c₃ := by
          rw [hc₃]
          refine Conn.Roomed.trans ?_ .hold
          exact .mod (fun _ => rfl) fun _ => rfl
        refine (ih (hk₃.refs ▸ hn₁) (by omega)).weaken fun _ _ hk => ?_
        exact ⟨(hk₁.trans hk₃).trans hk.1, hk.2⟩

/-! ## The pass -/

/-- What a pass leaves of the calls that wait. -/
structure Admitted (h : Host) (c : Conn D) : Prop where
  room : c.RoomDue h
  window : c.WindowDue h

/-- A call that waits for room has been heard: `reserving` is up. -/
def Conn.Hears (c : Conn D) : Prop :=
  c.shared.attention = false → c.reserving = false → c.claimants.find? (·.waits) = none

theorem admitReserving_due (hn : c.refs.Nodup) (hh : c.Hears) :
    Ends (fun _ => True) c (admitReserving h) fun _ c' =>
      c.Roomed c' ∧ (c.shared.attention = false → c'.RoomDue h) := by
  refine .get_bind (.ite (fun _ => .get_bind ?_) fun hno => .pure ⟨.refl c, fun hoff x hx => ?_⟩)
  · refine (admitReservationsFrom_due hn ?_).weaken fun _ _ hk => ⟨hk.1, fun _ => hk.2⟩
    refine Nat.lt_succ_of_le (List.countP_le_length.trans ?_)
    rw [Conn.claimants, List.length_map]
  · rw [hh hoff (Bool.eq_false_iff.2 hno)] at hx
    cases hx

theorem admitCalls_due (hn : c.refs.Nodup) (hh : c.Hears)
    (hstarved : c.starved = c.streams.countP (·.starved)) :
    Ends (fun _ => True) c (admitCalls h) fun _ c' =>
      c'.shared = c.shared ∧ (c.shared.attention = false → Admitted h c') := by
  refine .bind (Q := fun _ c' => c'.shared = c.shared ∧
    (c.shared.attention = false → Admitted h c')) ?_ fun _ _ hk => .pure hk
  refine .bind (admitReserving_due hn hh) fun _ c₁ ⟨hk₁, hroom⟩ => ?_
  have hstarved₁ : c₁.starved = c₁.streams.countP (·.starved) := by
    have hmap := congrArg (List.countP id) hk₁.hungry
    rw [List.countP_map, List.countP_map] at hmap
    exact hk₁.starved.trans (hstarved.trans hmap.symm)
  refine .bind (grantWaiting_due (hk₁.refs ▸ hn) hstarved₁) fun _ c₂ ⟨he₂, hwin⟩ => .pure ?_
  exact ⟨he₂.shared.trans hk₁.shared, fun hoff => ⟨he₂.roomDue (hroom hoff), hwin⟩⟩

/-! ## What the calls have said -/

/-- The calls have nothing more to say. -/
abbrev Conn.Still (c : Conn D) : Prop := c.shared.attention = false

theorem emitAll_still {fs : List Sent} (hc : c.Still) :
    Ends (fun _ => True) c (emitAll fs) fun _ c' => c'.Still := by
  induction fs generalizing c with
  | nil => exact .pure hc
  | cons f rest ih =>
    refine .bind emit_even fun _ c₁ ⟨he, _⟩ => ih ?_
    rw [Conn.Still, he.shared]
    exact hc

theorem credit_still {n : Nat} (hc : c.Still) :
    Ends (fun _ => True) c (credit h r n) fun _ c' => c'.Still := by
  refine .bind (Q := fun _ c' => c'.Still) (.change hc) fun _ c₁ hc₁ => ?_
  refine .get_bind (.when (fun _ => .get_bind (.ite (fun _ => ?_) fun _ => ?_)) fun _ => hc₁)
  · refine topUp_even.weaken fun _ c₂ hk => ?_
    rw [Conn.Still, hk.1.shared]
    exact hc₁
  · exact .get_bind (.when (fun _ => .change hc₁) fun _ => hc₁)

theorem serviceOne_still (hc : c.Still) :
    Ends (fun _ => True) c (serviceOne h r) fun _ c' => c'.Still := by
  refine .get_bind (.ite (fun _ => .pure hc) fun _ => ?_)
  refine .bind (Q := fun _ c' => c'.Still) (.change hc) fun _ c₁ hc₁ => ?_
  refine .bind (Q := fun _ c' => c'.Still) (.when (fun _ => .change hc₁) fun _ => hc₁)
    fun _ c₂ hc₂ => ?_
  refine .bind (Q := fun _ c' => c'.Still) (.when (fun _ => credit_still hc₂) fun _ => hc₂)
    fun _ c₃ hc₃ => ?_
  refine .bind (Q := fun _ c' => c'.Still)
    (.when (fun _ => .get_bind (emitAll_still hc₃)) fun _ => hc₃) fun _ c₄ hc₄ => ?_
  exact .when (fun _ => .change hc₄) fun _ => hc₄

theorem serviceFrom_still {rs : List Ref} (hc : c.Still) :
    Ends (fun _ => True) c (serviceFrom h rs) fun _ c' => c'.Still := by
  induction rs generalizing c with
  | nil => exact .pure hc
  | cons r rest ih => exact .bind (serviceOne_still hc) fun _ _ hc₁ => ih hc₁

theorem service_still : Ends (fun _ => True) c (service h) fun _ c' => c'.Still := by
  refine .get_bind (.when (fun _ => ?_) fun hno => Bool.eq_false_iff.2 hno)
  refine .bind (Q := fun _ c' => c'.Still) (.change rfl) fun _ c₁ hc₁ => ?_
  exact .get_bind (serviceFrom_still hc₁)

/-! ## Passes of a run -/

/-- A pass over what the calls wait for, when they have nothing more to say: after a frame,
or on its own. -/
def Act.Pass (c : Conn D) : Act → Prop
  | .frame _ => True
  | .admitCalls => c.Still
  | _ => False

theorem Rest.hears (hk : Rest cd c.core) : c.Hears := by
  intro hoff hres
  rw [Conn.claimants, List.find?_map, List.find?_eq_none.2]
  · rfl
  intro s hmem hwait
  have hwait : s.phase = .running ∧ s.inbox.wanted ≠ 0 := by
    simpa [Claimant.waits, Stream.claimant] using hwait
  rcases hk.heard s.ref s.line (List.mem_map_of_mem hmem) rfl hwait.1 hwait.2 with hup | hup | hno
  · exact absurd (hoff.symm.trans hup) (by rintro ⟨⟩)
  · exact absurd (hres.symm.trans hup) (by rintro ⟨⟩)
  · exact hno

theorem BudgetOk.starved_eq (hb : BudgetOk c.core) : c.starved = c.streams.countP (·.starved) := by
  refine hb.starved.trans ?_
  rw [Conn.core, List.countP_map]
  rfl

/-- A frame is followed by a pass. -/
theorem readFrame_admits {f : Frame} {nice home : Prop} (hs : Sound h cd nice home c)
    (hread : c.reading = true) :
    Ends (fun _ => True) c (readFrame h cd f) fun _ c' => Admitted h c' := by
  have hone : (reader D (Conn.budget h) nice home).Goes c (readOne h cd f) _ :=
    readOne_goes (hs.rest hread) hread hs.home
  refine .bind (hone.ends hs.good) fun _ c₁ ⟨hk₁, hg₁⟩ => ?_
  have hserve : (hearing D (Conn.budget h) nice).Goes c₁ (service h) _ := service_goes cd
  refine .bind ((hserve.ends hg₁).and service_still) fun _ c₂ ⟨⟨hk₂, hg₂⟩, hstill⟩ => ?_
  have hg₂ : Good (Conn.budget h) nice c₂.core := hg₂
  refine (admitCalls_due hg₂.refs_nodup (hk₂.2 hk₁.rest).hears hg₂.budget.starved_eq).weaken ?_
  exact fun _ _ hk => hk.2 hstill

theorem Conn.sendAway_shut {e : Stop} (hc : c.reading = false) : (c.sendAway e).reading = false := by
  rw [Conn.sendAway]
  split
  · exact hc
  · rename_i code _
    rcases goaway_run (c := c) (e := code) with ⟨-, heq⟩ | ⟨-, ⟨c', heq, hcore⟩ | heq⟩
    · rw [Prog.exec, heq]
      exact hc
    · rw [Prog.exec, heq]
      exact (congrArg (·.reading) hcore).trans hc
    · rw [Prog.exec, heq]

theorem step_admits {op : Op} (hs : Sound h cd False False c) (hen : op.act.enabled c)
    (hpass : op.act.Pass c) (hon : (step h cd op c).reading = true) : Admitted h (step h cd op c) := by
  have hs' : Sound h cd False False ({ c with env := op.env } : Conn D) :=
    ⟨hs.good, hs.rest, hs.home⟩
  have hen' : op.act.enabled ({ c with env := op.env } : Conn D) := by
    cases hact : op.act <;> rw [hact] at hen <;> exact hen
  have hlands : Lands h cd False False _ (op.act.run h cd) := hs'.act hen' False.elim False.elim
  have hends : Ends (fun _ => True) ({ c with env := op.env } : Conn D) (op.act.run h cd)
      fun _ c' => c'.reading = true → Admitted h c' := by
    cases hact : op.act with
    | frame f =>
      rw [hact] at hen'
      exact (readFrame_admits hs' hen').weaken fun _ _ hk _ => hk
    | admitCalls =>
      rw [hact] at hpass
      have hcalm : (calm D (Conn.budget h) False).Goes ({ c with env := op.env } : Conn D)
          (admitCalls h) _ := admitCalls_goes
      by_cases hread : c.reading = true
      · refine (admitCalls_due hs'.good.refs_nodup (hs'.rest hread).hears
          hs'.good.budget.starved_eq).weaken fun _ _ hk _ => ?_
        exact hk.2 hpass
      · refine ⟨fun _ _ => trivial, fun _ _ hread' => ?_⟩
        have hoff := hcalm.along (P := fun k => k.reading = false) hs'.good
          (fun move _ hk => Bool.eq_false_iff.2 fun hr =>
            absurd (hk.symm.trans (move.reading hr)) (by rintro ⟨⟩)) (Bool.eq_false_iff.2 hread)
        exact absurd (hoff.symm.trans hread') (by rintro ⟨⟩)
    | _ =>
      rw [hact] at hpass
      exact hpass.elim
  rw [step] at hon ⊢
  rcases hres : op.act.run h cd { c with env := op.env } with ⟨e | a, c'⟩
  · rw [hres] at hon
    have hoff := hlands.stopped e (by rw [hres])
    rw [hres] at hoff
    exact absurd ((Conn.sendAway_shut hoff).symm.trans hon) (by rintro ⟨⟩)
  · rw [hres] at hon
    have hadm := hends.2 a (by rw [hres])
    rw [hres] at hadm
    exact hadm hon

/-- Window and room go to whom the budget allows, and no call that is next waits without a
cause. -/
theorem reachable_admits (hrun : Reachable h cd c) :
    GrantsKept (Conn.budget h) c.trace ∧
      ∀ op : Op, op.act.enabled c → op.act.Pass c → (step h cd op c).reading = true →
        Admitted h (step h cd op c) :=
  ⟨hrun.sound.good.grants, fun _ hen hpass hon => step_admits hrun.sound hen hpass hon⟩

/-- A call with one byte unread, and one with a whole message of one byte that asks for the room
a copy of it takes: all that the other leaves. -/
def roomForCopy : List Act :=
  [.frame ⟨.headers, Flags.endHeaders, 1, [0x83, 0x84, 0x86]⟩, .runnerBegins,
    .frame ⟨.data, 0, 1, [7]⟩, .frame ⟨.headers, Flags.endHeaders, 3, [0x83, 0x84, 0x86]⟩,
    .frame ⟨.data, Flags.endStream, 3, [7]⟩, .call 1 .whole, .call 1 (.reserve 65534), .service,
    .admitCalls]

theorem roomForCopy_allowed : Reachable sampleHost sampleCodec (sampleAfter roomForCopy) := by
  refine .steps (.opened 0 0 none) ?_
  decide +kernel

theorem reachable_admits_roomForCopy :
    GrantsKept 65535 (sampleAfter roomForCopy).trace ∧
      (sampleAfter roomForCopy).streams.map (fun s => (s.id, s.held)) = [(1, 1), (3, 65535)] :=
  ⟨(reachable_admits roomForCopy_allowed).1, by decide +kernel⟩

/-- What a call holds already is not held against the room it asks for: the bytes held can be
past the budget when no call was let past it. -/
theorem collected_past_budget :
    ¬∀ c, Reachable sampleHost sampleCodec c → Conn.budget sampleHost < c.collected →
      ∃ id room table, .admitted id room table ∈ c.trace ∧
        ∀ y ∈ table, y.holds = true → y.wants ≠ 0 := by
  intro hall
  obtain ⟨id, room, table, hmem, hlet⟩ := hall _ roomForCopy_allowed (by decide +kernel)
  have hheld : ((sampleAfter roomForCopy).trace.all fun e => match e with
      | .admitted _ _ table => table.any fun y => y.holds && y.wants == 0
      | _ => true) = true := by
    decide +kernel
  have hany : (table.any fun y => y.holds && y.wants == 0) = true :=
    List.all_eq_true.1 hheld _ hmem
  obtain ⟨y, hy, hholds⟩ := List.any_eq_true.1 hany
  rw [Bool.and_eq_true, beq_iff_eq] at hholds
  exact hlet y hy hholds.1 hholds.2

end Nilo.Http2
