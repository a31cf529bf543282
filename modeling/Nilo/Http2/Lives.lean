import Nilo.Http2.Core

/-!
# The table and the queues

Two invariants that accounting cannot touch, because they are about the standing
of the streams and the bearing of the connection alone:

* `TableOk` — every stream has a reference of its own, spares are nobody's, and
  the table is in the order of the stream ids.
* `QueuesOk` — a call in a queue is running and is in one place of one queue; a
  call held back is in none; one request at most is without its headers, and no
  more than `maxStreams` have theirs.
-/

namespace Nilo.Http2

open Nilo.Lib

variable {D : Type} {B : Nat} {nice : Prop}

/-! ## What accounting leaves alone -/

theorem Calm.bearing {k k' : Core D} (h : Calm B k k') : k'.toBearing = k.toBearing := by
  cases h <;> rfl

theorem Calm.standings {k k' : Core D} (h : Calm B k k') : k'.standings = k.standings := by
  have keeps (r : Ref) (f : Line → Line) (hf : ∀ l, (f l).toStanding = l.toStanding) :
      (Lib.edit (·.ref) r f k.lines).map (·.toStanding) = k.standings := map_edit hf
  cases h
  case settled p =>
    simp only [Core.standings, List.map_map]
    refine List.map_congr_left ?_
    intro l _
    dsimp only [Function.comp_apply]
    split <;> rfl
  all_goals first
    | rfl
    | exact keeps _ _ fun _ => rfl

theorem Taking.bearing {k k' : Core D} (h : Taking B k k') : k'.toBearing = k.toBearing := by
  cases h with
  | calm h => exact h.bearing
  | _ => rfl

theorem Taking.standings {k k' : Core D} (h : Taking B k k') : k'.standings = k.standings := by
  cases h with
  | calm h => exact h.standings
  | _ => exact map_edit fun _ => rfl

/-- The standings after a change that is one of standings. -/
theorem Core.standings_edit {k : Core D} {r : Ref} {f : Line → Line} {g : Standing → Standing}
    (h : ∀ l, (f l).toStanding = g l.toStanding) :
    (k.edit r f).standings = Lib.edit (·.ref) r g k.standings :=
  map_edit_comm (fun _ => rfl) fun l _ _ => h l

theorem Core.standings_refs {k : Core D} : k.standings.map (·.ref) = k.refs := by
  simp [Core.standings, Core.refs, Function.comp_def]

/-- What is said of the line under a reference, said of its standing. -/
theorem Core.On.standing {k : Core D} {r : Ref} {P : Standing → Prop}
    (h : k.On r fun l => P l.toStanding) : ∀ s ∈ k.standings, s.ref = r → P s := by
  intro s hs hr
  obtain ⟨l, hl, rfl⟩ := List.mem_map.1 hs
  exact h l hl hr

/-! ## The table -/

structure TableOk (b : Bearing D) (ss : List Standing) : Prop where
  nodup : (ss.map (·.ref)).Nodup
  spareNodup : b.spare.Nodup
  apart : ∀ s ∈ ss, s.ref ∉ b.spare
  below : ∀ s ∈ ss, s.ref < b.nextRef
  spareBelow : ∀ r ∈ b.spare, r < b.nextRef
  ids : ss.Pairwise fun s t => s.id < t.id
  last : ∀ s ∈ ss, s.id ≤ b.lastStream

namespace TableOk

variable {b : Bearing D} {ss : List Standing}

theorem edit (h : TableOk b ss) {r : Ref} {g : Standing → Standing}
    (hr : ∀ s, (g s).ref = s.ref) (hi : ∀ s, (g s).id = s.id) :
    TableOk b (Lib.edit (·.ref) r g ss) where
  nodup := by
    rw [map_edit hr]
    exact h.nodup
  spareNodup := h.spareNodup
  apart := forall_mem_edit h.apart fun s _ _ hs => by rwa [hr]
  below := forall_mem_edit h.below fun s _ _ hs => by rwa [hr]
  spareBelow := h.spareBelow
  ids := by
    have hsame : (Lib.edit (·.ref) r g ss).map (·.id) = ss.map (·.id) := map_edit hi
    refine List.pairwise_map.1 ?_
    rw [hsame]
    exact List.pairwise_map.2 h.ids
  last := forall_mem_edit h.last fun s _ _ hs => by rwa [hi]

theorem leave (h : TableOk b ss) (r : Ref) : TableOk b (ss.filter fun s => s.ref != r) where
  nodup := h.nodup.sublist (List.filter_sublist.map _)
  spareNodup := h.spareNodup
  apart s hs := h.apart s (List.mem_of_mem_filter hs)
  below s hs := h.below s (List.mem_of_mem_filter hs)
  spareBelow := h.spareBelow
  ids := h.ids.sublist List.filter_sublist
  last s hs := h.last s (List.mem_of_mem_filter hs)

/-- A new stream goes last, on a spare reference or on a new one. -/
theorem append (h : TableOk b ss) {s : Standing} {b' : Bearing D}
    (hid : b.lastStream < s.id) (hlast : b'.lastStream = s.id)
    (href : b.spare = s.ref :: b'.spare ∧ b'.nextRef = b.nextRef ∨
      b.spare = b'.spare ∧ s.ref = b.nextRef ∧ b'.nextRef = b.nextRef + 1) :
    TableOk b' (ss ++ [s]) := by
  have hnew : (∀ t ∈ ss, t.ref ≠ s.ref) ∧ s.ref ∉ b'.spare ∧ s.ref < b'.nextRef ∧
      (∀ r ∈ b'.spare, r ∈ b.spare) ∧ b.nextRef ≤ b'.nextRef ∧ b'.spare.Nodup := by
    have hsn := h.spareNodup
    rcases href with ⟨hs, hn⟩ | ⟨hs, hr, hn⟩
    · rw [hs] at hsn
      rw [hn]
      refine ⟨?_, (List.nodup_cons.1 hsn).1, ?_, ?_, le_refl _, (List.nodup_cons.1 hsn).2⟩
      · intro t ht heq
        exact h.apart t ht (by rw [hs, heq]; exact List.mem_cons_self)
      · exact h.spareBelow _ (by rw [hs]; exact List.mem_cons_self)
      · intro r hr
        rw [hs]
        exact List.mem_cons_of_mem _ hr
    · rw [hn, ← hs, hr]
      refine ⟨?_, ?_, Nat.lt_succ_self _, fun r hr => hr, Nat.le_succ _, hsn⟩
      · intro t ht heq
        exact lt_irrefl _ (heq ▸ h.below t ht)
      · exact fun hmem => lt_irrefl _ (h.spareBelow _ hmem)
  obtain ⟨hfresh, hspare, hlt, hsub, hle, hnd⟩ := hnew
  refine ⟨?_, hnd, ?_, ?_, ?_, ?_, ?_⟩
  · rw [List.map_append, List.map_singleton]
    refine List.nodup_append'.2 ⟨h.nodup, List.nodup_singleton _, ?_⟩
    intro r hr hr'
    obtain ⟨t, ht, rfl⟩ := List.mem_map.1 hr
    exact hfresh t ht (List.mem_singleton.1 hr')
  · intro t ht
    rcases List.mem_append.1 ht with ht | ht
    · exact fun hmem => h.apart t ht (hsub _ hmem)
    · rwa [List.mem_singleton.1 ht]
  · intro t ht
    rcases List.mem_append.1 ht with ht | ht
    · exact lt_of_lt_of_le (h.below t ht) hle
    · rwa [List.mem_singleton.1 ht]
  · exact fun r hr => lt_of_lt_of_le (h.spareBelow r (hsub r hr)) hle
  · refine List.pairwise_append.2 ⟨h.ids, List.pairwise_singleton _ _, ?_⟩
    intro t ht u hu
    rw [List.mem_singleton.1 hu]
    exact lt_of_le_of_lt (h.last t ht) hid
  · intro t ht
    rw [hlast]
    rcases List.mem_append.1 ht with ht | ht
    · exact le_of_lt (lt_of_le_of_lt (h.last t ht) hid)
    · rw [List.mem_singleton.1 ht]

end TableOk

/-- The standings after a stream has left. -/
theorem Core.standings_leave {k : Core D} {r : Ref} :
    ((k.lines.filter fun l => l.ref != r).map (·.toStanding)) =
      k.standings.filter fun s => s.ref != r := by
  rw [Core.standings, List.filter_map]
  rfl

theorem Plain.tableOk {k k' : Core D} (h : Plain B nice k k')
    (hk : TableOk k.toBearing k.standings) : TableOk k'.toBearing k'.standings := by
  have edits (r : Ref) (f : Line → Line) (g : Standing → Standing)
      (hg : ∀ l, (f l).toStanding = g l.toStanding) (hr : ∀ s, (g s).ref = s.ref)
      (hi : ∀ s, (g s).id = s.id) : TableOk k.toBearing (k.edit r f).standings := by
    rw [Core.standings_edit hg]
    exact hk.edit hr hi
  cases h with
  | calm h => rwa [h.bearing, h.standings]
  | classify r g o _ =>
    exact edits r _ (fun s => { s with grpc := g, isOpen := o }) (fun _ => rfl) (fun _ => rfl)
      fun _ => rfl
  | launch r _ =>
    exact edits r _ (fun s => { s with phase := .running }) (fun _ => rfl) (fun _ => rfl)
      fun _ => rfl
  | answering r _ _ =>
    exact edits r _ (fun s => { s with phase := .writing }) (fun _ => rfl) (fun _ => rfl)
      fun _ => rfl
  | defer r _ _ =>
    exact edits r _ (fun s => { s with deferred := true }) (fun _ => rfl) (fun _ => rfl)
      fun _ => rfl
  | holdFor r _ _ =>
    exact edits r _ (fun s => { s with holding := true }) (fun _ => rfl) (fun _ => rfl)
      fun _ => rfl
  | undefer r =>
    exact edits r _ (fun s => { s with deferred := false }) (fun _ => rfl) (fun _ => rfl)
      fun _ => rfl
  | unhold r =>
    exact edits r _ (fun s => { s with holding := false }) (fun _ => rfl) (fun _ => rfl)
      fun _ => rfl
  | closeIn r =>
    exact edits r _ (fun s => { s with isOpen := false }) (fun _ => rfl) (fun _ => rfl)
      fun _ => rfl
  | failEvents r _ =>
    exact edits r _ (fun s => { s with evFailed := true }) (fun _ => rfl) (fun _ => rfl)
      fun _ => rfl
  | leave r id why _ _ _ _ =>
    have := hk.leave r
    rw [← Core.standings_leave] at this
    exact ⟨this.1, this.2, this.3, this.4, this.5, this.6, this.7⟩
  | recycle r hr hs hn =>
    refine ⟨hk.nodup, List.nodup_cons.2 ⟨hs, hk.spareNodup⟩, ?_, hk.below, ?_, hk.ids, hk.last⟩
    · intro s hmem
      refine List.not_mem_cons_of_ne_of_not_mem ?_ (hk.apart s hmem)
      rintro rfl
      exact hr (by rw [← Core.standings_refs]; exact List.mem_map_of_mem hmem)
    · intro r' hr'
      rcases List.mem_cons.1 hr' with rfl | hr'
      · exact hn
      · exact hk.spareBelow r' hr'
  | dropSpares =>
    exact ⟨hk.nodup, List.nodup_nil, fun _ _ => List.not_mem_nil, hk.below,
      fun _ h => absurd h List.not_mem_nil, hk.ids, hk.last⟩
  | _ => exact ⟨hk.1, hk.2, hk.3, hk.4, hk.5, hk.6, hk.7⟩

theorem Front.tableOk {k k' : Core D} (h : Front B nice k k')
    (hk : TableOk k.toBearing k.standings) : TableOk k'.toBearing k'.standings := by
  cases h with
  | plain h => exact h.tableOk hk
  | trail r t =>
    rw [Core.standings_edit (g := fun s => { s with trailing := t }) fun _ => rfl]
    exact hk.edit (fun _ => rfl) fun _ => rfl
  | extend r b =>
    rw [Core.standings_edit (g := fun s => { s with block := s.block ++ b }) fun _ => rfl]
    exact hk.edit (fun _ => rfl) fun _ => rfl
  | grew r n _ =>
    have hs : (k.edit r fun l => { l with sendWindow := l.sendWindow + n }).standings =
        k.standings := map_edit fun _ => rfl
    rw [hs]
    exact hk
  | append r id spare nextRef _ hid href =>
    rw [Core.standings, List.map_append]
    exact hk.append (s := (Line.opened r id k.peerWindow).toStanding) hid rfl href
  | shifted v _ _ _ =>
    rw [Core.standings, List.map_map]
    exact ⟨hk.1, hk.2, hk.3, hk.4, hk.5, hk.6, hk.7⟩
  | shiftRefused v w _ _ _ _ =>
    rw [Core.standings, List.map_map]
    exact ⟨hk.1, hk.2, hk.3, hk.4, hk.5, hk.6, hk.7⟩
  | _ => exact ⟨hk.1, hk.2, hk.3, hk.4, hk.5, hk.6, hk.7⟩

theorem Move.tableOk {k k' : Core D} (h : Move B nice k k')
    (hk : TableOk k.toBearing k.standings) : TableOk k'.toBearing k'.standings := by
  cases h with
  | front h => exact h.tableOk hk
  | taking h => rwa [h.bearing, h.standings]

/-! ## The queues -/

structure QueuesOk (b : Bearing D) (ss : List Standing) : Prop where
  nodup : b.queues.Nodup
  running : ∀ r ∈ b.queues, ∃ s ∈ ss, s.ref = r ∧ s.phase = .running
  waiting : ∀ s ∈ ss, (s.deferred = true ∨ s.holding = true) →
    s.phase = .running ∧ s.ref ∉ b.queues
  doomed : ∀ s ∈ ss, s.evFailed = true → s.phase = .writing
  oneOpen : ss.countP (·.phase == .headers) ≤ 1
  cap : ss.countP (·.phase != .headers) ≤ maxStreams

namespace QueuesOk

variable {b : Bearing D} {ss : List Standing}

/-- A change of one stream: a call in a queue stays running, what is held back stays out of the
queues, and a request that gets its headers finds room. -/
theorem edit (h : QueuesOk b ss) {r : Ref} {g : Standing → Standing}
    (hr : ∀ s, (g s).ref = s.ref)
    (hrun : ∀ s ∈ ss, s.ref = r → s.phase = .running → (g s).phase = .running ∨ r ∉ b.queues)
    (hwait : ∀ s ∈ ss, s.ref = r → (g s).deferred = true ∨ (g s).holding = true →
      (g s).phase = .running ∧ r ∉ b.queues)
    (hdoom : ∀ s ∈ ss, s.ref = r → (g s).evFailed = true → (g s).phase = .writing)
    (hopen : ∀ s ∈ ss, s.ref = r → (g s).phase = .headers → s.phase = .headers)
    (hcap : ∀ s ∈ ss, s.ref = r → (g s).phase ≠ .headers →
      s.phase ≠ .headers ∨ ss.length ≤ maxStreams) :
    QueuesOk b (Lib.edit (·.ref) r g ss) where
  nodup := h.nodup
  running := by
    intro q hq
    obtain ⟨s, hs, rfl, hp⟩ := h.running q hq
    refine ⟨_, mem_edit.2 ⟨s, hs, rfl⟩, ?_, ?_⟩
    · split
      · exact hr s
      · rfl
    · split
      · rename_i hsr
        rcases hrun s hs hsr hp with hg | hn
        · exact hg
        · exact absurd (hsr ▸ hq) hn
      · exact hp
  waiting := forall_mem_edit h.waiting fun s hs hsr _ hw => by
    rw [hr, hsr]
    exact hwait s hs hsr hw
  doomed := forall_mem_edit h.doomed fun s hs hsr _ hf => hdoom s hs hsr hf
  oneOpen := by
    refine le_trans (countP_edit_le ?_) h.oneOpen
    intro s hs hsr hp
    rw [beq_iff_eq] at hp ⊢
    exact hopen s hs hsr hp
  cap := by
    by_cases hlen : ss.length ≤ maxStreams
    · refine le_trans List.countP_le_length ?_
      rwa [length_edit]
    · refine le_trans (countP_edit_le ?_) h.cap
      intro s hs hsr hp
      rw [bne_iff_ne] at hp ⊢
      exact (hcap s hs hsr hp).resolve_right hlen

/-- A change that keeps the phase, and holds the call back no more than it was. -/
theorem edit_same (h : QueuesOk b ss) {r : Ref} {g : Standing → Standing}
    (hr : ∀ s, (g s).ref = s.ref) (hp : ∀ s, (g s).phase = s.phase)
    (hd : ∀ s, (g s).deferred = true ∨ (g s).holding = true → s.deferred = true ∨ s.holding = true)
    (he : ∀ s, (g s).evFailed = s.evFailed) : QueuesOk b (Lib.edit (·.ref) r g ss) := by
  refine h.edit hr ?_ ?_ ?_ ?_ ?_
  · exact fun s _ _ hs => .inl ((hp s).trans hs)
  · intro s hs hsr hw
    rw [hp, ← hsr]
    exact h.waiting s hs (hd s hw)
  · intro s hs _ hf
    rw [hp]
    exact h.doomed s hs ((he s) ▸ hf)
  · exact fun s _ _ hs => (hp s) ▸ hs
  · exact fun s _ _ hs => .inl ((hp s) ▸ hs)

/-- A stream that is in no queue leaves. -/
theorem leave (h : QueuesOk b ss) {r : Ref} (hr : r ∉ b.queues) :
    QueuesOk b (ss.filter fun s => s.ref != r) where
  nodup := h.nodup
  running := by
    intro q hq
    obtain ⟨s, hs, rfl, hp⟩ := h.running q hq
    refine ⟨s, List.mem_filter.2 ⟨hs, ?_⟩, rfl, hp⟩
    rw [bne_iff_ne]
    rintro rfl
    exact hr hq
  waiting s hs := h.waiting s (List.mem_of_mem_filter hs)
  doomed s hs := h.doomed s (List.mem_of_mem_filter hs)
  oneOpen := le_trans List.filter_sublist.countP_le h.oneOpen
  cap := le_trans List.filter_sublist.countP_le h.cap

/-- The queues change hands: nobody new but a call that may be given a fiber. -/
theorem requeue (h : QueuesOk b ss) {b' : Bearing D} (hn : b'.queues.Nodup)
    (hq : ∀ q ∈ b'.queues, q ∈ b.queues ∨ ∃ s ∈ ss, s.ref = q ∧ s.phase = .running)
    (hw : ∀ s ∈ ss, s.ref ∈ b'.queues → s.ref ∈ b.queues ∨
      s.deferred = false ∧ s.holding = false) : QueuesOk b' ss where
  nodup := hn
  running := by
    intro q hq'
    rcases hq q hq' with hold | hnew
    · exact h.running q hold
    · exact hnew
  waiting := by
    intro s hs hheld
    obtain ⟨hp, hout⟩ := h.waiting s hs hheld
    refine ⟨hp, ?_⟩
    intro hin
    rcases hw s hs hin with hold | ⟨hd, hh⟩
    · exact hout hold
    · rcases hheld with hheld | hheld
      · rw [hd] at hheld
        cases hheld
      · rw [hh] at hheld
        cases hheld
  doomed := h.doomed
  oneOpen := h.oneOpen
  cap := h.cap

/-- A call joins a queue. -/
theorem join (h : QueuesOk b ss) {b' : Bearing D} {r : Ref} (hperm : b'.queues.Perm (r :: b.queues))
    (hr : r ∉ b.queues) (hrun : ∃ s ∈ ss, s.ref = r ∧ s.phase = .running)
    (hheld : ∀ s ∈ ss, s.ref = r → s.deferred = false ∧ s.holding = false) : QueuesOk b' ss := by
  refine h.requeue (hperm.nodup_iff.2 (List.nodup_cons.2 ⟨hr, h.nodup⟩)) ?_ ?_
  · intro q hq
    rcases List.mem_cons.1 (hperm.mem_iff.1 hq) with rfl | hq
    · exact .inr hrun
    · exact .inl hq
  · intro s hs hq
    rcases List.mem_cons.1 (hperm.mem_iff.1 hq) with hq | hq
    · exact .inr (hheld s hs hq)
    · exact .inl hq

/-- Calls leave a queue. -/
theorem part (h : QueuesOk b ss) {b' : Bearing D} (hsub : b'.queues.Sublist b.queues) :
    QueuesOk b' ss :=
  h.requeue (h.nodup.sublist hsub) (fun _ hq => .inl (hsub.subset hq))
    fun _ _ hq => .inl (hsub.subset hq)

end QueuesOk

/-- A call that may be given a fiber, in the standings. -/
theorem Core.Givable.standing {k : Core D} {r : Ref} (h : k.Givable r) :
    (∃ s ∈ k.standings, s.ref = r ∧ s.phase = .running) ∧
      ∀ s ∈ k.standings, s.ref = r → s.deferred = false ∧ s.holding = false := by
  obtain ⟨hmem, hon, -⟩ := h
  constructor
  · obtain ⟨l, hl, rfl⟩ := List.mem_map.1 hmem
    exact ⟨l.toStanding, List.mem_map_of_mem hl, rfl, (hon l hl rfl).1⟩
  · exact Core.On.standing (P := fun s => s.deferred = false ∧ s.holding = false)
      fun l hl hr => (hon l hl hr).2

theorem Plain.queuesOk {k k' : Core D} (h : Plain B nice k k')
    (hk : QueuesOk k.toBearing k.standings) : QueuesOk k'.toBearing k'.standings := by
  have same (r : Ref) (f : Line → Line) (g : Standing → Standing)
      (hg : ∀ l, (f l).toStanding = g l.toStanding) (hr : ∀ s, (g s).ref = s.ref)
      (hp : ∀ s, (g s).phase = s.phase)
      (hd : ∀ s, (g s).deferred = true ∨ (g s).holding = true →
        s.deferred = true ∨ s.holding = true)
      (he : ∀ s, (g s).evFailed = s.evFailed) : QueuesOk k.toBearing (k.edit r f).standings := by
    rw [Core.standings_edit hg]
    exact hk.edit_same hr hp hd he
  have hlen : k.standings.length = k.lines.length := List.length_map _
  cases h with
  | calm h => rwa [h.bearing, h.standings]
  | classify r g o _ =>
    exact same r _ (fun s => { s with grpc := g, isOpen := o }) (fun _ => rfl) (fun _ => rfl)
      (fun _ => rfl) (fun _ => id) fun _ => rfl
  | launch r hon =>
    have hon := Core.On.standing (P := fun s => s.phase = .running ∨ s.phase = .headers ∧ _) hon
    rw [Core.standings_edit (g := fun s => { s with phase := .running }) fun _ => rfl]
    refine hk.edit (fun _ => rfl) (fun _ _ _ _ => .inl rfl) ?_ ?_ (fun _ _ _ => nofun) ?_
    · intro s hs hsr hw
      exact ⟨rfl, hsr ▸ (hk.waiting s hs hw).2⟩
    · intro s hs hsr hf
      have hw := hk.doomed s hs hf
      rcases hon s hs hsr with hp | ⟨hp, -⟩
      · rw [hw] at hp
        cases hp
      · rw [hw] at hp
        cases hp
    · intro s hs hsr _
      rcases hon s hs hsr with hp | ⟨-, hroom, -⟩
      · left
        rw [hp]
        nofun
      · right
        rwa [hlen]
  | answering r hloose hon =>
    have hon := Core.On.standing
      (P := fun s => s.deferred = false ∧ s.holding = false ∧ (s.phase = .headers → _)) hon
    rw [Core.standings_edit (g := fun s => { s with phase := .writing }) fun _ => rfl]
    refine hk.edit (fun _ => rfl) (fun _ _ _ _ => .inr hloose) ?_ (fun _ _ _ _ => rfl)
      (fun _ _ _ => nofun) ?_
    · intro s hs hsr hw
      obtain ⟨hd, hh, -⟩ := hon s hs hsr
      rcases hw with hw | hw
      · exact absurd (hd.symm.trans hw) nofun
      · exact absurd (hh.symm.trans hw) nofun
    · intro s hs hsr _
      by_cases hp : s.phase = .headers
      · right
        rw [hlen]
        exact ((hon s hs hsr).2.2 hp).1
      · exact .inl hp
  | defer r hloose hon =>
    have hon := Core.On.standing (P := fun s => s.phase = .running) hon
    rw [Core.standings_edit (g := fun s => { s with deferred := true }) fun _ => rfl]
    exact hk.edit (fun _ => rfl) (fun _ _ _ _ => .inr hloose)
      (fun s hs hsr _ => ⟨hon s hs hsr, hloose⟩) (fun s hs _ => hk.doomed s hs)
      (fun _ _ _ => id) fun _ _ _ => .inl
  | holdFor r hloose hon =>
    have hon := Core.On.standing (P := fun s => s.phase = .running) hon
    rw [Core.standings_edit (g := fun s => { s with holding := true }) fun _ => rfl]
    exact hk.edit (fun _ => rfl) (fun _ _ _ _ => .inr hloose)
      (fun s hs hsr _ => ⟨hon s hs hsr, hloose⟩) (fun s hs _ => hk.doomed s hs)
      (fun _ _ _ => id) fun _ _ _ => .inl
  | undefer r =>
    exact same r _ (fun s => { s with deferred := false }) (fun _ => rfl) (fun _ => rfl)
      (fun _ => rfl) (fun _ hw => .inr (hw.resolve_left nofun)) fun _ => rfl
  | unhold r =>
    exact same r _ (fun s => { s with holding := false }) (fun _ => rfl) (fun _ => rfl)
      (fun _ => rfl) (fun _ hw => .inl (hw.resolve_right nofun)) fun _ => rfl
  | closeIn r =>
    exact same r _ (fun s => { s with isOpen := false }) (fun _ => rfl) (fun _ => rfl)
      (fun _ => rfl) (fun _ => id) fun _ => rfl
  | failEvents r hon =>
    have hon := Core.On.standing (P := fun s => s.phase = .writing) hon
    rw [Core.standings_edit (g := fun s => { s with evFailed := true }) fun _ => rfl]
    exact hk.edit (fun _ => rfl) (fun _ _ _ hp => .inl hp)
      (fun s hs hsr hw => hsr ▸ hk.waiting s hs hw) (fun s hs hsr _ => hon s hs hsr)
      (fun _ _ _ => id) fun _ _ _ => .inl
  | enqueue r hg =>
    refine hk.join (r := r) ?_ hg.2.2 hg.standing.1 hg.standing.2
    simp only [Bearing.queues, List.append_assoc]
    exact List.perm_middle
  | give r hg =>
    refine hk.join (r := r) ?_ hg.2.2 hg.standing.1 hg.standing.2
    simp only [Bearing.queues, List.append_assoc]
    rw [← List.append_assoc k.pending]
    refine List.perm_middle.trans ?_
    simp
  | returned r hg =>
    refine hk.join (r := r) ?_ hg.2.2 hg.standing.1 hg.standing.2
    simp only [Bearing.queues, ← List.append_assoc]
    exact List.perm_append_singleton _ _
  | dequeue =>
    refine hk.part ?_
    exact ((List.tail_sublist _).append (List.Sublist.refl _)).append (List.Sublist.refl _)
  | collect =>
    refine hk.part ?_
    exact (List.Sublist.refl _).append (List.nil_sublist _)
  | leave r id why _ hloose _ _ =>
    have := hk.leave hloose
    rw [← Core.standings_leave] at this
    exact ⟨this.1, this.2, this.3, this.4, this.5, this.6⟩
  | _ => exact ⟨hk.1, hk.2, hk.3, hk.4, hk.5, hk.6⟩

/-- A call handed back, with the next one taken: the same calls, in other places. -/
theorem Bearing.queues_handedBack {b : Bearing D} {r : Ref} (reuse : Bool) (hr : r ∈ b.inHand) :
    ((if reuse then b.pending.tail else b.pending) ++
        (b.inHand.erase r ++ if reuse then b.pending.head?.toList else []) ++
        (b.answered ++ [r])).Perm b.queues := by
  have hhand : (b.inHand.erase r ++ [r]).Perm b.inHand :=
    (List.perm_append_singleton _ _).trans (List.perm_cons_erase hr).symm
  have hnext : ((if reuse then b.pending.tail else b.pending) ++
      if reuse then b.pending.head?.toList else []).Perm b.pending := by
    cases reuse with
    | false => simp
    | true =>
      cases b.pending with
      | nil => rfl
      | cons q rest => exact List.perm_append_singleton _ _
  calc _ = (if reuse then b.pending.tail else b.pending) ++
        (b.inHand.erase r ++ ((if reuse then b.pending.head?.toList else []) ++
          (b.answered ++ [r]))) := by simp only [List.append_assoc]
    List.Perm _ ((if reuse then b.pending.tail else b.pending) ++
        ((if reuse then b.pending.head?.toList else []) ++
          (b.inHand.erase r ++ ([r] ++ b.answered)))) := by
      refine List.Perm.append_left _ ?_
      rw [← List.append_assoc, ← List.append_assoc (if reuse then _ else _)]
      exact List.perm_append_comm.append List.perm_append_comm
    _ = ((if reuse then b.pending.tail else b.pending) ++
        (if reuse then b.pending.head?.toList else [])) ++
          ((b.inHand.erase r ++ [r]) ++ b.answered) := by simp only [List.append_assoc]
    List.Perm _ (b.pending ++ (b.inHand ++ b.answered)) :=
      hnext.append (hhand.append_right _)
    _ = b.queues := by rw [Bearing.queues, List.append_assoc]

/-- A new request, when every one before it has its headers. -/
theorem QueuesOk.append {b b' : Bearing D} {ss : List Standing} {s : Standing}
    (h : QueuesOk b ss) (hq : b'.queues = b.queues) (hs : s.phase = .headers)
    (hd : s.deferred = false) (hh : s.holding = false) (he : s.evFailed = false)
    (hall : ∀ t ∈ ss, t.phase ≠ .headers) : QueuesOk b' (ss ++ [s]) where
  nodup := hq ▸ h.nodup
  running := by
    intro q hmem
    rw [hq] at hmem
    obtain ⟨t, ht, hr, hp⟩ := h.running q hmem
    exact ⟨t, List.mem_append_left _ ht, hr, hp⟩
  waiting := by
    intro t ht hw
    rw [hq]
    rcases List.mem_append.1 ht with ht | ht
    · exact h.waiting t ht hw
    · rw [List.mem_singleton.1 ht, hd, hh] at hw
      exact absurd hw (by decide)
  doomed := by
    intro t ht hf
    rcases List.mem_append.1 ht with ht | ht
    · exact h.doomed t ht hf
    · rw [List.mem_singleton.1 ht, he] at hf
      cases hf
  oneOpen := by
    have hnone : ss.countP (·.phase == .headers) = 0 := by
      refine List.countP_eq_zero.2 ?_
      intro t ht
      rw [beq_iff_eq]
      exact hall t ht
    rw [List.countP_append, hnone, List.countP_singleton]
    split <;> simp
  cap := by
    rw [List.countP_append, List.countP_singleton, hs]
    exact h.cap

theorem Front.queuesOk {k k' : Core D} (h : Front B nice k k')
    (hk : QueuesOk k.toBearing k.standings) : QueuesOk k'.toBearing k'.standings := by
  cases h with
  | plain h => exact h.queuesOk hk
  | handedBack r reuse hr =>
    have hperm := Bearing.queues_handedBack (b := k.toBearing) reuse hr
    refine hk.requeue (hperm.nodup_iff.2 hk.nodup) ?_ ?_
    · exact fun q hq => .inl (hperm.mem_iff.1 hq)
    · exact fun s _ hq => .inl (hperm.mem_iff.1 hq)
  | trail r t =>
    rw [Core.standings_edit (g := fun s => { s with trailing := t }) fun _ => rfl]
    exact hk.edit_same (fun _ => rfl) (fun _ => rfl) (fun _ => id) fun _ => rfl
  | extend r b =>
    rw [Core.standings_edit (g := fun s => { s with block := s.block ++ b }) fun _ => rfl]
    exact hk.edit_same (fun _ => rfl) (fun _ => rfl) (fun _ => id) fun _ => rfl
  | grew r n _ =>
    have hs : (k.edit r fun l => { l with sendWindow := l.sendWindow + n }).standings =
        k.standings := map_edit fun _ => rfl
    rw [hs]
    exact hk
  | append r id spare nextRef hall _ _ =>
    rw [Core.standings, List.map_append]
    refine hk.append (s := (Line.opened r id k.peerWindow).toStanding) rfl rfl rfl rfl rfl ?_
    intro s hs
    obtain ⟨l, hl, rfl⟩ := List.mem_map.1 hs
    exact hall l hl
  | shifted v _ _ _ =>
    rw [Core.standings, List.map_map]
    exact ⟨hk.1, hk.2, hk.3, hk.4, hk.5, hk.6⟩
  | shiftRefused v w _ _ _ _ =>
    rw [Core.standings, List.map_map]
    exact ⟨hk.1, hk.2, hk.3, hk.4, hk.5, hk.6⟩
  | _ => exact ⟨hk.1, hk.2, hk.3, hk.4, hk.5, hk.6⟩

theorem Move.queuesOk {k k' : Core D} (h : Move B nice k k')
    (hk : QueuesOk k.toBearing k.standings) : QueuesOk k'.toBearing k'.standings := by
  cases h with
  | front h => exact h.queuesOk hk
  | taking h => rwa [h.bearing, h.standings]

/-! ## The bytes being taken -/

/-- A stream whose bytes are taken for its call, or will be. -/
def Standing.active (s : Standing) : Prop :=
  s.phase = .headers ∨ s.phase = .running ∧ s.isOpen = true

/-- The bytes each active stream has on the way. -/
def Core.Takes (k : Core D) (t : Ref → Nat) : Prop :=
  ∀ l ∈ k.lines, l.active → l.taking = t l.ref

theorem Core.Takes.of_eq {k : Core D} {t t' : Ref → Nat} (h : k.Takes t) (ht : ∀ q, t q = t' q) :
    k.Takes t' := fun l hl ha => (h l hl ha).trans (ht _)

theorem Core.Takes.edit {k : Core D} {r : Ref} {f : Line → Line} {t t' : Ref → Nat}
    (h : k.Takes t) (ht : ∀ q, q ≠ r → t' q = t q) (hr : ∀ l, (f l).ref = l.ref)
    (hf : ∀ l ∈ k.lines, l.ref = r → (f l).active → l.active ∧
      (l.taking = t r → (f l).taking = t' r)) : (k.edit r f).Takes t' := by
  intro l' hl' ha
  obtain ⟨l, hl, rfl⟩ := mem_edit.1 hl'
  by_cases hlr : l.ref = r
  · rw [if_pos hlr] at ha ⊢
    obtain ⟨ha', hw⟩ := hf l hl hlr ha
    rw [hr, hlr]
    exact hw (hlr ▸ h l hl ha')
  · rw [if_neg hlr] at ha ⊢
    rw [ht _ hlr]
    exact h l hl ha

/-- A change that touches neither the bytes on the way nor who takes any. -/
theorem Core.Takes.edit_same {k : Core D} {r : Ref} {f : Line → Line} {t : Ref → Nat}
    (h : k.Takes t) (hr : ∀ l, (f l).ref = l.ref) (ht : ∀ l, (f l).taking = l.taking)
    (ha : ∀ l ∈ k.lines, l.ref = r → (f l).active → l.active) : (k.edit r f).Takes t :=
  h.edit (fun _ _ => rfl) hr fun l hl hlr hact => ⟨ha l hl hlr hact, fun hw => (ht l).trans hw⟩

theorem Calm.takes {k k' : Core D} (h : Calm B k k') {t : Ref → Nat} (hk : k.Takes t) :
    k'.Takes t := by
  cases h with
  | settled p =>
    intro l' hl' ha
    obtain ⟨l, hl, rfl⟩ := List.mem_map.1 hl'
    split at ha <;> split <;> exact hk l hl ha
  | data | hold | giveBack | starve | unstarve | topped | gathered | pulled | whole | wants
  | stained | markReset =>
    exact Core.Takes.edit_same hk (fun _ => rfl) (fun _ => rfl) fun _ _ _ => id
  | _ => exact hk

theorem Plain.takes {k k' : Core D} (h : Plain B nice k k') {t : Ref → Nat} (hk : k.Takes t) :
    k'.Takes t := by
  cases h with
  | calm h => exact h.takes hk
  | classify r g o hon =>
    exact hk.edit_same (fun _ => rfl) (fun _ => rfl) fun l hl hr _ => .inl (hon l hl hr)
  | launch r hon =>
    refine hk.edit_same (fun _ => rfl) (fun _ => rfl) ?_
    intro l hl hr ha
    rcases hon l hl hr with hp | ⟨hp, -⟩
    · exact .inr ⟨hp, (ha.resolve_left nofun).2⟩
    · exact .inl hp
  | answering r _ _ =>
    refine hk.edit_same (fun _ => rfl) (fun _ => rfl) ?_
    rintro l _ _ (hp | ⟨hp, -⟩)
    · cases hp
    · cases hp
  | closeIn r =>
    refine hk.edit_same (fun _ => rfl) (fun _ => rfl) ?_
    rintro l _ _ (hp | ⟨-, ho⟩)
    · exact .inl hp
    · cases ho
  | defer | holdFor | undefer | unhold | failEvents =>
    exact hk.edit_same (fun _ => rfl) (fun _ => rfl) fun _ _ _ => id
  | leave r id why _ _ _ _ => exact fun l hl => hk l (List.mem_of_mem_filter hl)
  | _ => exact hk

/-- A stream that takes no more bytes takes none again. -/
theorem Plain.inactive {k k' : Core D} (h : Plain B nice k k') {r : Ref}
    (hk : k.On r fun l => ¬l.active) : k'.On r fun l => ¬l.active := by
  have edits {q : Ref} {f : Line → Line} (hr : ∀ l, (f l).ref = l.ref)
      (hf : ∀ l ∈ k.lines, l.ref = q → (f l).active → l.active) :
      ∀ l ∈ Lib.edit (·.ref) q f k.lines, l.ref = r → ¬l.active :=
    forall_mem_edit hk fun l hl hlq hnot hlr ha => hnot (hr l ▸ hlr) (hf l hl hlq ha)
  cases h with
  | calm h =>
    intro l hl hlr
    have hs : l.toStanding ∈ k.standings := h.standings ▸ List.mem_map_of_mem hl
    exact Core.On.standing (P := fun s => ¬s.active) hk l.toStanding hs hlr
  | classify q g o hon => exact edits (fun _ => rfl) fun l hl hlq _ => .inl (hon l hl hlq)
  | launch q hon =>
    refine edits (fun _ => rfl) fun l hl hlq ha => ?_
    rcases hon l hl hlq with hp | ⟨hp, -⟩
    · exact .inr ⟨hp, (ha.resolve_left nofun).2⟩
    · exact .inl hp
  | answering q _ _ =>
    refine edits (fun _ => rfl) fun l _ _ ha => ?_
    rcases ha with hp | ⟨hp, -⟩
    · cases hp
    · cases hp
  | closeIn q =>
    refine edits (fun _ => rfl) fun l _ _ ha => ?_
    rcases ha with hp | ⟨-, ho⟩
    · exact .inl hp
    · cases ho
  | defer | holdFor | undefer | unhold | failEvents => exact edits (fun _ => rfl) fun _ _ _ ha => ha
  | leave q id why _ _ _ _ => exact fun l hl => hk l (List.mem_of_mem_filter hl)
  | _ => exact hk

/-- Nothing is on the way: between two frames. -/
abbrev Core.Idle (k : Core D) : Prop := k.Takes fun _ => 0

end Nilo.Http2
