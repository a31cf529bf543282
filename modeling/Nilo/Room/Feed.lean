import Nilo.Room.Events
import Nilo.Room.Delivery

/-!
# What a stream writes, and what it holds

The bytes of a stream are a prefix of what it owes: its retry line, what it was given of the rooms'
history, and what it took from its seats, each formatted whole. A `step` that returns `drained` has
found every seat empty, unless the bell rang again behind it. Every reference the stream comes by
it lets go once.
-/

namespace Nilo.Rooms

open Lib (Mailbox)

/-! ## References -/

namespace Floor

variable {f : Floor}

/-- What callers hold besides, after a step that is not one of theirs letting go. -/
theorem count_held_act (hf : f.Whole) {a : Act} (ha : ∀ k, a ≠ .release k) (q : PostId) :
    f.held.count q ≤ (f.act a).held.count q := by
  cases a with
  | sitAfter c room textOnly lastId into =>
    rcases hf.sitAfter_cases c room textOnly lastId into with heq |
      ⟨_, _, _, _, _, _, _, _, _, _, _, _, _, _, _, heq⟩
    · rw [act, heq]
    · rw [act, heq, List.count_append]
      omega
  | unlink c room =>
    rcases hf.unlink_cases c room with heq | ⟨_, _, _, _, _, _, _, _, _, _, _, _, _, heq⟩
    · rw [act, heq]
    · rw [act, heq]
  | giveUp c =>
    rcases f.giveUp_cases c with heq | ⟨_, _, _, _, _, _, _, _, heq⟩
    · rw [act, heq]
    · rw [act, heq]
  | say room kind data =>
    rcases f.reserve_cases room ⟨kind, [], [], data⟩ with heq | heq
    · rw [act, heq]
    · rw [act, heq]
  | event room name id data =>
    rw [act, event]
    split_ifs
    · exact Nat.le_refl _
    · rcases f.reserve_cases room ⟨.text, name, id, data⟩ with heq | heq
      · rw [heq]
      · rw [heq]
  | handOut k =>
    rcases f.handOut_cases k with ⟨heq, _⟩ | ⟨_, _, _, _, _, _, _, heq⟩
    · rw [act, heq]
    · rw [act, heq]
  | cancel k =>
    rw [act, cancel]
    split
    · exact Nat.le_refl _
    · exact List.count_le_count_cons
  | put room canceled =>
    rcases f.put_cases room canceled with heq | ⟨_, _, _, _, _, _, _, _, ⟨_, heq⟩ | ⟨_, heq⟩⟩
    · rw [act, heq]
    · rw [act, heq]
    · rw [act, heq, ring_held]
  | close room =>
    rcases f.close_cases room with heq | ⟨_, _, _, _, _, _, _, _, heq⟩
    · rw [act, heq]
    · rw [act, heq]
      exact List.count_le_count_cons
  | take c room canceled =>
    rcases f.take_cases c room canceled with ⟨heq, _⟩ | ⟨_, _, _, _, heq⟩
    · rw [act, heq]
    · rw [act, heq]
      exact List.count_le_count_cons
  | release k => exact absurd rfl (ha k)
  | forget room =>
    rw [act, forget]
    split
    · exact Nat.le_refl _
    · split_ifs <;> exact Nat.le_refl _
  | look c => exact Nat.le_refl _

theorem release_held {k : Nat} {p : PostId} (hk : f.held[k]? = some p) (q : PostId) :
    (f.release k).held.count q + [p].count q = f.held.count q := by
  have hgone := count_eraseIdx (w := id) hk q
  rw [release, hk]
  simpa using hgone

theorem letGo_eq {p : PostId} (hp : p ∈ f.held) :
    f.held[f.held.idxOf p]? = some p := by
  rw [List.getElem?_eq_getElem (List.idxOf_lt_length_iff.mpr hp), List.getElem_idxOf]

theorem Whole.letGo (hf : f.Whole) (p : PostId) : (f.letGo p).Whole := hf.release _

/-- What letting go of a reference changes. -/
theorem letGo_fields (f : Floor) (p : PostId) :
    ∃ heap held, f.letGo p = { f with heap := heap, held := held } ∧ heap.posts = f.heap.posts := by
  rw [letGo, release]
  split
  · exact ⟨_, _, rfl, rfl⟩
  · exact ⟨_, _, rfl, Heap.posts_release _ _⟩

theorem letGo_held {p : PostId} (hp : p ∈ f.held) (q : PostId) :
    (f.letGo p).held.count q + [p].count q = f.held.count q :=
  release_held (letGo_eq hp) q

/-- A caller that holds a post may take another reference to it. -/
theorem Whole.addRef (hf : f.Whole) {p : PostId} (hp : p ∈ f.held) : (f.addRef p).Whole := by
  have hpos : 0 < f.heap.refs p := by
    rw [hf.counted]
    exact List.count_pos_iff.mpr (List.mem_append_right _ (List.mem_append_right _ hp))
  have htrade := Heap.trade_addRef hpos
  refine ⟨?_, hf.conns, ?_, htrade.tidy hf.tidy⟩
  · intro room r hr
    obtain ⟨hrolled, hstocked, hroster⟩ := hf.rooms room r hr
    exact ⟨hrolled, hstocked.congr htrade.posts, hroster⟩
  · refine counted_trade hf.counted htrade ?_
    intro q
    simp only [holding, Floor.addRef, List.count_append, List.count_cons, List.count_nil]
    omega

theorem takeAt_some {room : Nat} {ticket : Ticket} {p : PostId} {f' : Floor}
    (ht : f.takeAt room ticket = some (p, f')) :
    ∃ r r', f.rooms[room]? = some r ∧ r.take ticket = some (p, r') ∧
      f' = { f with rooms := f.rooms.set room r', held := p :: f.held } := by
  unfold takeAt at ht
  split at ht
  · cases ht
  · rename_i r hr
    split at ht
    · cases ht
    · rename_i p' r' htake
      cases ht
      exact ⟨r, r', hr, htake, rfl⟩

theorem Whole.takeAt (hf : f.Whole) {room : Nat} {ticket : Ticket} {p : PostId} {f' : Floor}
    (ht : f.takeAt room ticket = some (p, f')) : f'.Whole := by
  obtain ⟨r, r', hr, htake, rfl⟩ := takeAt_some ht
  exact hf.takeTicket hr htake

end Floor

/-! ## The steps of a stream -/

/-- What is owed before anything new. -/
def Http2Events.owed (e : Http2Events) : List Held :=
  e.retryMs.toList.map Held.retry ++ e.replays.flatten.map Held.post

theorem nextReplay_none {replays : List (List PostId)} (h : nextReplay replays = none) :
    replays.flatten = [] := by
  induction replays with
  | nil => rfl
  | cons posts replays ih =>
    cases posts with
    | nil =>
      rw [nextReplay] at h
      split at h
      · rename_i hnone
        exact ih hnone
      · cases h
    | cons p posts => cases h

theorem nextReplay_some {replays replays' : List (List PostId)} {p : PostId}
    (h : nextReplay replays = some (p, replays')) : replays.flatten = p :: replays'.flatten := by
  induction replays generalizing replays' with
  | nil => cases h
  | cons posts replays ih =>
    cases posts with
    | nil =>
      rw [nextReplay] at h
      split at h
      · cases h
      · rename_i p' rest hrest
        cases h
        have hflat := ih hrest
        simpa using hflat
    | cons q posts =>
      cases h
      rfl

theorem Http2Events.nextOwed_none {e : Http2Events} (h : e.nextOwed = none) : e.owed = [] := by
  unfold nextOwed at h
  split at h
  · cases h
  · rename_i hretry
    split at h
    · rename_i hnone
      simp [owed, hretry, nextReplay_none hnone]
    · cases h

theorem Http2Events.nextOwed_some {e e' : Http2Events} {item : Held}
    (h : e.nextOwed = some (item, e')) :
    e.owed = item :: e'.owed ∧ e.replays.flatten = item.refs ++ e'.replays.flatten ∧
      e'.held = e.held ∧ e'.left = e.left := by
  unfold nextOwed at h
  split at h
  · rename_i millis hretry
    cases h
    refine ⟨?_, rfl, rfl, rfl⟩
    simp [owed, hretry]
  · rename_i hretry
    split at h
    · cases h
    · rename_i p replays hnext
      cases h
      have hflat := nextReplay_some hnext
      refine ⟨?_, hflat, rfl, rfl⟩
      simp [owed, hretry, hflat]

/-- Past the event that was held. -/
def Phase.past : Phase → Bool
  | .owed | .walk _ | .took _ _ | .letGoReplays | .gone => true
  | _ => false

namespace Feed

/-- What `step` and `leave` do next. -/
inductive GoStep (s : Feed) (t : Turn) : Feed → Prop where
  | rest : GoStep s t s
  | past : s.phase = .finish → s.events.held = none → GoStep s t { s with phase := .owed }
  | write (item : Held) (e : Http2Events) :
      (s.phase = .finish ∧ s.events.held = some item ∧ e = s.events ∨
        ∃ e', s.phase = .owed ∧ s.events.nextOwed = some (item, e') ∧
          e = { e' with held := some item }) →
      GoStep s t (writeHeld { s with events := e } item t .owed)
  | first (conn : Conn) : s.phase = .owed → s.events.nextOwed = none →
      s.floor.conns[s.c]? = some conn → GoStep s t { s with phase := .walk conn.first }
  | drained (seating : Seating) : s.phase = .walk seating → seating.room = none →
      GoStep s t { s with phase := .idle (some .drained) }
  | next (seating : Seating) (room : Nat) : s.phase = .walk seating → seating.room = some room →
      s.floor.takeAt room seating.ticket = none →
      GoStep s t { s with phase := .walk (after s.floor.rooms room seating.ticket) }
  | take (seating : Seating) (room : Nat) (p : PostId) (f : Floor) : s.phase = .walk seating →
      seating.room = some room → s.floor.takeAt room seating.ticket = some (p, f) →
      GoStep s t { s with
        floor := f
        phase := .took seating p
        taken := s.taken ++ [(room, p)] }
  | taken (seating : Seating) (p : PostId) : s.phase = .took seating p →
      GoStep s t (s.writeTaken seating p t)
  | giveUp : s.phase = .leaving → GoStep s t { s with floor := s.floor.giveUp s.c }
  | unlink (room : Nat) : s.phase = .leaving →
      GoStep s t { s with floor := s.floor.unlink s.c room }
  | stood : s.phase = .leaving → GoStep s t { s with phase := .letGoHeld }
  | letGoNone (s' : Feed) : s.phase = .letGoHeld → s.events.held = none →
      s' = { s with
        events := { s.events with held := none, left := ⟨[], 0⟩ }
        phase := .letGoReplays } → GoStep s t s'
  | letGoHeld (s' : Feed) (item : Held) : s.phase = .letGoHeld → s.events.held = some item →
      s' = { s with
        events := { s.events with held := none, left := ⟨[], 0⟩ }
        phase := .letGoReplays } → GoStep s t (s'.release item)
  | letGoReplay (p : PostId) (replays : List (List PostId)) : s.phase = .letGoReplays →
      nextReplay s.events.replays = some (p, replays) →
      GoStep s t (release { s with events := { s.events with replays := replays } } (.post p))
  | gone : s.phase = .letGoReplays → nextReplay s.events.replays = none →
      GoStep s t { s with phase := .gone }

theorem go_cases (s : Feed) (t : Turn) : GoStep s t (s.go t) := by
  unfold go
  split
  · rename_i hphase
    split
    · rename_i hheld
      exact .past hphase hheld
    · rename_i item hheld
      exact .write item s.events (.inl ⟨hphase, hheld, rfl⟩)
  · rename_i hphase
    split
    · rename_i hnext
      split
      · exact .rest
      · rename_i conn hconn
        exact .first conn hphase hnext hconn
    · rename_i item e hnext
      exact .write item _ (.inr ⟨e, hphase, hnext, rfl⟩)
  · rename_i seating hphase
    split
    · rename_i hroom
      exact .drained seating hphase hroom
    · rename_i room hroom
      split
      · rename_i htake
        exact .next seating room hphase hroom htake
      · rename_i p f htake
        exact .take seating room p f hphase hroom htake
  · rename_i seating p hphase
    exact .taken seating p hphase
  · rename_i hphase
    split
    · exact .rest
    · rename_i conn hconn
      by_cases hleaving : conn.leaving ≠ none
      · rw [if_pos hleaving]
        exact .giveUp hphase
      · rw [if_neg hleaving]
        split
        · exact .unlink _ hphase
        · exact .stood hphase
  · rename_i hphase
    dsimp only
    split
    · rename_i hheld
      exact .letGoNone _ hphase hheld rfl
    · rename_i item hheld
      exact .letGoHeld _ item hphase hheld rfl
  · rename_i hphase
    split
    · rename_i hnext
      exact .gone hphase hnext
    · rename_i p replays hnext
      exact .letGoReplay p replays hphase hnext
  · exact .rest

end Feed

/-! ## Every reference once -/

/-- A caller that came by `gained` and let go of `released` holds `refs`, among what callers hold. -/
structure Owns (f : Floor) (gained released refs : List PostId) : Prop where
  whole : f.Whole
  mine : ∀ q, refs.count q ≤ f.held.count q
  balance : ∀ q, gained.count q = released.count q + refs.count q

section Owns

variable {f f' : Floor} {gained released refs refs' : List PostId} {p : PostId}

theorem Owns.perm (h : Owns f gained released refs) (hperm : refs.Perm refs') :
    Owns f gained released refs' := by
  refine ⟨h.whole, ?_, ?_⟩
  · intro q
    rw [← hperm.count_eq]
    exact h.mine q
  · intro q
    rw [← hperm.count_eq]
    exact h.balance q

theorem Owns.perm_gained {gained' : List PostId} (h : Owns f gained released refs)
    (hperm : gained.Perm gained') : Owns f gained' released refs := by
  refine ⟨h.whole, h.mine, ?_⟩
  intro q
  rw [← hperm.count_eq]
  exact h.balance q

theorem Owns.mem_held (h : Owns f gained released refs) (hp : p ∈ refs) : p ∈ f.held := by
  have hpos := List.count_pos_iff.mpr hp
  have hle := h.mine p
  exact List.count_pos_iff.mp (by omega)

theorem Owns.letGo (h : Owns f gained released (p :: refs)) :
    Owns (f.letGo p) gained (released ++ [p]) refs := by
  have hp : p ∈ f.held := h.mem_held (by simp)
  refine ⟨h.whole.letGo p, ?_, ?_⟩
  · intro q
    have hheld := Floor.letGo_held hp q
    have hmine := h.mine q
    rw [List.count_cons] at hmine
    rw [List.count_singleton] at hheld
    omega
  · intro q
    have hbalance := h.balance q
    rw [List.count_cons] at hbalance
    rw [List.count_append, List.count_singleton]
    omega

/-- New references, in front of what callers hold. -/
theorem Owns.gain (h : Owns f gained released refs) (hwhole : f'.Whole) {new : List PostId}
    (hheld : f'.held = new ++ f.held) : Owns f' (gained ++ new) released (refs ++ new) := by
  refine ⟨hwhole, ?_, ?_⟩
  · intro q
    have hmine := h.mine q
    rw [hheld, List.count_append, List.count_append]
    omega
  · intro q
    have hbalance := h.balance q
    rw [List.count_append, List.count_append]
    omega

/-- A step that leaves callers at least what they held. -/
theorem Owns.more (h : Owns f gained released refs) (hwhole : f'.Whole)
    (hheld : ∀ q, f.held.count q ≤ f'.held.count q) : Owns f' gained released refs :=
  ⟨hwhole, fun q => (h.mine q).trans (hheld q), h.balance⟩

end Owns

namespace Feed

variable {s : Feed}

structure Keeps (s : Feed) : Prop where
  owns : Owns s.floor s.gained s.released s.refs
  past : s.phase.past = true → s.events.held = none
  gone : s.phase = .gone → s.events.replays.flatten = []

theorem keeps_release {item : Held}
    (howns : Owns s.floor s.gained s.released (item.refs ++ s.refs))
    (hpast : s.phase.past = true → s.events.held = none) (hgone : s.phase ≠ .gone) :
    (s.release item).Keeps := by
  cases item with
  | retry millis => exact ⟨howns, hpast, fun h => absurd h hgone⟩
  | post p => exact ⟨howns.letGo, hpast, fun h => absurd h hgone⟩

theorem keeps_writeHeld {item : Held} {t : Turn}
    (howns : Owns s.floor s.gained s.released s.events.refs) (hheld : s.events.held = some item) :
    (s.writeHeld item t .owed).Keeps := by
  unfold writeHeld
  dsimp only
  have hrefs : s.events.refs = s.events.replays.flatten ++ item.refs := by
    simp [Http2Events.refs, hheld]
  split
  · refine ⟨?_, nofun, nofun⟩
    simpa [Feed.refs, Feed.gained, Phase.refs, Http2Events.refs] using howns
  · refine ⟨?_, nofun, nofun⟩
    simpa [Feed.refs, Feed.gained, Phase.refs, Http2Events.refs] using howns
  · refine keeps_release ?_ (fun _ => rfl) nofun
    rw [hrefs] at howns
    refine howns.perm ?_
    simpa [Feed.refs, Feed.gained, Phase.refs, Http2Events.refs] using List.perm_append_comm

theorem keeps_writeTaken {seating : Seating} {p : PostId} {t : Turn}
    (howns : Owns s.floor s.gained s.released (s.events.replays.flatten ++ [p]))
    (hheld : s.events.held = none) : (s.writeTaken seating p t).Keeps := by
  unfold writeTaken
  dsimp only
  have hfront : Owns s.floor s.gained s.released (p :: s.events.replays.flatten) :=
    howns.perm (List.perm_append_singleton _ _)
  split
  · refine keeps_release ?_ (fun _ => hheld) nofun
    simpa [Feed.refs, Feed.gained, Phase.refs, Http2Events.refs, Held.refs, hheld] using hfront
  · refine keeps_release ?_ nofun nofun
    have hp : p ∈ s.floor.held := hfront.mem_held (by simp)
    have hgain : Owns (s.floor.addRef p) (s.gained ++ [p]) s.released
        (p :: s.events.replays.flatten ++ [p]) := hfront.gain (hfront.whole.addRef hp) rfl
    simpa [Feed.refs, Feed.gained, Phase.refs, Http2Events.refs, Held.refs] using hgain
  · refine keeps_release ?_ (fun _ => hheld) nofun
    simpa [Feed.refs, Feed.gained, Phase.refs, Http2Events.refs, Held.refs, hheld] using hfront

theorem Keeps.go (hs : s.Keeps) (t : Turn) : (s.go t).Keeps := by
  have howns := hs.owns
  have hpast := hs.past
  generalize hs' : s.go t = s'
  have hgo : GoStep s t s' := hs' ▸ s.go_cases t
  cases hgo with
  | rest => exact hs
  | past hphase hheld =>
    refine ⟨?_, fun _ => hheld, nofun⟩
    simpa [Feed.refs, Feed.gained, Phase.refs, hphase] using howns
  | write item e hitem =>
    rcases hitem with ⟨hphase, hheld, rfl⟩ | ⟨e', hphase, hnext, rfl⟩
    · refine keeps_writeHeld ?_ hheld
      simpa [Feed.refs, Feed.gained, Phase.refs, hphase] using howns
    · obtain ⟨_, hflat, hheld', _⟩ := Http2Events.nextOwed_some hnext
      have hnone := hpast (by rw [hphase]; rfl)
      refine keeps_writeHeld ?_ rfl
      refine howns.perm ?_
      simpa [Feed.refs, Feed.gained, Phase.refs, Http2Events.refs, hphase, hnone, hflat]
        using List.perm_append_comm
  | first conn hphase hnext hconn =>
    refine ⟨?_, fun _ => hpast (by rw [hphase]; rfl), nofun⟩
    simpa [Feed.refs, Feed.gained, Phase.refs, hphase] using howns
  | drained seating hphase hroom =>
    refine ⟨?_, fun _ => hpast (by rw [hphase]; rfl), nofun⟩
    simpa [Feed.refs, Feed.gained, Phase.refs, hphase] using howns
  | next seating room hphase hroom htake =>
    refine ⟨?_, fun _ => hpast (by rw [hphase]; rfl), nofun⟩
    simpa [Feed.refs, Feed.gained, Phase.refs, hphase] using howns
  | take seating room p f hphase hroom htake =>
    have hwhole := howns.whole.takeAt htake
    obtain ⟨_, _, _, _, rfl⟩ := Floor.takeAt_some htake
    refine ⟨?_, fun _ => hpast (by rw [hphase]; rfl), nofun⟩
    have hgain : Owns _ (s.gained ++ [p]) s.released (s.refs ++ [p]) := howns.gain hwhole rfl
    have hgained : (s.gained ++ [p]).Perm
        (s.given ++ (s.taken ++ [(room, p)]).map (·.2) ++ s.owned) := by
      rw [Feed.gained, List.append_assoc, List.map_append, ← List.append_assoc s.given,
        List.append_assoc (s.given ++ _)]
      exact List.perm_append_comm.append_left _
    have hrefs := hgain.perm_gained hgained
    simpa [Feed.refs, Feed.gained, Phase.refs, hphase] using hrefs
  | taken seating p hphase =>
    have hnone := hpast (by rw [hphase]; rfl)
    refine keeps_writeTaken ?_ hnone
    simpa [Feed.refs, Feed.gained, Phase.refs, Http2Events.refs, hphase, hnone] using howns
  | giveUp hphase =>
    refine ⟨?_, hpast, hs.gone⟩
    exact howns.more (howns.whole.giveUp _)
      (Floor.count_held_act howns.whole (a := .giveUp s.c) (by simp))
  | unlink room hphase =>
    refine ⟨?_, hpast, hs.gone⟩
    exact howns.more (howns.whole.unlink _ _)
      (Floor.count_held_act howns.whole (a := .unlink s.c room) (by simp))
  | stood hphase =>
    refine ⟨?_, nofun, nofun⟩
    simpa [Feed.refs, Feed.gained, Phase.refs, hphase] using howns
  | letGoNone s' hphase hheld heq =>
    subst heq
    refine ⟨?_, fun _ => rfl, nofun⟩
    simpa [Feed.refs, Feed.gained, Phase.refs, Http2Events.refs, hphase, hheld] using howns
  | letGoHeld s' item hphase hheld heq =>
    subst heq
    refine keeps_release ?_ (fun _ => rfl) nofun
    refine howns.perm ?_
    simpa [Feed.refs, Feed.gained, Phase.refs, Http2Events.refs, hphase, hheld] using List.perm_append_comm
  | letGoReplay p replays hphase hnext =>
    refine keeps_release ?_ hpast ?_
    · simpa [Feed.refs, Feed.gained, Phase.refs, Http2Events.refs, Held.refs, hphase, nextReplay_some hnext]
        using howns
    · rw [hphase]
      exact nofun
  | gone hphase hnext =>
    refine ⟨?_, fun _ => hpast (by rw [hphase]; rfl), fun _ => nextReplay_none hnext⟩
    simpa [Feed.refs, Feed.gained, Phase.refs, hphase] using howns

end Feed

namespace Feed

variable {s : Feed}

/-- What others do, and what of it comes to the stream's seats. -/
theorem other_cases (s : Feed) (a : Act) :
    s.other a = s ∨
    a.isOf s.c = false ∧ s.mayRelease a = true ∧
      (s.floor.comes s.c a = none ∧ s.other a = { s with floor := s.floor.act a } ∨
      ∃ room p full, s.floor.comes s.c a = some (room, p, full) ∧
        s.other a = { s with
          floor := s.floor.act a, got := s.got ++ [(room, p)], lost := s.lost || full }) := by
  unfold other
  by_cases hguard : (a.isOf s.c || !s.mayRelease a) = true
  · rw [if_pos hguard]
    exact .inl rfl
  · rw [if_neg hguard]
    simp only [Bool.or_eq_true, Bool.not_eq_true', not_or, Bool.not_eq_true, Bool.not_eq_false]
      at hguard
    refine .inr ⟨hguard.1, hguard.2, ?_⟩
    split
    · rename_i hcomes
      exact .inl ⟨hcomes, rfl⟩
    · rename_i room p full hcomes
      exact .inr ⟨room, p, full, hcomes, rfl⟩

/-- The stream sits down, and is given what the room kept. -/
theorem sit_cases (hwhole : s.floor.Whole) (room : Nat) (lastId : Text.Bytes) (into : Nat) :
    s.sit room lastId into = s ∨
    ∃ posts, s.phase = .seating ∧ s.floor.sitAfter s.c room true lastId into ≠ s.floor ∧
      (s.floor.sitAfter s.c room true lastId into).held = posts ++ s.floor.held ∧
      s.sit room lastId into = { s with
        floor := s.floor.sitAfter s.c room true lastId into
        events := { s.events with replays := s.events.replays ++ [posts] }
        given := s.given ++ posts } := by
  unfold sit
  dsimp only
  by_cases hguard : s.phase ≠ .seating ∨ s.floor.sitAfter s.c room true lastId into = s.floor
  · rw [if_pos hguard]
    exact .inl rfl
  · rw [if_neg hguard]
    push Not at hguard
    obtain ⟨r, _, _, _, _, hheld⟩ := hwhole.sits hguard.2
    refine .inr ⟨_, hguard.1, hguard.2, hheld, ?_⟩
    have htake : (s.floor.sitAfter s.c room true lastId into).held.take
        ((s.floor.sitAfter s.c room true lastId into).held.length - s.floor.held.length) =
        (r.keptAfter s.floor.heap lastId into).2 := by
      rw [hheld]
      simp
    rw [htake]

theorem call_cases (s : Feed) :
    s.call = s ∨
    ∃ last, s.phase = .idle last ∧
      (s.rung = false ∧ s.events.held = none ∧
          s.call = { s with floor := s.floor.look s.c, phase := .idle (some .drained) } ∨
        s.call = { s with floor := s.floor.look s.c, phase := .finish }) := by
  unfold call
  split
  · rename_i last hphase
    refine .inr ⟨last, hphase, ?_⟩
    dsimp only
    by_cases hquiet : s.rung = false ∧ s.events.held = none
    · rw [if_pos hquiet]
      exact .inl ⟨hquiet.1, hquiet.2, rfl⟩
    · rw [if_neg hquiet]
      exact .inr rfl
  · exact .inl rfl

theorem leave_cases (s : Feed) :
    s.leave = s ∨ s.phase.refs = [] ∧ s.leave = { s with phase := .leaving } := by
  unfold leave
  split
  · rename_i hphase
    exact .inr ⟨by rw [hphase]; rfl, rfl⟩
  · rename_i hphase
    exact .inr ⟨by rw [hphase]; rfl, rfl⟩
  · rename_i hphase
    exact .inr ⟨by rw [hphase]; rfl, rfl⟩
  · exact .inl rfl

theorem owns_other (howns : Owns s.floor s.gained s.released s.refs) {a : Act}
    (hmay : s.mayRelease a = true) : Owns (s.floor.act a) s.gained s.released s.refs := by
  have hwhole := howns.whole.act a
  by_cases hrelease : ∃ k, a = .release k
  · obtain ⟨k, rfl⟩ := hrelease
    refine ⟨hwhole, ?_, howns.balance⟩
    intro q
    have hmine := howns.mine q
    cases hk : s.floor.held[k]? with
    | none =>
      rw [Floor.act, Floor.release, hk]
      exact hmine
    | some p =>
      have hheld := Floor.release_held hk q
      rw [mayRelease, hk] at hmay
      have hlt : s.refs.count p < s.floor.held.count p := by simpa using hmay
      rw [Floor.act]
      rw [List.count_singleton] at hheld
      by_cases hq : p = q
      · subst hq
        simp only [beq_self_eq_true, if_true] at hheld
        omega
      · have hne : (p == q) = false := by simpa using hq
        rw [hne] at hheld
        simp only [Bool.false_eq_true, if_false, Nat.add_zero] at hheld
        omega
  · refine howns.more hwhole (Floor.count_held_act howns.whole ?_)
    intro k heq
    exact hrelease ⟨k, heq⟩

theorem Keeps.step (hs : s.Keeps) (ev : Ev) : (s.step ev).Keeps := by
  have howns := hs.owns
  cases ev with
  | other a =>
    rcases s.other_cases a with heq | ⟨_, hmay, ⟨_, heq⟩ | ⟨_, _, _, _, heq⟩⟩
    · rw [Feed.step, heq]
      exact hs
    · rw [Feed.step, heq]
      exact ⟨owns_other howns hmay, hs.past, hs.gone⟩
    · rw [Feed.step, heq]
      exact ⟨owns_other howns hmay, hs.past, hs.gone⟩
  | sit room lastId into =>
    rcases sit_cases howns.whole room lastId into with heq | ⟨posts, hphase, _, hheld, heq⟩
    · rw [Feed.step, heq]
      exact hs
    · rw [Feed.step, heq]
      refine ⟨?_, hs.past, ?_⟩
      · have hgain : Owns _ (s.gained ++ posts) s.released (s.refs ++ posts) :=
          howns.gain (howns.whole.sitAfter s.c room true lastId into) hheld
        refine (hgain.perm ?_).perm_gained ?_
        · simp only [Feed.refs, Phase.refs, Http2Events.refs, hphase, List.append_nil,
            List.flatten_append, List.flatten_cons, List.flatten_nil, List.append_assoc]
          exact List.perm_append_comm.append_left _
        · simp only [Feed.gained, List.append_assoc]
          refine List.Perm.append_left _ ?_
          rw [← List.append_assoc]
          exact List.perm_append_comm
      · dsimp only
        rw [hphase]
        exact nofun
  | handOver =>
    rw [Feed.step]
    split_ifs with hphase
    · refine ⟨?_, nofun, nofun⟩
      simpa [Feed.refs, Feed.gained, Phase.refs, hphase] using howns
    · exact hs
  | call =>
    have hlook : Owns (s.floor.look s.c) s.gained s.released s.refs :=
      howns.more (howns.whole.look _) fun _ => Nat.le_refl _
    rcases s.call_cases with heq | ⟨last, hphase, ⟨_, hheld, heq⟩ | heq⟩
    · rw [Feed.step, heq]
      exact hs
    · rw [Feed.step, heq]
      refine ⟨?_, nofun, nofun⟩
      simpa [Feed.refs, Feed.gained, Phase.refs, hphase] using hlook
    · rw [Feed.step, heq]
      refine ⟨?_, nofun, nofun⟩
      simpa [Feed.refs, Feed.gained, Phase.refs, hphase] using hlook
  | go t => exact hs.go t
  | leave =>
    rcases s.leave_cases with heq | ⟨hnone, heq⟩
    · rw [Feed.step, heq]
      exact hs
    · rw [Feed.step, heq]
      refine ⟨?_, nofun, nofun⟩
      rw [Feed.refs, hnone] at howns
      exact howns

theorem start_keeps (rooms : List Options) (hbacklog : ∀ o ∈ rooms, 0 < o.backlog) (conns c : Nat)
    (retryMs : Option Nat) : (start rooms conns c retryMs).Keeps := by
  refine ⟨⟨(Floor.start_whole rooms hbacklog conns).ring (some c), ?_, ?_⟩, nofun, nofun⟩
  · intro q
    simp [start, Feed.refs, Feed.gained, Phase.refs, Http2Events.refs]
  · intro q
    simp [start, Feed.refs, Feed.gained, Phase.refs, Http2Events.refs]

end Feed

/-! ## The bytes -/

/-- What is still to be written of an event. -/
def Remainder.rest (left : Remainder) (text : Text.Bytes) : Text.Bytes :=
  if left.pending = [] then text else left.pending.drop left.pendingAt

/-- `out` of an event is written, and the remainder is what is left of it. -/
structure Partway (text : Text.Bytes) (left : Remainder) (out : Text.Bytes) : Prop where
  whole : out ++ left.rest text = text
  more : left.pending ≠ [] → left.pendingAt < left.pending.length

theorem partway_new (text : Text.Bytes) {left : Remainder} (h : left.pending = []) :
    Partway text left [] :=
  ⟨by rw [Remainder.rest, if_pos h]; rfl, fun hne => absurd h hne⟩

/-- How a write goes: the event is all out, or partway, or cut where the write failed. -/
theorem write_spec {text out : Text.Bytes} {left : Remainder} (hp : Partway text left out)
    (htext : text ≠ []) (t : Turn) :
    match write text left t with
    | (.whole, left', bytes) => out ++ bytes = text ∧ left'.pending = []
    | (.part, left', bytes) => Partway text left' (out ++ bytes)
    | (.failed, _, bytes) => out ++ bytes <+: text := by
  have hlen : 0 < text.length := List.length_pos_iff.mpr htext
  have hrest := hp.whole
  unfold write
  by_cases hroom : t.room = 0
  · rw [if_pos hroom]
    simpa using hp
  rw [if_neg hroom]
  by_cases hnew : left.pending = []
  · rw [if_pos hnew]
    rw [Remainder.rest, if_pos hnew] at hrest
    have hout : out = [] := by simpa using hrest
    subst hout
    by_cases hformat : t.fault = some .format
    · rw [if_pos hformat]
      exact List.nil_prefix
    rw [if_neg hformat]
    by_cases hput : t.fault = some .put
    · rw [if_pos hput]
      exact List.take_prefix _ _
    rw [if_neg hput]
    by_cases hall : t.puts text = text.length
    · rw [if_pos hall]
      exact ⟨rfl, hnew⟩
    rw [if_neg hall]
    by_cases hkeep : t.fault = some .keep
    · rw [if_pos hkeep]
      exact List.take_prefix _ _
    rw [if_neg hkeep]
    have hlt : t.puts text < text.length := by
      have hle : t.puts text ≤ text.length := Nat.min_le_right _ _
      omega
    have hne : text.drop (t.puts text) ≠ [] := by
      rw [← List.length_pos_iff, List.length_drop]
      omega
    refine ⟨?_, ?_⟩
    · rw [Remainder.rest, if_neg hne]
      simp
    · intro _
      exact List.length_pos_iff.mpr hne
  · rw [if_neg hnew]
    rw [Remainder.rest, if_neg hnew] at hrest
    have hmore := hp.more hnew
    dsimp only
    by_cases hput : t.fault = some .put
    · rw [if_pos hput]
      conv_rhs => rw [← hrest]
      exact (List.prefix_append_right_inj out).mpr (List.take_prefix _ _)
    rw [if_neg hput]
    have hbytes : (left.pending.drop left.pendingAt).length =
        left.pending.length - left.pendingAt := List.length_drop
    have hle : t.puts (left.pending.drop left.pendingAt) ≤
        left.pending.length - left.pendingAt := by
      rw [← hbytes]
      exact Nat.min_le_right _ _
    by_cases hpart : left.pendingAt + t.puts (left.pending.drop left.pendingAt) <
        left.pending.length
    · rw [if_pos hpart]
      refine ⟨?_, fun _ => hpart⟩
      rw [Remainder.rest, if_neg hnew, List.append_assoc]
      conv_rhs => rw [← hrest]
      rw [← List.drop_drop, List.take_append_drop]
    · rw [if_neg hpart]
      refine ⟨?_, rfl⟩
      rw [List.take_of_length_le (by omega)]
      exact hrest

theorem writeEvent_ne_nil (post : Post) : writeEvent post ≠ [] := by
  intro h
  have hlen := congrArg List.length h
  simp [writeEvent] at hlen

/-- A post that is there is never written as nothing. -/
theorem Held.text_ne_nil {h : Heap} {item : Held} (hknown : ∀ p ∈ item.refs, p < h.length) :
    item.text h ≠ [] := by
  cases item with
  | retry millis =>
    intro heq
    have hlen := congrArg List.length heq
    simp [Held.text] at hlen
  | post p =>
    have hp : p < h.length := hknown p (by simp [Held.refs])
    rw [Held.text, List.getElem?_eq_getElem hp]
    exact writeEvent_ne_nil _

theorem Held.text_extend {h h' : Heap} (hposts : h.posts <+: h'.posts) {item : Held}
    (hknown : ∀ p ∈ item.refs, p < h.length) : item.text h' = item.text h := by
  cases item with
  | retry millis => rfl
  | post p =>
    have hp : p < h.length := hknown p (by simp [Held.refs])
    have hp' : p < h'.length := Nat.lt_of_lt_of_le hp (length_le_of_posts hposts)
    obtain ⟨more, hmore⟩ := hposts
    have hpost : (h'[p]).post = (h[p]).post := by
      have hget : h'.posts[p]? = h.posts[p]? := by
        rw [← hmore, List.getElem?_append_left (by simpa [Heap.posts] using hp)]
      simpa [Heap.posts, List.getElem?_eq_getElem hp, List.getElem?_eq_getElem hp'] using hget
    rw [Held.text, Held.text, List.getElem?_eq_getElem hp, List.getElem?_eq_getElem hp']
    dsimp only
    rw [hpost]

/-- Of a script, what comes before the current event is written, and of that as much as is out;
`owed` is still to come. -/
structure Script (h : Heap) (script current owed : List Held) (wire : Text.Bytes)
    (left : Remainder) : Prop where
  parts : ∃ done out, script = done ++ current ++ owed ∧ wire = done.flatMap (Held.text h) ++ out ∧
    (current = [] → out = [] ∧ left.pending = []) ∧
    ∀ item ∈ current, Partway (item.text h) left out

namespace Script

variable {h h' : Heap} {script current owed : List Held} {wire : Text.Bytes} {left : Remainder}
  {item : Held}

theorem cut (hs : Script h script current owed wire left) :
    wire <+: script.flatMap (Held.text h) := by
  obtain ⟨done, out, rfl, rfl, hnone, hsome⟩ := hs.parts
  rw [List.append_assoc, List.flatMap_append]
  refine (List.prefix_append_right_inj _).mpr ?_
  cases current with
  | nil =>
    rw [(hnone rfl).1]
    exact List.nil_prefix
  | cons item rest =>
    have hwhole := (hsome item (by simp)).whole
    rw [List.cons_append, List.flatMap_cons, ← hwhole, List.append_assoc]
    exact List.prefix_append _ _

theorem flatMap_text (hposts : h.posts <+: h'.posts) {items : List Held}
    (hknown : ∀ item ∈ items, ∀ p ∈ item.refs, p < h.length) :
    items.flatMap (Held.text h') = items.flatMap (Held.text h) := by
  refine List.flatMap_congr ?_
  intro item hitem
  exact Held.text_extend hposts (hknown item hitem)

/-- What the posts say stays. -/
theorem extend (hs : Script h script current owed wire left) (hposts : h.posts <+: h'.posts)
    (hknown : ∀ item ∈ script, ∀ p ∈ item.refs, p < h.length) :
    Script h' script current owed wire left := by
  obtain ⟨done, out, rfl, rfl, hnone, hsome⟩ := hs.parts
  refine ⟨done, out, rfl, ?_, hnone, ?_⟩
  · rw [flatMap_text hposts]
    intro item hitem
    exact hknown item (List.mem_append_left _ (List.mem_append_left _ hitem))
  · intro item hitem
    rw [Held.text_extend hposts]
    · exact hsome item hitem
    · exact hknown item (List.mem_append_left _ (List.mem_append_right _ hitem))

theorem next (hs : Script h script [] (item :: owed) wire left) :
    Script h script [item] owed wire left := by
  obtain ⟨done, out, rfl, rfl, hnone, -⟩ := hs.parts
  obtain ⟨rfl, hleft⟩ := hnone rfl
  refine ⟨done, [], by simp, rfl, by simp, ?_⟩
  intro item' hitem'
  exact partway_new _ hleft

theorem more (hs : Script h script [] owed wire left) (items : List Held) :
    Script h (script ++ items) [] (owed ++ items) wire left := by
  obtain ⟨done, out, rfl, rfl, hnone, -⟩ := hs.parts
  exact ⟨done, out, by simp, rfl, hnone, by simp⟩

theorem writes (hs : Script h script [item] owed wire left)
    (hknown : ∀ p ∈ item.refs, p < h.length) (t : Turn) :
    match write (item.text h) left t with
    | (.whole, left', bytes) => Script h script [] owed (wire ++ bytes) left'
    | (.part, left', bytes) => Script h script [item] owed (wire ++ bytes) left'
    | (.failed, _, bytes) => wire ++ bytes <+: script.flatMap (Held.text h) := by
  obtain ⟨done, out, rfl, rfl, -, hsome⟩ := hs.parts
  have hspec := write_spec (hsome item (by simp)) (Held.text_ne_nil hknown) t
  generalize write (item.text h) left t = res at hspec ⊢
  obtain ⟨w, left', bytes⟩ := res
  cases w with
  | whole =>
    refine ⟨done ++ [item], [], by simp, ?_, fun _ => ⟨rfl, hspec.2⟩, by simp⟩
    rw [List.append_assoc, hspec.1]
    simp
  | part =>
    refine ⟨done, out ++ bytes, rfl, by rw [List.append_assoc], by simp, ?_⟩
    intro item' hitem'
    rw [List.mem_singleton] at hitem'
    rw [hitem']
    exact hspec
  | failed =>
    dsimp only
    rw [List.append_assoc, List.append_assoc, List.flatMap_append]
    refine (List.prefix_append_right_inj _).mpr (hspec.trans ?_)
    rw [List.singleton_append, List.flatMap_cons]
    exact List.prefix_append _ _

end Script

namespace Feed

/-- Everything the stream is to write, as far as it is known. -/
def script (retryMs : Option Nat) (s : Feed) : List Held :=
  retryMs.toList.map Held.retry ++ (s.given ++ s.taken.map (·.2)).map Held.post

/-- The event it is at. -/
def current (s : Feed) : List Held := s.events.held.toList ++ s.phase.refs.map Held.post

end Feed

/-- Before an error or `leave`. -/
def Phase.live : Phase → Bool
  | .failed | .leaving | .letGoHeld | .letGoReplays | .gone => false
  | _ => true

/-- Past what is owed. -/
def Phase.walks : Phase → Bool
  | .walk _ | .took _ _ | .idle (some .drained) => true
  | _ => false

namespace Feed

variable {s : Feed} {retryMs : Option Nat}

structure Writes (retryMs : Option Nat) (s : Feed) : Prop where
  known : ∀ p ∈ s.given ++ s.taken.map (·.2), p < s.floor.heap.length
  cut : s.wire <+: (s.script retryMs).flatMap (Held.text s.floor.heap)
  live : s.phase.live = true → Script s.floor.heap (s.script retryMs) s.current s.events.owed s.wire
    s.events.left
  walks : s.phase.walks = true → s.events.owed = [] ∧ s.events.held = none
  early : s.phase = .seating → s.taken = [] ∧ s.events.held = none
  blocked : s.phase = .idle (some .blocked) → s.events.held ≠ none

theorem Writes.known_item (hw : s.Writes retryMs) :
    ∀ item ∈ s.script retryMs, ∀ p ∈ item.refs, p < s.floor.heap.length := by
  intro item hitem p hp
  rcases List.mem_append.mp hitem with hretry | hpost
  · obtain ⟨millis, -, rfl⟩ := List.mem_map.mp hretry
    cases hp
  · obtain ⟨q, hq, rfl⟩ := List.mem_map.mp hpost
    rw [Held.refs, List.mem_singleton] at hp
    rw [hp]
    exact hw.known q hq

end Feed

namespace Feed

variable {s s' : Feed} {retryMs : Option Nat}

/-- A step that only changes the floor. -/
theorem Writes.congr (hw : s.Writes retryMs)
    (hposts : s.floor.heap.posts <+: s'.floor.heap.posts) (hgiven : s'.given = s.given)
    (htaken : s'.taken = s.taken) (hwire : s'.wire = s.wire) (hevents : s'.events = s.events)
    (hphase : s'.phase = s.phase) : s'.Writes retryMs := by
  have hscript : s'.script retryMs = s.script retryMs := by
    rw [script, script, hgiven, htaken]
  have hcurrent : s'.current = s.current := by
    rw [current, current, hevents, hphase]
  refine ⟨?_, ?_, ?_, ?_, ?_, ?_⟩
  · intro p hp
    rw [hgiven, htaken] at hp
    exact Nat.lt_of_lt_of_le (hw.known p hp) (length_le_of_posts hposts)
  · rw [hwire, hscript, Script.flatMap_text hposts hw.known_item]
    exact hw.cut
  · intro hlive
    rw [hphase] at hlive
    rw [hscript, hcurrent, hwire, hevents]
    exact (hw.live hlive).extend hposts hw.known_item
  · rw [hphase, hevents]
    exact hw.walks
  · rw [hphase, hevents, htaken]
    exact hw.early
  · rw [hphase, hevents]
    exact hw.blocked

theorem Writes.release (hw : s.Writes retryMs) (item : Held) : (s.release item).Writes retryMs := by
  cases item with
  | retry millis => exact hw
  | post p =>
    obtain ⟨heap, held, hfloor, hposts⟩ := s.floor.letGo_fields p
    refine hw.congr ?_ rfl rfl rfl rfl rfl
    rw [Feed.release, hfloor]
    exact hposts ▸ List.prefix_refl _

/-- What a write of the current event leaves, with the event held until it is all out. -/
theorem writes_writeHeld {item : Held} {t : Turn}
    (hknown : ∀ p ∈ s.given ++ s.taken.map (·.2), p < s.floor.heap.length)
    (hitem : ∀ p ∈ item.refs, p < s.floor.heap.length)
    (hs : Script s.floor.heap (s.script retryMs) [item] s.events.owed s.wire s.events.left)
    (hheld : s.events.held = some item) : (s.writeHeld item t .owed).Writes retryMs := by
  have hspec := hs.writes hitem t
  unfold writeHeld
  dsimp only
  generalize write (item.text s.floor.heap) s.events.left t = res at hspec ⊢
  obtain ⟨w, left', bytes⟩ := res
  cases w with
  | failed => exact ⟨hknown, hspec, nofun, nofun, nofun, nofun⟩
  | part =>
    refine ⟨hknown, hspec.cut, ?_, nofun, nofun, ?_⟩
    · intro _
      show Script s.floor.heap (s.script retryMs) (s.events.held.toList ++ []) s.events.owed
        (s.wire ++ bytes) left'
      rw [hheld]
      exact hspec
    · intro _
      simp [hheld]
  | whole =>
    dsimp only at hspec ⊢
    refine Writes.release ?_ item
    refine ⟨hknown, hspec.cut, ?_, nofun, nofun, nofun⟩
    intro _
    exact hspec

theorem writes_writeTaken {seating : Seating} {p : PostId} {t : Turn}
    (hknown : ∀ q ∈ s.given ++ s.taken.map (·.2), q < s.floor.heap.length)
    (hitem : p < s.floor.heap.length)
    (hs : Script s.floor.heap (s.script retryMs) [.post p] s.events.owed s.wire s.events.left)
    (howed : s.events.owed = []) (hheld : s.events.held = none) :
    (s.writeTaken seating p t).Writes retryMs := by
  have hspec := hs.writes (by simpa [Held.refs] using hitem) t
  unfold writeTaken
  dsimp only
  generalize write ((Held.post p).text s.floor.heap) s.events.left t = res at hspec ⊢
  obtain ⟨w, left', bytes⟩ := res
  cases w with
  | failed =>
    dsimp only at hspec ⊢
    refine Writes.release ?_ _
    exact ⟨hknown, hspec, nofun, nofun, nofun, nofun⟩
  | part =>
    dsimp only at hspec ⊢
    refine Writes.release ?_ _
    have hposts : s.floor.heap.posts <+: (s.floor.addRef p).heap.posts := by
      rw [Floor.addRef]
      exact (Heap.posts_addRef s.floor.heap p).symm ▸ List.prefix_refl _
    have hw : Writes retryMs { s with
        events := { s.events with held := some (.post p), left := left' }
        wire := s.wire ++ bytes
        phase := .idle (some .blocked) } := by
      refine ⟨hknown, hspec.cut, ?_, nofun, nofun, ?_⟩
      · intro _
        exact hspec
      · intro _
        simp
    exact hw.congr hposts rfl rfl rfl rfl rfl
  | whole =>
    dsimp only at hspec ⊢
    refine Writes.release ?_ _
    refine ⟨hknown, hspec.cut, ?_, ?_, nofun, nofun⟩
    · intro _
      show Script s.floor.heap (s.script retryMs) (s.events.held.toList ++ []) s.events.owed
        (s.wire ++ bytes) left'
      rw [hheld]
      exact hspec
    · intro _
      exact ⟨howed, hheld⟩

end Feed

theorem Floor.Whole.known {f : Floor} (hf : f.Whole) {p : Nat} (hp : p ∈ f.held) :
    p < f.heap.length := by
  have hpos : 0 < f.heap.refs p := by
    rw [hf.counted]
    exact List.count_pos_iff.mpr (List.mem_append_right _ (List.mem_append_right _ hp))
  obtain ⟨cell, hcell, _⟩ := Heap.exists_cell hpos
  exact (List.getElem?_eq_some_iff.mp hcell).1

theorem Script.mem {h : Heap} {script owed : List Held} {item : Held} {wire : Text.Bytes}
    {left : Remainder} (hs : Script h script [item] owed wire left) : item ∈ script := by
  obtain ⟨done, out, rfl, -⟩ := hs.parts
  simp

namespace Feed

variable {s s' : Feed} {retryMs : Option Nat}

/-- The script, in a phase with no post in hand. -/
theorem Writes.quiet (hw : s.Writes retryMs) (hlive : s.phase.live = true)
    (hrefs : s.phase.refs = []) :
    Script s.floor.heap (s.script retryMs) (s.events.held.toList ++ []) s.events.owed s.wire
      s.events.left := by
  have hscript := hw.live hlive
  rw [current, hrefs] at hscript
  exact hscript

theorem Writes.go (hw : s.Writes retryMs) (hs : s.Keeps) (t : Turn) :
    (s.go t).Writes retryMs := by
  have hwhole := hs.owns.whole
  generalize hs' : s.go t = s'
  have hgo : GoStep s t s' := hs' ▸ s.go_cases t
  cases hgo with
  | rest => exact hw
  | past hphase hheld =>
    refine ⟨hw.known, hw.cut, ?_, nofun, nofun, nofun⟩
    exact fun _ => hw.quiet (by rw [hphase]; rfl) (by rw [hphase]; rfl)
  | write item e hitem =>
    rcases hitem with ⟨hphase, hheld, rfl⟩ | ⟨e', hphase, hnext, rfl⟩
    · have hlive := hw.live (by rw [hphase]; rfl)
      have hcurrent : s.current = [item] := by simp [current, Phase.refs, hphase, hheld]
      rw [hcurrent] at hlive
      exact writes_writeHeld hw.known (hw.known_item item hlive.mem) hlive hheld
    · obtain ⟨howed, -, hheld', hleft⟩ := Http2Events.nextOwed_some hnext
      have hnone := hs.past (by rw [hphase]; rfl)
      have hlive := hw.live (by rw [hphase]; rfl)
      have hcurrent : s.current = [] := by simp [current, Phase.refs, hphase, hnone]
      rw [hcurrent, howed, ← hleft] at hlive
      exact writes_writeHeld hw.known (hw.known_item item hlive.next.mem) hlive.next rfl
  | first conn hphase hnext hconn =>
    refine ⟨hw.known, hw.cut, ?_, ?_, nofun, nofun⟩
    · exact fun _ => hw.quiet (by rw [hphase]; rfl) (by rw [hphase]; rfl)
    · intro _
      exact ⟨Http2Events.nextOwed_none hnext, hs.past (by rw [hphase]; rfl)⟩
  | drained seating hphase hroom =>
    refine ⟨hw.known, hw.cut, ?_, ?_, nofun, nofun⟩
    · exact fun _ => hw.quiet (by rw [hphase]; rfl) (by rw [hphase]; rfl)
    · intro _
      exact hw.walks (by rw [hphase]; rfl)
  | next seating room hphase hroom htake =>
    refine ⟨hw.known, hw.cut, ?_, ?_, nofun, nofun⟩
    · exact fun _ => hw.quiet (by rw [hphase]; rfl) (by rw [hphase]; rfl)
    · intro _
      exact hw.walks (by rw [hphase]; rfl)
  | take seating room p f hphase hroom htake =>
    have hwhole' := hwhole.takeAt htake
    obtain ⟨r, r', hr, -, rfl⟩ := Floor.takeAt_some htake
    have hp : p < s.floor.heap.length := hwhole'.known List.mem_cons_self
    obtain ⟨howed, hnone⟩ := hw.walks (by rw [hphase]; rfl)
    have hlive := hw.live (by rw [hphase]; rfl)
    have hcurrent : s.current = [] := by simp [current, Phase.refs, hphase, hnone]
    rw [hcurrent, howed] at hlive
    have hscript : script retryMs { s with
        floor := { s.floor with rooms := s.floor.rooms.set room r', held := p :: s.floor.held }
        phase := .took seating p
        taken := s.taken ++ [(room, p)] } = s.script retryMs ++ [.post p] := by
      simp [script]
    have hmore := (hlive.more [.post p]).next
    refine ⟨?_, ?_, ?_, ?_, nofun, nofun⟩
    · intro q hq
      rw [List.map_append, ← List.append_assoc] at hq
      rcases List.mem_append.mp hq with hq | hq
      · exact hw.known q hq
      · rw [List.map_cons, List.map_nil, List.mem_singleton] at hq
        rw [hq]
        exact hp
    · rw [hscript]
      exact hmore.cut
    · intro _
      rw [hscript]
      simpa [current, Phase.refs, hnone, howed] using hmore
    · intro _
      exact ⟨howed, hnone⟩
  | taken seating p hphase =>
    obtain ⟨howed, hnone⟩ := hw.walks (by rw [hphase]; rfl)
    have hlive := hw.live (by rw [hphase]; rfl)
    have hcurrent : s.current = [.post p] := by simp [current, Phase.refs, hphase, hnone]
    rw [hcurrent] at hlive
    have hp : p < s.floor.heap.length := hw.known_item _ hlive.mem p (by simp [Held.refs])
    exact writes_writeTaken hw.known hp hlive howed hnone
  | giveUp hphase =>
    exact hw.congr (Floor.act_posts hwhole (.giveUp s.c)) rfl rfl rfl rfl rfl
  | unlink room hphase =>
    exact hw.congr (Floor.act_posts hwhole (.unlink s.c room)) rfl rfl rfl rfl rfl
  | stood hphase => exact ⟨hw.known, hw.cut, nofun, nofun, nofun, nofun⟩
  | letGoNone s' hphase hheld heq =>
    subst heq
    exact ⟨hw.known, hw.cut, nofun, nofun, nofun, nofun⟩
  | letGoHeld s' item hphase hheld heq =>
    subst heq
    refine Writes.release ?_ item
    exact ⟨hw.known, hw.cut, nofun, nofun, nofun, nofun⟩
  | letGoReplay p replays hphase hnext =>
    refine Writes.release ?_ _
    refine ⟨hw.known, hw.cut, ?_, ?_, ?_, ?_⟩ <;> rw [hphase] <;> exact nofun
  | gone hphase hnext => exact ⟨hw.known, hw.cut, nofun, nofun, nofun, nofun⟩

theorem Writes.step (hw : s.Writes retryMs) (hs : s.Keeps)
    (hfresh : s.phase = .idle none → s.rung = true) (ev : Ev) : (s.step ev).Writes retryMs := by
  have hwhole := hs.owns.whole
  cases ev with
  | other a =>
    have hposts := Floor.act_posts hwhole a
    rcases s.other_cases a with heq | ⟨_, _, ⟨_, heq⟩ | ⟨_, _, _, _, heq⟩⟩
    · rw [Feed.step, heq]
      exact hw
    · rw [Feed.step, heq]
      exact hw.congr hposts rfl rfl rfl rfl rfl
    · rw [Feed.step, heq]
      exact hw.congr hposts rfl rfl rfl rfl rfl
  | sit room lastId into =>
    rcases sit_cases hwhole room lastId into with heq | ⟨posts, hphase, _, hheld, heq⟩
    · rw [Feed.step, heq]
      exact hw
    · rw [Feed.step, heq]
      have hposts := Floor.act_posts hwhole (.sitAfter s.c room true lastId into)
      have hwhole' : (s.floor.sitAfter s.c room true lastId into).Whole :=
        hwhole.sitAfter s.c room true lastId into
      obtain ⟨htaken, hnone⟩ := hw.early hphase
      have hlive := (hw.live (by rw [hphase]; rfl)).extend hposts hw.known_item
      have hcurrent : s.current = [] := by simp [current, Phase.refs, hphase, hnone]
      rw [hcurrent] at hlive
      have hmore := hlive.more (posts.map Held.post)
      have hscript : script retryMs { s with
          floor := s.floor.sitAfter s.c room true lastId into
          events := { s.events with replays := s.events.replays ++ [posts] }
          given := s.given ++ posts } = s.script retryMs ++ posts.map .post := by
        simp [script, htaken]
      refine ⟨?_, ?_, ?_, ?_, ?_, ?_⟩
      · intro p hp
        dsimp only at hp
        rw [htaken, List.map_nil, List.append_nil] at hp
        rcases List.mem_append.mp hp with hp | hp
        · exact Nat.lt_of_lt_of_le (hw.known p (List.mem_append_left _ hp))
            (length_le_of_posts hposts)
        · exact hwhole'.known (hheld ▸ List.mem_append_left _ hp)
      · rw [hscript]
        exact hmore.cut
      · intro _
        rw [hscript]
        simpa [current, Phase.refs, hphase, hnone, Http2Events.owed, Floor.act] using hmore
      · rw [hphase]
        rintro ⟨⟩
      · intro _
        exact ⟨htaken, hnone⟩
      · rw [hphase]
        rintro ⟨⟩
  | handOver =>
    rw [Feed.step]
    split_ifs with hphase
    · refine ⟨hw.known, hw.cut, ?_, (by rintro ⟨⟩), (by rintro ⟨⟩), (by rintro ⟨⟩)⟩
      exact fun _ => hw.quiet (by rw [hphase]; rfl) (by rw [hphase]; rfl)
    · exact hw
  | call =>
    rcases s.call_cases with heq | ⟨last, hphase, ⟨hquiet, hheld, heq⟩ | heq⟩
    · rw [Feed.step, heq]
      exact hw
    · rw [Feed.step, heq]
      refine ⟨hw.known, hw.cut, ?_, ?_, (by rintro ⟨⟩), (by rintro ⟨⟩)⟩
      · exact fun _ => hw.quiet (by rw [hphase]; rfl) (by rw [hphase]; rfl)
      · intro _
        refine ⟨?_, hheld⟩
        -- nothing was rung and nothing is held: the last call found everything written
        cases last with
        | none =>
          rw [hfresh hphase] at hquiet
          cases hquiet
        | some outcome =>
          cases outcome with
          | drained => exact (hw.walks (by rw [hphase]; rfl)).1
          | blocked => exact absurd hheld (hw.blocked hphase)
    · rw [Feed.step, heq]
      refine ⟨hw.known, hw.cut, ?_, (by rintro ⟨⟩), (by rintro ⟨⟩), (by rintro ⟨⟩)⟩
      exact fun _ => hw.quiet (by rw [hphase]; rfl) (by rw [hphase]; rfl)
  | go t => exact hw.go hs t
  | leave =>
    rcases s.leave_cases with heq | ⟨_, heq⟩
    · rw [Feed.step, heq]
      exact hw
    · rw [Feed.step, heq]
      exact ⟨hw.known, hw.cut, (by rintro ⟨⟩), (by rintro ⟨⟩), (by rintro ⟨⟩), (by rintro ⟨⟩)⟩

end Feed

end Nilo.Rooms
