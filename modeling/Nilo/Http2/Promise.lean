import Nilo.Http2.Accounts
import Nilo.Http2.Flow

/-!
# GOAWAY, grants, and the invariant as a whole

* `PromiseOk` — what a GOAWAY says stays true: a call that has its headers is
  never past the last stream it named, and, when none is written while a request's
  header block is open, no stream up to that one is refused.
* `GrantsKept` of the history — window and room went to whom the budget allows.
* `Good` — all the invariants, which every move keeps (`Move.good`).
-/

namespace Nilo.Http2

open Nilo.Lib

variable {D : Type} {B : Nat} {nice : Prop}

/-! ## Histories -/

theorem Calm.trace {k k' : Core D} (h : Calm B k k') :
    k'.trace = k.trace ∨ ∃ e : Event, e.routine = true ∧ k'.trace = e :: k.trace := by
  cases h with
  | wrote f hf _ _ => exact .inr ⟨.wrote f, hf, rfl⟩
  | data r id payload e _ _ _ _ => exact .inr ⟨.wrote (.data id payload e), rfl, rfl⟩
  | granted id table _ => exact .inr ⟨.topped id table, rfl, rfl⟩
  | admitted id room table _ => exact .inr ⟨.admitted id room table, rfl, rfl⟩
  | _ => exact .inl rfl

theorem Calm.reading {k k' : Core D} (h : Calm B k k') (hr : k'.reading = true) :
    k.reading = true := by
  cases h with
  | shut | overpaid => cases hr
  | _ => exact hr

/-- An event no GOAWAY has to do with. -/
structure Event.Neutral (e : Event) : Prop where
  goaways : ∀ t, Nilo.Http2.goaways (e :: t) = Nilo.Http2.goaways t
  starts : ∀ {t}, StartsKept t → StartsKept (e :: t)
  refusals : ∀ {t}, RefusalsKept t → RefusalsKept (e :: t)

theorem Event.neutral_of_routine {e : Event} (h : e.routine = true) : e.Neutral := by
  cases e with
  | wrote f =>
    cases f with
    | settingsAck | goaway => cases h
    | rstStream _ code =>
      cases code with
      | refusedStream => cases h
      | _ => exact ⟨fun _ => rfl, id, id⟩
    | _ => exact ⟨fun _ => rfl, id, id⟩
  | topped | admitted => exact ⟨fun _ => rfl, id, id⟩
  | _ => cases h

/-! ## GOAWAY -/

structure PromiseOk (nice : Prop) (k : Core D) : Prop where
  silent : k.goawaySent = false → goaways k.trace = []
  last : ∀ last ∈ goaways k.trace, last ≤ k.lastStream
  reach : ∀ last ∈ goaways k.trace, ∀ s ∈ k.standings, s.phase ≠ .headers → s.id ≤ last
  starts : StartsKept k.trace
  refusals : nice → RefusalsKept k.trace
  half : nice → k.reading = true →
    ∀ last ∈ goaways k.trace, ∀ s ∈ k.standings, s.phase = .headers → last < s.id

namespace PromiseOk

variable {k k' : Core D}

/-- A move that says nothing of a GOAWAY and brings no stream past its headers. -/
theorem keep (hk : PromiseOk nice k) (hg : k'.goawaySent = k.goawaySent)
    (hl : k'.lastStream = k.lastStream) (hr : k'.reading = true → k.reading = true)
    (ht : k'.trace = k.trace ∨ ∃ e : Event, e.Neutral ∧ k'.trace = e :: k.trace)
    (hs : ∀ s' ∈ k'.standings, ∃ s ∈ k.standings, s'.id = s.id ∧
      (s'.phase = .headers ↔ s.phase = .headers)) : PromiseOk nice k' := by
  have hgo : goaways k'.trace = goaways k.trace := by
    rcases ht with ht | ⟨e, he, ht⟩
    · rw [ht]
    · rw [ht, he.goaways]
  refine ⟨?_, ?_, ?_, ?_, ?_, ?_⟩
  · rw [hg, hgo]
    exact hk.silent
  · rw [hgo, hl]
    exact hk.last
  · rw [hgo]
    intro last hlast s' hs' hp
    obtain ⟨s, hmem, hid, hph⟩ := hs s' hs'
    rw [hid]
    exact hk.reach last hlast s hmem fun h => hp (hph.2 h)
  · rcases ht with ht | ⟨e, he, ht⟩
    · rw [ht]
      exact hk.starts
    · rw [ht]
      exact he.starts hk.starts
  · intro hn
    rcases ht with ht | ⟨e, he, ht⟩
    · rw [ht]
      exact hk.refusals hn
    · rw [ht]
      exact he.refusals (hk.refusals hn)
  · rw [hgo]
    intro hn hread last hlast s' hs' hp
    obtain ⟨s, hmem, hid, hph⟩ := hs s' hs'
    rw [hid]
    exact hk.half hn (hr hread) last hlast s hmem (hph.1 hp)

/-- The standings of a change that keeps ids and phases. -/
theorem standings_same {r : Ref} {f : Line → Line} (hi : ∀ l, (f l).id = l.id)
    (hp : ∀ l, (f l).phase = l.phase) :
    ∀ s' ∈ (k.edit r f).standings, ∃ s ∈ k.standings, s'.id = s.id ∧
      (s'.phase = .headers ↔ s.phase = .headers) := by
  intro s' hs'
  obtain ⟨l', hl', rfl⟩ := List.mem_map.1 hs'
  obtain ⟨l, hl, rfl⟩ := mem_edit.1 hl'
  refine ⟨l.toStanding, List.mem_map_of_mem hl, ?_, ?_⟩
  · split
    · exact hi l
    · rfl
  · split
    · rw [hp]
    · rfl

theorem edit_same (hk : PromiseOk nice k) {r : Ref} {f : Line → Line} (hi : ∀ l, (f l).id = l.id)
    (hp : ∀ l, (f l).phase = l.phase) : PromiseOk nice (k.edit r f) :=
  hk.keep rfl rfl id (.inl rfl) (standings_same hi hp)

/-- A stream gets past its headers while no GOAWAY has been sent. -/
theorem begin (hk : PromiseOk nice k) {r : Ref} {f : Line → Line} (hi : ∀ l, (f l).id = l.id)
    (hp : ∀ l, (f l).phase ≠ .headers)
    (hon : k.On r fun l => l.phase = .headers → k.goawaySent = false) :
    PromiseOk nice (k.edit r f) := by
  refine ⟨hk.silent, hk.last, ?_, hk.starts, hk.refusals, ?_⟩
  · intro last hlast s' hs' hph
    obtain ⟨l', hl', rfl⟩ := List.mem_map.1 hs'
    obtain ⟨l, hl, rfl⟩ := mem_edit.1 hl'
    have hl'' : l.toStanding ∈ k.standings := List.mem_map_of_mem hl
    by_cases hr : l.ref = r
    · simp only [if_pos hr, hi]
      refine hk.reach last hlast _ hl'' ?_
      intro hhead
      -- there is no GOAWAY for it to be past
      have hnone : goaways (k.edit r f).trace = [] := hk.silent (hon l hl hr hhead)
      rw [hnone] at hlast
      cases hlast
    · simp only [if_neg hr] at hph ⊢
      exact hk.reach last hlast _ hl'' hph
  · intro hn hread last hlast s' hs' hph
    obtain ⟨l', hl', rfl⟩ := List.mem_map.1 hs'
    obtain ⟨l, hl, rfl⟩ := mem_edit.1 hl'
    by_cases hr : l.ref = r
    · simp only [if_pos hr] at hph
      exact absurd hph (hp l)
    · simp only [if_neg hr] at hph ⊢
      exact hk.half hn hread last hlast _ (List.mem_map_of_mem hl) hph

end PromiseOk

theorem Calm.promiseOk {k k' : Core D} (h : Calm B k k') (hk : PromiseOk nice k) :
    PromiseOk nice k' := by
  refine hk.keep (by rw [h.bearing]) (by rw [h.bearing]) h.reading ?_ ?_
  · rcases h.trace with ht | ⟨e, he, ht⟩
    · exact .inl ht
    · exact .inr ⟨e, Event.neutral_of_routine he, ht⟩
  · rw [h.standings]
    exact fun s hs => ⟨s, hs, rfl, Iff.rfl⟩

theorem Taking.promiseOk {k k' : Core D} (h : Taking B k k') (hk : PromiseOk nice k) :
    PromiseOk nice k' := by
  cases h with
  | calm h => exact h.promiseOk hk
  | overran r n =>
    exact hk.keep rfl rfl nofun (.inl rfl) (PromiseOk.standings_same (fun _ => rfl) fun _ => rfl)
  | _ => exact hk.edit_same (fun _ => rfl) fun _ => rfl

theorem Plain.promiseOk {k k' : Core D} (h : Plain B nice k k')
    (ht : TableOk k.toBearing k.standings) (hk : PromiseOk nice k) : PromiseOk nice k' := by
  have all {s : Standing} (hs : s ∈ k.standings) : ∃ s' ∈ k.standings, s.id = s'.id ∧
      (s.phase = .headers ↔ s'.phase = .headers) := ⟨s, hs, rfl, Iff.rfl⟩
  cases h with
  | calm h => exact h.promiseOk hk
  | launch r hon =>
    refine hk.begin (fun _ => rfl) (fun _ => nofun) ?_
    intro l hl hr hp
    rcases hon l hl hr with hrun | ⟨-, -, hgo, -⟩
    · rw [hp] at hrun
      cases hrun
    · exact hgo
  | answering r _ hon =>
    exact hk.begin (fun _ => rfl) (fun _ => nofun) fun l hl hr hp => ((hon l hl hr).2.2 hp).2.1
  | started r id hr hon =>
    obtain ⟨l, hl, rfl⟩ := List.mem_map.1 hr
    obtain ⟨rfl, hp⟩ := hon l hl rfl
    refine ⟨hk.silent, hk.last, hk.reach, ⟨?_, hk.starts⟩, hk.refusals, hk.half⟩
    exact fun last hlast => hk.reach last hlast l.toStanding (List.mem_map_of_mem hl) hp
  | leave r id why _ _ _ hwhy =>
    have hs : ∀ s ∈ (k.lines.filter fun l => l.ref != r).map (·.toStanding), s ∈ k.standings := by
      intro s hs
      obtain ⟨l, hl, rfl⟩ := List.mem_map.1 hs
      exact List.mem_map_of_mem (List.mem_of_mem_filter hl)
    refine ⟨hk.silent, hk.last, ?_, hk.starts, ?_, ?_⟩
    · exact fun last hlast s hmem => hk.reach last hlast s (hs s hmem)
    · intro hn
      cases why with
      | refusedGoaway => exact ⟨hwhy rfl hn, hk.refusals hn⟩
      | _ => exact hk.refusals hn
    · exact fun hn hread last hlast s hmem => hk.half hn hread last hlast s (hs s hmem)
  | refuse id hid =>
    exact ⟨hk.silent, hk.last, hk.reach, hk.starts, fun hn => ⟨hid hn, hk.refusals hn⟩, hk.half⟩
  | goaway code hgo hopen =>
    have hfirst : ∀ last ∈ goaways (.wrote (.goaway k.lastStream code) :: k.trace),
        last = k.lastStream := by
      intro last hlast
      rw [goaways, hk.silent hgo] at hlast
      exact List.mem_singleton.1 hlast
    refine ⟨nofun, ?_, ?_, hk.starts, hk.refusals, ?_⟩
    · exact fun last hlast => le_of_eq (hfirst last hlast)
    · intro last hlast s hs _
      rw [hfirst last hlast]
      exact ht.last s hs
    · intro hn hread last _ s hs hp
      obtain ⟨l, hl, rfl⟩ := List.mem_map.1 hs
      exact absurd hp (hopen hn hread l hl)
  | goawayLost =>
    exact ⟨nofun, hk.last, hk.reach, hk.starts, hk.refusals, fun _ => nofun⟩
  | classify | defer | holdFor | undefer | unhold | closeIn | failEvents =>
    exact hk.edit_same (fun _ => rfl) fun _ => rfl
  | _ => exact hk.keep rfl rfl id (.inl rfl) fun _ => all

theorem Front.promiseOk {k k' : Core D} (h : Front B nice k k')
    (ht : TableOk k.toBearing k.standings) (hk : PromiseOk nice k) : PromiseOk nice k' := by
  have all {s : Standing} (hs : s ∈ k.standings) : ∃ s' ∈ k.standings, s.id = s'.id ∧
      (s.phase = .headers ↔ s'.phase = .headers) := ⟨s, hs, rfl, Iff.rfl⟩
  have noted {e : Event} (hg : ∀ t, goaways (e :: t) = goaways t)
      (hs : ∀ {t}, StartsKept t → StartsKept (e :: t))
      (hr : ∀ {t}, RefusalsKept t → RefusalsKept (e :: t)) : PromiseOk nice (k.log e) :=
    hk.keep rfl rfl id (.inr ⟨e, ⟨hg, hs, hr⟩, rfl⟩) fun _ => all
  cases h with
  | plain h => exact h.promiseOk ht hk
  | read f => exact noted (fun _ => rfl) id id
  | noted b => exact noted (fun _ => rfl) id id
  | allowed => exact noted (fun _ => rfl) id id
  | acknowledged _ _ _ => exact noted (fun _ => rfl) id id
  | trail | extend | grew => exact hk.edit_same (fun _ => rfl) fun _ => rfl
  | strayed => exact hk.keep rfl rfl (by rintro ⟨⟩) (.inl rfl) fun _ => all
  | connOverflow n _ => exact hk.keep rfl rfl (by rintro ⟨⟩) (.inl rfl) fun _ => all
  | append r id spare nextRef _ hid _ =>
    refine ⟨hk.silent, ?_, ?_, hk.starts, hk.refusals, ?_⟩
    · exact fun last hlast => le_of_lt (lt_of_le_of_lt (hk.last last hlast) hid)
    · intro last hlast s hs hp
      rw [Core.standings, List.map_append] at hs
      rcases List.mem_append.1 hs with hs | hs
      · exact hk.reach last hlast s hs hp
      · rw [List.mem_singleton.1 hs] at hp
        exact absurd rfl hp
    · intro hn hread last hlast s hs hp
      rw [Core.standings, List.map_append] at hs
      rcases List.mem_append.1 hs with hs | hs
      · exact hk.half hn hread last hlast s hs hp
      · rw [List.mem_singleton.1 hs]
        exact lt_of_le_of_lt (hk.last last hlast) hid
  | shifted v _ _ _ =>
    refine hk.keep rfl rfl id (.inl rfl) ?_
    intro s hs
    rw [Core.standings, List.map_map] at hs
    exact all hs
  | shiftRefused v w _ _ _ _ =>
    refine hk.keep rfl rfl (by rintro ⟨⟩) (.inl rfl) ?_
    intro s hs
    rw [Core.standings, List.map_map] at hs
    exact all hs
  | _ => exact hk.keep rfl rfl id (.inl rfl) fun _ => all

theorem Move.promiseOk {k k' : Core D} (h : Move B nice k k')
    (ht : TableOk k.toBearing k.standings) (hk : PromiseOk nice k) : PromiseOk nice k' := by
  cases h with
  | front h => exact h.promiseOk ht hk
  | taking h => exact h.promiseOk hk

/-! ## Grants -/

theorem GrantsKept.cons {t : Trace} (h : GrantsKept B t) {e : Event}
    (ht : ∀ id table, e = .topped id table → GrantOk B id table)
    (ha : ∀ id room table, e = .admitted id room table → AdmitOk B id room table) :
    GrantsKept B (e :: t) := by
  constructor
  · intro id table hmem
    rcases List.mem_cons.1 hmem with heq | hmem
    · exact ht id table heq.symm
    · exact h.1 id table hmem
  · intro id room table hmem
    rcases List.mem_cons.1 hmem with heq | hmem
    · exact ha id room table heq.symm
    · exact h.2 id room table hmem

theorem Calm.grantsKept {k k' : Core D} (h : Calm B k k') (hk : GrantsKept B k.trace) :
    GrantsKept B k'.trace := by
  cases h with
  | wrote | data => exact hk.cons nofun nofun
  | granted id table hok =>
    refine hk.cons ?_ nofun
    rintro id table ⟨⟩
    exact hok
  | admitted id room table hok =>
    refine hk.cons nofun ?_
    rintro id room table ⟨⟩
    exact hok
  | _ => exact hk

theorem Front.grantsKept {k k' : Core D} (h : Front B nice k k') (hk : GrantsKept B k.trace) :
    GrantsKept B k'.trace := by
  cases h with
  | plain h =>
    cases h with
    | calm h => exact h.grantsKept hk
    | started | leave | refuse | goaway => exact hk.cons nofun nofun
    | _ => exact hk
  | read | noted | allowed | acknowledged => exact hk.cons nofun nofun
  | _ => exact hk

theorem Move.grantsKept {k k' : Core D} (h : Move B nice k k') (hk : GrantsKept B k.trace) :
    GrantsKept B k'.trace := by
  cases h with
  | front h => exact h.grantsKept hk
  | taking h =>
    cases h with
    | calm h => exact h.grantsKept hk
    | _ => exact hk

/-! ## The invariant -/

/-- The invariant of a connection. -/
structure Good (B : Nat) (nice : Prop) (k : Core D) : Prop where
  awake : k.closed = false
  table : TableOk k.toBearing k.standings
  queues : QueuesOk k.toBearing k.standings
  ledger : LedgerOk k
  budget : BudgetOk k
  flow : FlowOk k
  promise : PromiseOk nice k
  grants : GrantsKept B k.trace

theorem Good.nodup {k : Core D} (h : Good B nice k) : k.refs.Nodup := by
  rw [← Core.standings_refs]
  exact h.table.nodup

theorem Front.closed {k k' : Core D} (h : Front B nice k k') : k'.closed = k.closed := by
  cases h with
  | plain h =>
    cases h with
    | calm h => rw [h.bearing]
    | _ => rfl
  | _ => rfl

theorem Move.closed {k k' : Core D} (h : Move B nice k k') : k'.closed = k.closed := by
  cases h with
  | front h => exact h.closed
  | taking h => rw [h.bearing]

/-- Every move keeps the invariant. -/
theorem Move.good {k k' : Core D} (h : Move B nice k k') (hk : Good B nice k) : Good B nice k' where
  awake := h.closed.trans hk.awake
  table := h.tableOk hk.table
  queues := h.queuesOk hk.queues
  ledger := h.ledgerOk hk.ledger
  budget := h.budgetOk hk.nodup hk.budget
  flow := h.flowOk hk.table hk.flow
  promise := h.promiseOk hk.table hk.promise
  grants := h.grantsKept hk.grants

end Nilo.Http2
