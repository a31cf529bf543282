import Nilo.Http2.Goes.Frames

/-!
# Where the connection's operations go: steps and runs

Every act of `Machine.lean`, and from them what one step of a connection keeps
(`Sound.step`) and what every run keeps (`Run.sound`):

* `Good`, always;
* `Rest`, while the connection reads;
* `Core.Home`, in a run whose steps never let go of the stream `continuing` points
  at (`KeepsOpen`). A request without its headers is kept by everything; one that
  is sending its trailers is kept as long as its call is in a queue or in the hands
  of a fiber, and **nothing else keeps it**.
-/

namespace Nilo.Http2

open Nilo.Lib
open Relation (ReflTransGen)

variable {D : Type} {h : Host} {nice home : Prop} {B : Nat} {c : Conn D} {r : Ref} {cd : Codec D}

/-! ## What keeps the stream `continuing` points at -/

/-- The stream being continued is without its headers, or a fiber has its call. -/
def Core.Handed (k : Core D) : Prop :=
  ∀ r, k.continuing = some r → r ∈ k.refs ∧ k.On r (·.phase = .headers) ∨ r ∈ k.inHand

/-- The stream being continued is without its headers, or its call is with the fibers. -/
def Core.Kept (k : Core D) : Prop :=
  ∀ r, k.continuing = some r →
    r ∈ k.refs ∧ k.On r (·.phase = .headers) ∨ r ∈ k.pending ∨ r ∈ k.inHand

/-- A request that is being continued stays in the table, without its headers. -/
theorem Plain.awaits {k k' : Core D} (hm : Plain B nice k k') (hc : k.continuing = some r)
    (hk : r ∈ k.refs ∧ k.On r (·.phase = .headers)) :
    r ∈ k'.refs ∧ k'.On r (·.phase = .headers) := by
  obtain ⟨hr, hp⟩ := hk
  have edits {q : Ref} {f : Line → Line} (hf : ∀ l, (f l).ref = l.ref)
      (hph : ∀ l ∈ k.lines, l.ref = q → l.ref = r → l.phase = .headers → (f l).phase = .headers) :
      r ∈ (k.edit q f).refs ∧ (k.edit q f).On r (·.phase = .headers) := by
    refine ⟨Core.mem_edit_refs hf hr, forall_mem_edit hp fun l hl hlq hhead hlr => ?_⟩
    rw [hf] at hlr
    exact hph l hl hlq hlr (hhead hlr)
  cases hm with
  | calm hm =>
    refine ⟨?_, fun l hl hlr => ?_⟩
    · rw [← Core.standings_refs, hm.standings, Core.standings_refs]
      exact hr
    · have hs : l.toStanding ∈ k.standings := hm.standings ▸ List.mem_map_of_mem hl
      exact Core.On.standing (P := fun s => s.phase = .headers) hp l.toStanding hs hlr
  | launch q hon =>
    refine edits (fun _ => rfl) fun l hl hlq hlr hhead => ?_
    rcases hon l hl hlq with hrun | ⟨-, -, -, hne⟩
    · cases hhead.symm.trans hrun
    · exact absurd (hc.trans (congrArg some (hlr.symm.trans hlq))) hne
  | answering q _ hon =>
    refine edits (fun _ => rfl) fun l hl hlq hlr hhead => ?_
    exact absurd (hc.trans (congrArg some (hlr.symm.trans hlq))) ((hon l hl hlq).2.2 hhead).2.2
  | classify | defer | holdFor | undefer | unhold | closeIn | failEvents =>
    exact edits (fun _ => rfl) fun _ _ _ _ hhead => hhead
  | leave q id why hq _ hon _ =>
    have hne : r ≠ q := by
      rintro rfl
      obtain ⟨l, hl, hlr⟩ := List.mem_map.1 hr
      exact (hon l hl hlr).2.2.2 (hp l hl hlr) hc
    refine ⟨?_, fun l hl => hp l (List.mem_of_mem_filter hl)⟩
    obtain ⟨l, hl, hlr⟩ := List.mem_map.1 hr
    refine List.mem_map.2 ⟨l, List.mem_filter.2 ⟨hl, ?_⟩, hlr⟩
    rw [bne_iff_ne, hlr]
    exact hne
  | _ => exact ⟨hr, hp⟩

theorem Plain.handed {k k' : Core D} (hm : Plain B nice k k') (hk : k.Handed) : k'.Handed := by
  intro r hr
  rw [hm.blocks.1] at hr
  rcases hk r hr with hhead | hhand
  · exact .inl (hm.awaits hr hhead)
  · exact .inr (hm.inHand hhand)

theorem Ending.kept {k k' : Core D} (hm : Ending B nice k k') (hk : k.Kept) : k'.Kept := by
  intro r hr
  rw [hm.plain.blocks.1] at hr
  rw [hm.pending, hm.inHand]
  rcases hk r hr with hhead | hq
  · exact .inl (hm.plain.awaits hr hhead)
  · exact .inr hq

theorem Core.Kept.mem {k : Core D} (hk : k.Kept) (hg : Good B nice k)
    (hr : k.continuing = some r) : r ∈ k.refs := by
  rcases hk r hr with ⟨hmem, -⟩ | hq | hq
  · exact hmem
  · exact (hg.queued (List.mem_append_left _ (List.mem_append_left _ hq))).1
  · exact (hg.queued (List.mem_append_left _ (List.mem_append_right _ hq))).1

theorem Core.Handed.kept {k : Core D} (hk : k.Handed) : k.Kept := by
  intro r hr
  rcases hk r hr with hhead | hhand
  · exact .inl hhead
  · exact .inr (.inr hhand)

/-- `continuing` still points where it did, if what it points at is still there. -/
theorem Plain.keepsHome {k k' : Core D} (hm : Plain B nice k k') (hk : k.Home) (hg : Good B nice k')
    (hkept : k'.Kept) : k'.Home := by
  intro r hr
  refine ⟨hkept.mem hg hr, ?_⟩
  rw [hm.blocks.1] at hr
  have hon := (hk r hr).2
  refine hm.on_standing (P := fun s => Opened s.id k'.trace) ?_ ?_
  · intro s s' hsame ho
    rw [hsame.id]
    exact ho
  · exact fun l hl hlr => (hon l hl hlr).mono (suffix_keep hm.trace)

/-! ## Going away -/

/-- A GOAWAY is written once, and named in the history; or the writer fails. -/
theorem goaway_run {e : ErrorCode} :
    c.goawaySent = true ∧ goaway e c = (.ok (), c) ∨
    c.goawaySent = false ∧
      ((∃ c', goaway e c = (.ok (), c') ∧ c'.core =
          { c.core.log (.wrote (.goaway c.lastStream e)) with goawaySent := true }) ∨
        goaway e c = (.error .gone, { c with goawaySent := true, reading := false })) := by
  have hrun : goaway e c =
      (if !c.goawaySent then
        emit (.goaway c.lastStream e) { c with goawaySent := true }
      else (.ok (), c)) := by
    rw [goaway]
    show (if !c.goawaySent then _ else _ : M D Unit) c = _
    split <;> rfl
  cases hsent : c.goawaySent with
  | true =>
    refine .inl ⟨rfl, ?_⟩
    rw [hrun, hsent]
    rfl
  | false =>
    refine .inr ⟨rfl, ?_⟩
    have hrun : goaway e c = emit (.goaway c.lastStream e) { c with goawaySent := true } := by
      rw [hrun, hsent]
      rfl
    rw [hrun]
    rcases emit_run (f := .goaway c.lastStream e) (c := { c with goawaySent := true }) with
      ⟨c', heq, hw⟩ | heq
    · refine .inl ⟨c', heq, ?_⟩
      rw [hw.core]
      rfl
    · exact .inr heq

theorem goaway_goes {code : ErrorCode}
    (hopen : nice → c.reading = true → c.goawaySent = false →
      ∀ l ∈ c.core.lines, l.phase ≠ .headers) :
    (ending D B nice).Goes c (goaway code) fun _ _ => True := by
  intro _
  rcases goaway_run (c := c) (e := code) with ⟨-, heq⟩ | ⟨hsent, ⟨c', heq, hcore⟩ | heq⟩
  · rw [heq]
    exact ⟨.refl, nofun, fun _ _ => trivial⟩
  · rw [heq]
    refine ⟨.single ?_, nofun, fun _ _ => trivial⟩
    show Ending B nice c.core c'.core
    rw [hcore]
    exact ⟨.goaway code hsent fun hn hread => hopen hn hread hsent, rfl, rfl⟩
  · rw [heq]
    exact ⟨.single ⟨.goawayLost, rfl, rfl⟩, fun _ _ => rfl, nofun⟩

theorem goaway_standings {code : ErrorCode} :
    (goaway code c).2.core.standings = c.core.standings := by
  rcases goaway_run (c := c) (e := code) with ⟨-, heq⟩ | ⟨-, ⟨c', heq, hcore⟩ | heq⟩
  · rw [heq]
  · rw [heq]
    show c'.core.standings = _
    rw [hcore]
    rfl
  · rw [heq]
    rfl

/-- The client is sent away: what is written after the connection has stopped reading promises
nothing of a request it has not read. -/
theorem sendAwayFor_goes {code : ErrorCode} {Q : Unit → Conn D → Prop} :
    (ending D B nice).Goes c (sendAwayFor code) Q := by
  intro _
  have hshut (c' : Conn D) : Ending B nice c'.core { c'.core with reading := false } :=
    ⟨.calm .shut, rfl, rfl⟩
  rcases goaway_run (c := c) (e := code) with ⟨-, heq⟩ | ⟨hsent, ⟨c', heq, hcore⟩ | heq⟩
  · have hrun : sendAwayFor code c = (.error .gone, { c with reading := false }) := by
      rw [sendAwayFor, Prog.bind_run, heq]
      rfl
    rw [hrun]
    exact ⟨.single (hshut c), fun _ _ => rfl, nofun⟩
  · have hrun : sendAwayFor code c = (.error .gone, { c' with reading := false }) := by
      rw [sendAwayFor, Prog.bind_run, heq]
      rfl
    rw [hrun]
    refine ⟨.head (hshut c) (.single ?_), fun _ _ => rfl, nofun⟩
    have hlast : ({ c' with reading := false } : Conn D).core =
        { { c.core with reading := false }.log (.wrote (.goaway c.lastStream code)) with
          goawaySent := true } :=
      congrArg (fun k : Core D => { k with reading := false }) hcore
    show Ending B nice { c.core with reading := false } (Conn.core _)
    rw [hlast]
    exact ⟨.goaway code hsent fun _ hread => absurd hread nofun, rfl, rfl⟩
  · have hrun : sendAwayFor code c =
        (.error .gone, { c with goawaySent := true, reading := false }) := by
      rw [sendAwayFor, Prog.bind_run, heq]
    rw [hrun]
    exact ⟨.single ⟨.goawayLost, rfl, rfl⟩, fun _ _ => rfl, nofun⟩

/-! ## What is overdue -/

theorem sweepOne_goes : (ending D B nice).Goes c (sweepOne h r) fun _ _ => True := by
  refine .assuming fun hk => .get_bind (.get_bind (.ite (fun hstuck => ?_) fun _ => ?_))
  · -- a stream with something stuck has begun its answer
    have hsince : (c.get r).stuckSince ≠ 0 := by
      rw [stuckPast, Bool.and_eq_true, bne_iff_ne] at hstuck
      exact hstuck.1
    have hr : r ∈ c.refs := Conn.mem_of_get (P := fun s => s.stuckSince ≠ 0) hsince fun hn => hn rfl
    have hbegun : c.core.On r (·.phase ≠ .headers) := by
      refine Conn.on_get hk.refs_nodup fun hp => ?_
      have hmem : (c.get r).line ∈ c.core.lines := List.mem_map_of_mem (Conn.get_mem hr).1
      have hfresh : (c.get r).line.pristine = true := ((hk.ledger.lines _ hmem).fresh hp).2.2
      rw [Stream.line, Bool.and_eq_true, beq_iff_eq] at hfresh
      exact hsince hfresh.2
    have hsettled : c.Settled r := ⟨hr, fun l hl hlr hp => absurd hp (hbegun l hl hlr)⟩
    refine .calmThenEnding (emit_small rfl rfl (Nat.le_of_ble_eq_true rfl)) fun _ c₁ hf₁ => ?_
    refine .calmThenEnding (update_quiet rfl (fun s => ?_) trivial) fun _ c₂ hf₂ => ?_
    · simp only [Stream.line, Stream.failOut, Option.isNone_map]
    · refine (onReset_goes ?_).weaken fun _ _ _ => trivial
      exact (hsettled.framed hf₁).framed hf₂
  · refine .ite (fun hover => .ite (fun _ => sendAwayFor_goes) fun hcont => ?_) fun _ => .pure trivial
    obtain ⟨hphase, huntil, -⟩ := hover
    have hr : r ∈ c.refs :=
      Conn.mem_of_get (P := fun s => s.collectUntilNs ≠ 0) huntil fun hn => hn rfl
    have hhead : c.core.On r (·.phase = .headers) := Conn.on_get hk.refs_nodup hphase
    have hleave : c.MayLeave r := by
      refine ⟨hr, hk.loose fun l hl hlr hrun => ?_, fun _ _ _ _ => hcont⟩
      cases (hhead l hl hlr).symm.trans hrun
    refine .calmThenEnding (emit_small rfl rfl (Nat.le_of_ble_eq_true rfl)) fun _ c₁ hf₁ => ?_
    exact (forget_goes (hleave.framed hf₁) (by rintro ⟨⟩)).weaken fun _ _ _ => trivial

theorem sweepFrom_goes {rs : List Ref} :
    (ending D B nice).Goes c (sweepFrom h rs) fun _ _ => True := by
  induction rs generalizing c with
  | nil => exact .pure trivial
  | cons r rest ih => exact .bind sweepOne_goes fun _ _ _ => ih

theorem overdue_goes : (ending D B nice).Goes c (overdue h) fun _ _ => True := by
  refine .get_bind (.bind (Q := fun _ _ => True)
    (.when (fun _ => stop_goes.toEnding) fun _ => trivial) fun _ _ _ => ?_)
  refine .bind (Q := fun _ _ => True)
    (.when (fun _ => sendAwayFor_goes) fun _ => trivial) fun _ _ _ => ?_
  refine .bind sweepFrom_goes fun _ _ _ => ?_
  exact .get_bind (.when (fun _ => sendAwayFor_goes) fun _ => trivial)

/-! ## Winding down, and handing back -/

theorem Conn.core_streams {f : Stream → Stream} {g : Line → Line}
    (hf : ∀ s, (f s).line = g s.line) :
    ({ c with streams := c.streams.map f } : Conn D).core =
      { c.core with lines := c.core.lines.map g } := by
  simp only [Conn.core, List.map_map]
  congr 1
  exact List.map_congr_left fun s _ => hf s

theorem abortInbound_goes {everything : Bool} :
    (calm D B nice).Goes c (modify (·.abortInbound everything) : M D Unit) fun _ _ => True := by
  refine .move ?_ trivial
  have hcore := Conn.core_streams (c := c)
    (f := fun s => if s.phase = .running ∧ (s.isOpen || everything) then
      { s with inbox := s.inbox.fail .gone } else s)
    (g := fun l => if decide (l.phase = .running) && (l.isOpen || everything) then
      { l with wanted := 0 } else l) fun s => by
    by_cases hs : s.phase = .running ∧ (s.isOpen || everything) = true
    · have hl : (decide (s.line.phase = .running) && (s.line.isOpen || everything)) = true := by
        rw [Bool.and_eq_true, decide_eq_true_eq]
        exact hs
      rw [if_pos hs, if_pos hl]
      simp only [Stream.line, Inbox.fail_wanted]
      rfl
    · have hl : ¬(decide (s.line.phase = .running) && (s.line.isOpen || everything)) = true := by
        rw [Bool.and_eq_true, decide_eq_true_eq]
        exact hs
      rw [if_neg hs, if_neg hl]
  show Calm B c.core (c.abortInbound everything).core
  rw [Conn.abortInbound, hcore]
  exact .settled _

theorem Stream.failOut_line {s : Stream} {why : OutFailure} : (s.failOut why).line = s.line := by
  simp only [Stream.line, Stream.failOut, Option.isNone_map]

/-- A change of the streams that no invariant sees. -/
theorem Conn.core_streams_same {f : Stream → Stream} (hf : ∀ s, (f s).line = s.line) :
    ({ c with streams := c.streams.map f } : Conn D).core = c.core := by
  rw [Conn.core_streams (g := fun l => l) hf, List.map_id']

theorem failStuck_goes : (calm D B nice).Goes c (modify (·.failStuck) : M D Unit)
    fun _ _ => True := by
  refine .quiet ?_ trivial
  exact Conn.core_streams_same fun s => by
    split
    · rfl
    · exact Stream.failOut_line

theorem abortOutbound_goes : (calm D B nice).Goes c (modify (·.abortOutbound) : M D Unit)
    fun _ _ => True := by
  refine .quiet ?_ trivial
  have hcore := Conn.core_streams_same (c := c)
    (f := fun s => if s.phase = .running then s.failOut .gone else s) fun s => by
      split
      · exact Stream.failOut_line
      · rfl
  exact hcore

/-- A fiber hands its call back, and takes the next one queued if fibers are reused. -/
theorem Conn.core_finishCall {a : Answer} (hawake : c.shared.closed = false) :
    (c.finishCall r a).core =
      { c.core with
        pending := if c.reuse then c.core.pending.tail else c.core.pending
        inHand := c.core.inHand.erase r ++ if c.reuse then c.core.pending.head?.toList else []
        answered := c.core.answered ++ [r] } := by
  have hcore : (c.mod r fun s => if s.out.isSome then s else s.answered a).core = c.core :=
    Conn.core_mod_same fun s => by split <;> rfl
  have hreuse : (c.mod r fun s => if s.out.isSome then s else s.answered a).reuse = c.reuse := rfl
  rw [← hcore, Conn.finishCall, hreuse]
  cases c.reuse with
  | true =>
    rw [if_pos rfl]
    simp only [Conn.core, Conn.mod, Shared.finishNext, Shared.takeQueued]
    cases hp : c.shared.pending <;> simp [Shared.finish, hawake, hp]
  | false => simp [Conn.core, Conn.mod, Shared.finish, hawake]

/-! ## Steps -/

/-- What holds of a connection at every point where its fiber can be interrupted. -/
structure Sound (h : Host) (cd : Codec D) (nice home : Prop) (c : Conn D) : Prop where
  good : Good (Conn.budget h) nice c.core
  rest : c.reading = true → Rest cd c.core
  home : home → c.core.Home

/-- Where an act leaves the connection: sound, and done reading if it stopped with an error. -/
structure Lands (h : Host) (cd : Codec D) (nice home : Prop) (c : Conn D) (m : M D Unit) : Prop where
  sound : Sound h cd nice home (m c).2
  stopped : ∀ e, (m c).1 = .error e → (m c).2.reading = false

/-- What a connection that reads rests on is kept by every step of a stream's life. -/
theorem Plain.resting {k k' : Core D} (hm : Plain B nice k k') (hg : Good B nice k)
    (hk : k.reading = true → Rest cd k) : k'.reading = true → Rest cd k' :=
  fun hr => hm.rest hg (hk (hm.reading hr))

theorem Sound.alongEnding {m : M D Unit} {Q : Unit → Conn D → Prop} (hs : Sound h cd nice home c)
    (hkept : home → c.core.Kept) (hm : (ending D (Conn.budget h) nice).Goes c m Q) :
    Lands h cd nice home c m := by
  obtain ⟨path, hstop, -⟩ := hm hs.good
  refine ⟨⟨Course.Path.keeps path hs.good, ?_, fun hy => ?_⟩, hstop⟩
  · exact hm.along (P := fun k => k.reading = true → Rest cd k) hs.good
      (fun move hg hk => move.plain.resting hg hk) hs.rest
  · have := hm.along (P := fun k => k.Home ∧ k.Kept) hs.good
      (fun move hg hk => ⟨move.plain.keepsHome hk.1 ((Move.front (.plain move.plain)).good hg)
        (move.kept hk.2), move.kept hk.2⟩) ⟨hs.home hy, hkept hy⟩
    exact this.1

theorem Sound.alongPlain {m : M D Unit} {Q : Unit → Conn D → Prop} (hs : Sound h cd nice home c)
    (hhanded : home → c.core.Handed) (hm : (plain D (Conn.budget h) nice).Goes c m Q) :
    Lands h cd nice home c m := by
  obtain ⟨path, hstop, -⟩ := hm hs.good
  refine ⟨⟨Course.Path.keeps path hs.good, ?_, fun hy => ?_⟩, hstop⟩
  · exact hm.along (P := fun k => k.reading = true → Rest cd k) hs.good
      (fun move hg hk => move.resting hg hk) hs.rest
  · have := hm.along (P := fun k => k.Home ∧ k.Handed) hs.good
      (fun move hg hk => ⟨move.keepsHome hk.1 ((Move.front (.plain move)).good hg)
        (move.handed hk.2).kept, move.handed hk.2⟩) ⟨hs.home hy, hhanded hy⟩
    exact this.1

/-- With every stream where it was, `continuing` points where it did. -/
theorem Sound.still {m : M D Unit} {Q : Unit → Conn D → Prop} (hs : Sound h cd nice home c)
    (hst : (m c).2.core.standings = c.core.standings)
    (hm : (plain D (Conn.budget h) nice).Goes c m Q) : Lands h cd nice home c m := by
  obtain ⟨path, hstop, -⟩ := hm hs.good
  refine ⟨⟨Course.Path.keeps path hs.good, ?_, fun hy r hr => ?_⟩, hstop⟩
  · exact hm.along (P := fun k => k.reading = true → Rest cd k) hs.good
      (fun move hg hk => move.resting hg hk) hs.rest
  · have hframe := hm.along
      (P := fun k => k.continuing = c.core.continuing ∧ c.core.trace <:+ k.trace) hs.good
      (fun move _ hk => ⟨move.blocks.1.trans hk.1, hk.2.trans (suffix_keep move.trace)⟩)
      ⟨rfl, List.suffix_refl _⟩
    obtain ⟨hmem, hon⟩ := hs.home hy r (hframe.1.symm.trans hr)
    refine ⟨?_, fun l hl hlr => ?_⟩
    · rw [← Core.standings_refs, hst, Core.standings_refs]
      exact hmem
    · have hl : l.toStanding ∈ c.core.standings := by
        rw [← hst]
        exact List.mem_map_of_mem hl
      have := Core.On.standing (P := fun s => Opened s.id c.core.trace) hon l.toStanding hl hlr
      exact this.mono hframe.2

theorem Sound.alongCalm {m : M D Unit} {Q : Unit → Conn D → Prop} (hs : Sound h cd nice home c)
    (hm : (calm D (Conn.budget h) nice).Goes c m Q) : Lands h cd nice home c m := by
  obtain ⟨path, hstop, -⟩ := hm hs.good
  refine ⟨⟨Course.Path.keeps path hs.good, ?_, fun hy => ?_⟩, hstop⟩
  · exact hm.along (P := fun k => k.reading = true → Rest cd k) hs.good
      (fun move hg hk => (Plain.calm move).resting hg hk) hs.rest
  · exact hm.along (P := fun k => k.Home) hs.good
      (fun move _ hk => (Taking.calm move).home hk) (hs.home hy)

/-- A connection that has stopped reading does not begin again. -/
theorem Hearing.reading {k k' : Core D} (hm : Hearing B k k') (hr : k.reading = false) :
    k'.reading = false := by
  refine Bool.eq_false_iff.2 fun hr' => ?_
  have hon : k.reading = true := by
    cases hm with
    | taking hm =>
      cases hm with
      | calm hm => exact hm.reading hr'
      | overran => cases hr'
      | _ => exact hr'
    | listened => exact hr'
  cases hr.symm.trans hon

/-- What the calls have said is heard between two frames as well. -/
theorem Sound.service (hs : Sound h cd nice home c) :
    Lands h cd nice home c (service h) := by
  have hgo : (hearing D (Conn.budget h) nice).Goes c (Nilo.Http2.service h) _ := service_goes cd
  obtain ⟨path, -, -⟩ := hgo hs.good
  obtain ⟨path', hstop, hok⟩ := (hgo.hearingToReader hs.home) hs.good
  refine ⟨⟨Course.Path.keeps path' hs.good, fun hread => ?_, fun hy => ?_⟩,
    fun e he => (hstop e he).1⟩
  · cases hres : (Nilo.Http2.service h c).1 with
    | error e => exact absurd ((hstop e hres).1.symm.trans hread) nofun
    | ok a =>
      refine (hok a hres).1.2 (hs.rest (Decidable.byContradiction fun hno => ?_))
      have hoff : (Nilo.Http2.service h c).2.core.reading = false :=
        Course.preserved (P := fun k : Core D => k.reading = false) path
          (fun move hk => move.reading hk) (Bool.eq_false_iff.2 hno)
      exact absurd (hoff.symm.trans hread) nofun
  · cases hres : (Nilo.Http2.service h c).1 with
    | error e => exact (hstop e hres).2 hy
    | ok a => exact (hok a hres).2 hy

theorem Sound.frame {f : Frame} (hs : Sound h cd nice home c) (hread : c.reading = true) :
    Lands h cd nice home c (readFrame h cd f) := by
  obtain ⟨path, hstop, hok⟩ := readFrame_goes (f := f) (hs.rest hread) hread hs.home hs.good
  refine ⟨⟨Course.Path.keeps path hs.good, fun hread => ?_, fun hy => ?_⟩,
    fun e he => (hstop e he).1⟩
  all_goals cases hres : (readFrame h cd f c).1 with
  | error e =>
    first
    | exact absurd ((hstop e hres).1.symm.trans hread) nofun
    | exact (hstop e hres).2 hy
  | ok a =>
    first
    | exact (hok a hres).rest
    | exact (hok a hres).home hy

theorem Sound.finish {a : Answer} (hs : Sound h cd nice home c) (hr : r ∈ c.inHand) :
    Lands h cd nice home c (modify (·.finishCall r a)) := by
  have hcore : (c.finishCall r a).core = _ := Conn.core_finishCall hs.good.awake
  refine ⟨⟨?_, fun hread => ?_, fun hy => ?_⟩, nofun⟩
  · show Good _ nice (c.finishCall r a).core
    rw [hcore]
    exact (Move.front (.handedBack r c.reuse hr)).good hs.good
  · have hread : c.core.reading = true := by
      have : (c.finishCall r a).core.reading = true := hread
      rwa [hcore] at this
    obtain ⟨⟨⟨hhalf, hcapped, hfed, htable⟩, hidle, hheard⟩, hagreed, hplaced, htelling⟩ :=
      hs.rest hread
    show Rest cd (c.finishCall r a).core
    rw [hcore]
    exact ⟨⟨⟨hhalf, hcapped, hfed, htable⟩, hidle, hheard⟩, hagreed,
      ⟨hplaced.here, hplaced.ignored⟩, htelling⟩
  · show (c.finishCall r a).core.Home
    rw [hcore]
    exact hs.home hy

/-- No GOAWAY is written while a request's header block is open and its client still read. -/
def Act.Quiet (c : Conn D) (a : Act) : Prop :=
  a = .goaway → c.reading = true → c.goawaySent = false → ∀ s ∈ c.streams, s.phase ≠ .headers

/-- The act does not let go of the stream `continuing` points at. -/
def Act.KeepsOpen (c : Conn D) : Act → Prop
  | .writeReady | .overdue | .endEvents => c.core.Kept
  | .startHeld | .rendezvous | .dropHeld => c.core.Handed
  | _ => True

theorem Sound.act {a : Act} (hs : Sound h cd nice home c) (hen : a.enabled c)
    (hquiet : nice → a.Quiet c) (hopen : home → a.KeepsOpen c) :
    Lands h cd nice home c (a.run h cd) := by
  cases a with
  | frame f => exact hs.frame hen
  | inputEnded => exact hs.alongCalm (Q := fun _ _ => True) stop_goes
  | service => exact hs.service
  | writeReady => exact hs.alongEnding hopen writeReady_goes
  | admitCalls => exact hs.alongCalm admitCalls_goes
  | startHeld => exact hs.alongPlain hopen (.get_bind startHeld_goes)
  | rendezvous => exact hs.alongPlain hopen (.get_bind rendezvous_goes)
  | overdue => exact hs.alongEnding hopen overdue_goes
  | goaway =>
    refine hs.still ?_ (goaway_goes fun hn hread hsent l hl => ?_).endingToPlain
    · exact goaway_standings
    · obtain ⟨s, hmem, rfl⟩ := List.mem_map.1 hl
      exact hquiet hn rfl hread hsent s hmem
  | endEvents => exact hs.alongEnding hopen endEvents_goes
  | dropSpares => exact hs.still (Q := fun _ _ => True) rfl (.move .dropSpares trivial)
  | dropHeld => exact hs.alongEnding (fun hy => (hopen hy).kept) dropHeld_goes
  | abortInbound everything => exact hs.alongCalm abortInbound_goes
  | failStuck => exact hs.alongCalm failStuck_goes
  | abortOutbound => exact hs.alongCalm abortOutbound_goes
  | call r op =>
    refine hs.alongCalm (callStep_goes fun l hl hlr hp => ?_)
    have hq : r ∈ c.core.queues := List.mem_append_left _ (List.mem_append_right _ hen)
    cases ((hs.good.queued hq).2 l hl hlr).symm.trans hp
  | finish r a => exact hs.finish hen
  | runnerBegins => exact hs.alongCalm (Q := fun _ _ => True) (.quiet rfl trivial)
  | poke =>
    refine hs.alongCalm (Q := fun _ _ => True) (.move ?_ trivial)
    have hawake : c.shared.closed = false := hs.good.awake
    have hpoke : c.shared.poke = { c.shared with attention := true } := by
      rw [Shared.poke, if_neg (by rw [hawake]; rintro ⟨⟩)]
    show Calm _ c.core ({ c with shared := c.shared.poke } : Conn D).core
    rw [hpoke]
    exact .poked
  | tick ns => exact hs.alongCalm (Q := fun _ _ => True) (.quiet rfl trivial)

/-- What one step of a connection keeps. -/
theorem Sound.step {op : Op} (hs : Sound h cd nice home c) (hen : op.act.enabled c)
    (hquiet : nice → op.act.Quiet c) (hopen : home → op.act.KeepsOpen c) :
    Sound h cd nice home (step h cd op c) := by
  have hs' : Sound h cd nice home ({ c with env := op.env } : Conn D) :=
    ⟨hs.good, hs.rest, hs.home⟩
  have hen' : op.act.enabled ({ c with env := op.env } : Conn D) := by
    cases hact : op.act <;> rw [hact] at hen <;> exact hen
  have hopen' : home → op.act.KeepsOpen ({ c with env := op.env } : Conn D) := by
    intro hy
    have := hopen hy
    cases hact : op.act <;> rw [hact] at this <;> exact this
  have hlands : Lands h cd nice home _ (op.act.run h cd) := hs'.act hen' hquiet hopen'
  obtain ⟨hsound, hstopped⟩ := hlands
  rw [Nilo.Http2.step]
  match hres : op.act.run h cd { c with env := op.env } with
  | (.ok a, c') =>
    rw [hres] at hsound
    exact hsound
  | (.error e, c') =>
    rw [hres] at hsound hstopped
    have hoff : c'.reading = false := hstopped e rfl
    show Sound h cd nice home (c'.sendAway e)
    rw [Conn.sendAway]
    cases e.code with
    | none => exact hsound
    | some code =>
      refine (hsound.still goaway_standings (goaway_goes fun _ hread => ?_).endingToPlain).sound
      cases hoff.symm.trans hread

/-- What every step of a stream's life and every word of a call keeps, every act keeps but for
frames and answers. -/
theorem Sound.along {P : Core D → Prop} {a : Act} (hs : Sound h cd False False c)
    (hen : a.enabled c)
    (hlives : ∀ {k k' : Core D}, Plain (Conn.budget h) False k k' → P k → P k')
    (hhears : ∀ {k k' : Core D}, Hearing (Conn.budget h) k k' → P k → P k')
    (hframe : ∀ f, a = .frame f → P (readFrame h cd f c).2.core)
    (hfinish : ∀ r x, a = .finish r x → P (c.finishCall r x).core) (hp : P c.core) :
    P (a.run h cd c).2.core := by
  have hg := hs.good
  have lives {m : M D Unit} {Q : Unit → Conn D → Prop}
      (hm : (plain D (Conn.budget h) False).Goes c m Q) : P (m c).2.core :=
    hm.along (P := P) hg (fun move _ hk => hlives move hk) hp
  cases a with
  | frame f => exact hframe f rfl
  | finish r x => exact hfinish r x rfl
  | service =>
    have hgo : (hearing D (Conn.budget h) False).Goes c (Nilo.Http2.service h) _ := service_goes cd
    exact hgo.along (P := P) hg (fun move _ hk => hhears move hk) hp
  | inputEnded => exact lives (Q := fun _ _ => True) (Course.Goes.toPlain stop_goes)
  | writeReady => exact lives writeReady_goes.endingToPlain
  | admitCalls => exact lives admitCalls_goes.toPlain
  | startHeld => exact lives (.get_bind startHeld_goes)
  | rendezvous => exact lives (.get_bind rendezvous_goes)
  | overdue => exact lives overdue_goes.endingToPlain
  | goaway => exact lives (goaway_goes False.elim).endingToPlain
  | endEvents => exact lives endEvents_goes.endingToPlain
  | dropSpares => exact lives (Q := fun _ _ => True) (.move .dropSpares trivial)
  | dropHeld => exact lives dropHeld_goes.endingToPlain
  | abortInbound everything => exact lives abortInbound_goes.toPlain
  | failStuck => exact lives failStuck_goes.toPlain
  | abortOutbound => exact lives abortOutbound_goes.toPlain
  | call r op =>
    refine lives (Course.Goes.toPlain (callStep_goes fun l hl hlr hp => ?_))
    have hq : r ∈ c.core.queues := List.mem_append_left _ (List.mem_append_right _ hen)
    cases ((hg.queued hq).2 l hl hlr).symm.trans hp
  | poke =>
    have hawake : c.shared.closed = false := hg.awake
    have hpoke : c.shared.poke = { c.shared with attention := true } := by
      rw [Shared.poke, if_neg (by rw [hawake]; rintro ⟨⟩)]
    show P ({ c with shared := c.shared.poke } : Conn D).core
    rw [hpoke]
    exact hlives (.calm .poked) hp
  | runnerBegins => exact hp
  | tick ns => exact hp

/-- And so does every step. -/
theorem Sound.stepAlong {P : Core D → Prop} {op : Op} (hs : Sound h cd False False c)
    (hen : op.act.enabled c)
    (hlives : ∀ {k k' : Core D}, Plain (Conn.budget h) False k k' → P k → P k')
    (hhears : ∀ {k k' : Core D}, Hearing (Conn.budget h) k k' → P k → P k')
    (hframe : ∀ f, op.act = .frame f → P (readFrame h cd f { c with env := op.env }).2.core)
    (hfinish : ∀ r x, op.act = .finish r x → P (Conn.finishCall { c with env := op.env } r x).core)
    (hp : P c.core) : P (Nilo.Http2.step h cd op c).core := by
  have hs' : Sound h cd False False ({ c with env := op.env } : Conn D) :=
    ⟨hs.good, hs.rest, hs.home⟩
  have hen' : op.act.enabled ({ c with env := op.env } : Conn D) := by
    cases hact : op.act <;> rw [hact] at hen <;> exact hen
  have hlands : Lands h cd False False _ (op.act.run h cd) := hs'.act hen' False.elim False.elim
  have hact := hs'.along hen' hlives hhears hframe hfinish hp
  rw [Nilo.Http2.step]
  match hres : op.act.run h cd { c with env := op.env } with
  | (.ok _, c') =>
    rw [hres] at hact
    exact hact
  | (.error e, c') =>
    have hsound := hlands.sound
    rw [hres] at hact hsound
    show P (c'.sendAway e).core
    rw [Conn.sendAway]
    cases e.code with
    | none => exact hact
    | some code =>
      have hgo : (plain D (Conn.budget h) False).Goes c' (Nilo.Http2.goaway code) _ :=
        (goaway_goes False.elim).endingToPlain
      exact hgo.along (P := P) hsound.good (fun move _ hk => hlives move hk) hact

/-! ## Runs -/

/-- What the invariants see of a connection that has just been opened. -/
def Core.start (cd : Codec D) : Core D where
  continuing := none
  trailerBlock := []
  ignoring := 0
  decoder := cd.init
  lastStream := 0
  goawaySent := false
  spare := []
  nextRef := 0
  pending := []
  inHand := []
  answered := []
  peerWindow := defaultWindow
  peerMaxFrame := defaultMaxFrame
  closed := false
  astray := false
  lines := []
  sendWindow := defaultWindow
  recvWindow := defaultWindow
  unacked := 0
  collected := 0
  starved := 0
  reserving := false
  attention := false
  reading := true
  fault := false
  trace := [.wrote .settings]

theorem FlowOk.start : FlowOk (Core.start cd) where
  lines _ _ hl := absurd hl List.not_mem_nil
  most _ hl := absurd hl List.not_mem_nil
  conn := le_refl _
  connCap _ := show (defaultWindow : Int) ≤ maxWindow by decide
  peerCap := show (defaultWindow : Int) ≤ maxWindow by decide
  peerMost := le_refl _
  frameMost := le_refl _
  frameLeast := le_refl _
  windowNow _ _ := rfl
  frameNow _ _ := rfl
  idle _ _ := rfl
  within := ⟨⟨by decide, fun _ hpos => absurd hpos (lt_irrefl _),
    fun hpos => absurd hpos (lt_irrefl _)⟩, trivial⟩

theorem Good.start : Good B nice (Core.start cd) where
  awake := rfl
  table := ⟨List.nodup_nil, List.nodup_nil, fun _ hs => absurd hs List.not_mem_nil,
    fun _ hs => absurd hs List.not_mem_nil, fun _ hs => absurd hs List.not_mem_nil,
    List.Pairwise.nil, fun _ hs => absurd hs List.not_mem_nil⟩
  queues := ⟨List.nodup_nil, fun _ hs => absurd hs List.not_mem_nil,
    fun _ hs => absurd hs List.not_mem_nil, fun _ hs => absurd hs List.not_mem_nil,
    Nat.zero_le _, Nat.zero_le _⟩
  ledger := ⟨fun _ => ⟨rfl, Int.natCast_nonneg _⟩, fun _ hl => absurd hl List.not_mem_nil⟩
  budget := ⟨rfl, rfl, rfl⟩
  flow := .start
  promise := ⟨fun _ => rfl, fun _ hl => absurd hl List.not_mem_nil,
    fun _ hl => absurd hl List.not_mem_nil, trivial, fun _ => trivial,
    fun _ _ _ hl => absurd hl List.not_mem_nil⟩
  grants := by
    refine GrantsKept.cons ⟨?_, ?_⟩ nofun nofun
    · exact fun _ _ hmem => absurd hmem List.not_mem_nil
    · exact fun _ _ _ hmem => absurd hmem List.not_mem_nil

theorem Rest.start : Rest cd (Core.start cd) where
  half _ hs := absurd hs List.not_mem_nil
  capped _ hl := absurd hl List.not_mem_nil
  owing := ⟨rfl, rfl⟩
  idle _ hl := absurd hl List.not_mem_nil
  heard _ _ hl := absurd hl List.not_mem_nil
  agreed := ⟨rfl, rfl⟩
  placed := ⟨fun _ hr => absurd hr nofun, fun _ => rfl⟩
  telling _ hr := absurd hr nofun

theorem Sound.opened {callsLeft now : Nat} {wire : Option Nat} :
    Sound h cd nice home (opened cd callsLeft now wire) where
  good := (Good.start : Good _ nice (Core.start cd))
  rest _ := Rest.start
  home _ := Core.home_of_none rfl

/-- What every run of a connection keeps. -/
theorem Run.sound {ok : Conn D → Op → Prop} (hrun : Run h cd ok c)
    (hquiet : nice → ∀ c op, ok c op → op.act.Quiet c)
    (hopen : home → ∀ c op, ok c op → op.act.KeepsOpen c) : Sound h cd nice home c := by
  induction hrun with
  | opened callsLeft now wire => exact .opened
  | step _ hen hok ih =>
    exact ih.step hen (fun hn => hquiet hn _ _ hok) fun hy => hopen hy _ _ hok

/-- What holds of every state a connection can be in. -/
theorem Reachable.sound (hrun : Reachable h cd c) : Sound h cd False False c :=
  Run.sound hrun False.elim False.elim

end Nilo.Http2
