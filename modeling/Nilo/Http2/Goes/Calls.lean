import Nilo.Http2.Goes.Writing

/-!
# Where the connection's operations go: calls

What each function of `Calls.lean` does. A call's own steps are accounting
(`callStep_path`). A call begins when its header block is whole and there is room
for it (`Conn.Ripe`), and goes to a fiber, to the queue in front of the fibers, or
back to the writer; a call taken off the queue is running and nobody else's
(`Good.dequeued`), which is what whoever takes it needs.
-/

namespace Nilo.Http2

open Nilo.Lib
open Relation (ReflTransGen)

variable {D : Type} {h : Host} {nice : Prop} {B : Nat} {c : Conn D} {r : Ref}

/-! ## Steps of a call -/

/-- The core after one step of a call. -/
theorem Conn.core_callStep {op : CallOp} (hawake : c.shared.closed = false) :
    (c.callStep r op).core =
      if (op.run c.shared.dead (c.get r)).2 then
        { (c.mod r fun _ => (op.run c.shared.dead (c.get r)).1).core with attention := true }
      else (c.mod r fun _ => (op.run c.shared.dead (c.get r)).1).core := by
  have hpoke : c.shared.poke = { c.shared with attention := true } := by
    rw [Shared.poke, if_neg (by rw [hawake]; nofun)]
  simp only [Conn.callStep]
  split
  · split
    · simp only [Conn.mod, hpoke]
      rfl
    · rfl
  · split
    · simp only [Conn.mod, hpoke]
      rfl
    · rfl

/-- A stream put in the place of another, seen as a change of its line. -/
theorem Conn.core_mod_const {s : Stream} {g : Line → Line} (hn : c.refs.Nodup)
    (hs : s.line = g (c.get r).line) : (c.mod r fun _ => s).core = c.core.edit r g := by
  refine Conn.core_mod_of ?_
  intro t ht htr
  rw [Conn.eq_get hn ht htr]
  exact hs

theorem Inbox.reserved_wanted {x : Inbox} : x.reserved.wanted = 0 := by
  simp [Inbox.reserved, Inbox.wanted]

/-- What a call reads out of its pipe it owes for. -/
theorem Inbox.pull_account {x : Inbox} {n : Nat} :
    ∃ m ≤ x.buf.length, (x.pull n).1.buf.length = x.buf.length - m ∧
      (x.pull n).1.owed = x.owed + m ∧ (x.pull n).1.collecting = x.collecting ∧
      (x.pull n).1.wanted = x.wanted := by
  rw [Inbox.pull]
  split
  · exact ⟨0, Nat.zero_le _, rfl, rfl, rfl, rfl⟩
  · split
    · exact ⟨0, Nat.zero_le _, rfl, rfl, rfl, rfl⟩
    · refine ⟨min x.buf.length n, Nat.min_le_left _ _, ?_⟩
      simp only [Inbox.released]
      split
      all_goals
        refine ⟨?_, rfl, rfl, rfl⟩
        simp only [List.length_drop]

/-- What a call does to its stream is accounting: one move, or none; room is asked for and
the connection poked in one. -/
theorem CallOp.run_calm (op : CallOp) (dead : Bool) (hn : c.refs.Nodup)
    (hp : (c.get r).phase ≠ .headers) :
    ReflTransGen (Calm B) c.core (c.mod r fun _ => (op.run dead (c.get r)).1).core ∨
      (op.run dead (c.get r)).2 = true ∧
        Calm B c.core
          { (c.mod r fun _ => (op.run dead (c.get r)).1).core with attention := true } := by
  obtain ⟨s, hs⟩ : ∃ s, c.get r = s := ⟨_, rfl⟩
  have hon {P : Line → Prop} (hP : P s.line) : c.core.On r P := Conn.on_get hn (by rwa [hs])
  have one {s' : Stream} (g : Line → Line) (hg : s'.line = g s.line)
      (hm : Calm B c.core (c.core.edit r g)) :
      ReflTransGen (Calm B) c.core (c.mod r fun _ => s').core := by
    rw [Conn.core_mod_const hn (by rwa [hs])]
    exact .single hm
  have none {s' : Stream} (hg : s'.line = s.line) :
      ReflTransGen (Calm B) c.core (c.mod r fun _ => s').core := by
    have hself : c.core.edit r (fun l => l) = c.core := by
      rw [Core.edit, edit_eq_self fun _ _ _ => rfl]
    rw [Conn.core_mod_const (g := fun l => l) hn (by rwa [hs]), hself]
  rw [hs] at hp ⊢
  cases op with
  | pull n =>
    left
    obtain ⟨m, hm, hbuf, howed, hcoll, hwant⟩ := Inbox.pull_account (x := s.inbox) (n := n)
    refine one (fun l =>
      { l with unread := l.unread - m, owed := l.owed + m, mixed := l.mixed || l.collecting }) ?_
      (.pulled r m (hon ⟨hp, hm⟩))
    simp only [CallOp.run, Stream.line, hbuf, howed, hcoll, hwant]
  | whole =>
    left
    by_cases hc : s.inbox.collecting = true
    · refine none ?_
      simp only [CallOp.run, Inbox.whole, hc]
      rfl
    · have hc : s.inbox.collecting = false := by simpa using hc
      refine one (fun l => { l with collecting := true, owed := l.owed + l.unread }) ?_
        (.whole r (hon ⟨hp, hc⟩))
      simp only [CallOp.run, Inbox.whole, hc]
      rfl
  | askContinue =>
    left
    refine none ?_
    simp only [CallOp.run, Inbox.askContinue]
    split <;> rfl
  | reserve n =>
    by_cases hpark : s.inbox.canPark = true
    · right
      have hwant : Calm B c.core { c.core.edit r (fun l =>
          { l with wanted := ({ s.inbox with want := n, granted := false } : Inbox).wanted }) with
          attention := true } := .wants r _ (hon hp)
      refine ⟨by simp only [CallOp.run, Inbox.reserve, hpark]; rfl, ?_⟩
      rw [Conn.core_mod_const hn (g := fun l =>
        { l with wanted := ({ s.inbox with want := n, granted := false } : Inbox).wanted })]
      · exact hwant
      · simp only [CallOp.run, Inbox.reserve, hpark, hs]
        rfl
    · left
      refine none ?_
      simp only [CallOp.run, Inbox.reserve, hpark]
      rfl
  | reserved =>
    left
    refine one (fun l => { l with wanted := 0 }) ?_ (.unwanted r)
    simp only [CallOp.run, Stream.line, Inbox.reserved_wanted]
    rfl
  | timedOut why =>
    left
    refine one (fun l => { l with wanted := 0 }) ?_ (.unwanted r)
    simp only [CallOp.run, Inbox.timedOut, Stream.line, Inbox.fail_wanted]
    rfl
  | giveUp => exact .inl (one (fun l => { l with reset := true }) rfl (.markReset r))
  | cancel => exact .inl (none rfl)
  | openOut head headOnly =>
    left
    simp only [CallOp.run]
    split
    · exact none rfl
    · exact one (fun l => { l with pristine := false }) rfl (.stained r false (hon hp))
  | lend piece =>
    left
    refine none ?_
    simp [CallOp.run, Stream.line]
  | finishOut trailers =>
    left
    refine none ?_
    simp [CallOp.run, Stream.line]
  | handOver keepaliveMs =>
    left
    simp only [CallOp.run]
    split
    · exact none rfl
    · refine one (fun l => { l with pristine := false }) ?_ (.stained r false (hon hp))
      simp [Stream.line]

theorem callStep_path (op : CallOp) (hk : Good B nice c.core)
    (hp : c.core.On r (·.phase ≠ .headers)) :
    ReflTransGen (Calm B) c.core (c.callStep r op).core := by
  rw [Conn.core_callStep hk.awake]
  by_cases hr : r ∈ c.refs
  · have hphase : (c.get r).phase ≠ .headers := Conn.get_on hr hp
    rcases CallOp.run_calm op c.shared.dead hk.refs_nodup hphase with
      hpath | ⟨hpoked, hmove⟩
    · split
      · exact hpath.tail .poked
      · exact hpath
    · rw [if_pos hpoked]
      exact .single hmove
  · -- no such stream: the connection may be poked, and that is all
    have hsame : (c.mod r fun _ => (op.run c.shared.dead (c.get r)).1).core = c.core := by
      have : c.core.edit r (fun l => l) = c.core := by
        rw [Core.edit, edit_eq_self fun _ _ _ => rfl]
      refine (Conn.core_mod_of (g := fun l => l) ?_).trans this
      intro s hs hsr
      exact absurd (List.mem_map.2 ⟨s, hs, hsr⟩) hr
    rw [hsame]
    split
    · exact .single .poked
    · exact .refl

theorem callStep_goes {op : CallOp} (hp : c.core.On r (·.phase ≠ .headers)) :
    (calm D B nice).Goes c (modify (·.callStep r op) : M D Unit) fun _ _ => True := by
  refine .assuming fun hk => ?_
  exact .change (callStep_path _ hk hp) trivial

theorem calm_path_good {k k' : Core D} (p : ReflTransGen (Calm B) k k') (hk : Good B nice k) :
    Good B nice k' :=
  Course.preserved p (fun m h => (Move.front (.plain (.calm m))).good h) hk

theorem calm_path_begun {k k' : Core D} (p : ReflTransGen (Calm B) k k')
    (hp : k.On r (·.phase ≠ .headers)) : k'.On r (·.phase ≠ .headers) :=
  Course.preserved (P := fun k => k.On r (·.phase ≠ .headers)) p
    (fun m h => (Plain.calm m : Plain B True _ _).begun h) hp

theorem callSteps_path {ops : List CallOp} (hk : Good B nice c.core)
    (hp : c.core.On r (·.phase ≠ .headers)) :
    ReflTransGen (Calm B) c.core (ops.foldl (fun c op => c.callStep r op) c).core := by
  induction ops generalizing c with
  | nil => exact .refl
  | cons op rest ih =>
    have hstep := callStep_path op hk hp
    exact hstep.trans (ih (calm_path_good hstep hk) (calm_path_begun hstep hp))

theorem callBody_goes (hp : c.core.On r (·.phase ≠ .headers)) :
    (calm D B nice).Goes c (callBody r) fun _ _ => True := by
  refine .assuming fun hk => ?_
  refine .get_bind (.calmThen (.change (callSteps_path hk hp) trivial) fun _ _ _ => ?_)
  refine update_quiet rfl (fun s => ?_) trivial
  split <;> rfl

/-! ## Two changes as one -/

theorem Conn.mod_mod {f g : Stream → Stream} (hf : ∀ s, (f s).ref = s.ref) :
    (c.mod r f).mod r g = c.mod r fun s => g (f s) := by
  have : Lib.edit (·.ref) r g (Lib.edit (·.ref) r f c.streams) =
      Lib.edit (·.ref) r (fun s => g (f s)) c.streams := Lib.edit_edit hf
  simp only [Conn.mod, this]

theorem update_twice {α : Type} {f g : Stream → Stream} {m : M D α} (hf : ∀ s, (f s).ref = s.ref) :
    (update r f >>= fun _ => update r g >>= fun _ => m) c =
      (update r (fun s => g (f s)) >>= fun _ => m) c := by
  show m ((c.mod r f).mod r g) = m (c.mod r fun s => g (f s))
  rw [Conn.mod_mod hf]

/-- A call begins: its phase and its pipe. -/
theorem launch_goes {f : Stream → Stream} (hb : c.Ripe r)
    (hf : ∀ s, (f s).line =
      { s.line with
        phase := .running
        collecting := s.inbox.collecting || (s.grpc && !s.collecting)
        gathering := s.collecting || s.grpc }) :
    (plain D B nice).Goes c (update r f) fun _ c' => c'.Back r := by
  refine .assuming fun hk => ?_
  obtain ⟨hcore, hbeside⟩ := Conn.beside_mod (c := c) (r := r) (f := f)
    (g := fun l =>
      { l with
        phase := .running
        collecting := l.collecting || (l.grpc && !l.gathering)
        gathering := l.gathering || l.grpc })
    hk.refs_nodup (hf _) fun _ => rfl
  refine .move ?_ ⟨?_, ?_, ?_⟩
  · show Plain B nice c.core (c.mod r f).core
    rw [hcore]
    exact .launch r fun l hl hr => (hb.free l hl hr).2.2
  · exact Conn.mem_mod (fun s => congrArg (·.ref) (hf s)) hb.mem
  · rw [Core.Loose, hbeside.queues]
    exact hb.loose
  · rw [hcore]
    refine Core.On.edit fun l hl hlr => ?_
    obtain ⟨hd, hh, -⟩ := hb.free l hl hlr
    exact ⟨rfl, hd, hh⟩

theorem Stream.armed_line {s : Stream} :
    s.armed.line =
      { s.line with
        collecting := s.inbox.collecting || (s.grpc && !s.collecting)
        gathering := s.collecting || s.grpc } := by
  have hgather : (s.collecting || s.grpc && !s.collecting) = (s.collecting || s.grpc) := by
    cases s.collecting <;> simp
  simp only [Stream.armed, Stream.line, hgather]
  rfl

theorem Stream.armed_ref (s : Stream) : s.armed.ref = s.ref :=
  congrArg (·.ref) s.armed_line

/-! ## Answers made here -/

theorem ready_goes (hb : c.Ripe r) :
    (ending D B nice).Goes c (ready r) fun _ c' => c'.core.On r (·.phase ≠ .headers) := by
  refine .bind (answering_goes hb fun _ => rfl) fun _ c₁ hw => ?_
  have hP : c₁.core.On r (·.phase ≠ .headers) := hw.1.begun
  refine .bind ((writeStream_goes hw.1).keeping (P := fun k => k.On r (·.phase ≠ .headers))
    (fun m _ h => m.plain.begun h) hP) fun _ _ h => .pure h.2

theorem answerNow_goes {code : Nat} {message : String} (hb : c.Ripe r) :
    (ending D B nice).Goes c (answerNow h r code message)
      fun _ c' => c'.core.On r (·.phase ≠ .headers) :=
  .calmThenEnding (update_quiet rfl (fun _ => rfl) trivial) fun _ _ hf => ready_goes (hb.framed hf)

theorem answerStatus_goes {status : Nat} {message : String} (hb : c.Ripe r) :
    (ending D B nice).Goes c (answerStatus h r status message)
      fun _ c' => c'.core.On r (·.phase ≠ .headers) :=
  .calmThenEnding (update_quiet rfl (fun _ => rfl) trivial) fun _ _ hf => ready_goes (hb.framed hf)

theorem Left.begun {c c' : Conn D} (hl : Left r c c') : c'.core.On r (·.phase ≠ .headers) := by
  intro l hmem hlr
  refine absurd ?_ hl.gone
  rw [← Conn.core_refs, ← hlr]
  exact List.mem_map_of_mem hmem

theorem malformed_goes (hm : c.MayLeave r) :
    (ending D B nice).Goes c (malformed r) fun _ c' => c'.core.On r (·.phase ≠ .headers) := by
  refine .get_bind (.calmThenEnding (emit_small rfl rfl ?_) fun _ _ hf => ?_)
  · exact Nat.le_of_ble_eq_true rfl
  · exact (forget_goes (hm.framed hf) nofun).weaken fun _ _ hl => hl.begun

/-! ## Fibers -/

theorem Conn.Back.givable (hb : c.Back r) : c.core.Givable r :=
  ⟨by rw [Conn.core_refs]; exact hb.mem, hb.free, hb.loose⟩

theorem Conn.Back.begun (hb : c.Back r) : c.core.On r (·.phase ≠ .headers) := by
  intro l hl hr hp
  rw [(hb.free l hl hr).1] at hp
  cases hp

/-- A call taken off the queue is running, and nobody else's. -/
theorem Good.dequeued {c c' : Conn D} {q : Ref} {rest : List Ref} (hk : Good B nice c.core)
    (hpend : c.shared.pending = q :: rest) (hc' : c'.core = { c.core with pending := rest }) :
    c'.Back q := by
  have hq : q ∈ c.core.queues := by
    have : q ∈ c.shared.pending := hpend ▸ List.mem_cons_self
    exact List.mem_append_left _ (List.mem_append_left _ this)
  have hnodup : (c.shared.pending ++ c.inHand ++ c.shared.answered).Nodup := hk.queues.nodup
  rw [hpend, List.cons_append, List.cons_append] at hnodup
  obtain ⟨s, hs, hsr, hrun⟩ := hk.queues.running q hq
  refine ⟨?_, ?_, ?_⟩
  · rw [← Conn.core_refs, hc']
    show q ∈ c.core.refs
    rw [← Core.standings_refs, ← hsr]
    exact List.mem_map_of_mem hs
  · rw [hc']
    exact (List.nodup_cons.1 hnodup).1
  · rw [hc']
    intro l hl hlr
    have hls : l.toStanding ∈ c.core.standings := List.mem_map_of_mem hl
    have hsame : l.toStanding = s := eq_of_key hk.table.nodup hls hs (hlr.trans hsr.symm)
    have hfree (hheld : l.deferred = true ∨ l.holding = true) : False :=
      (hk.queues.waiting _ hls hheld).2 (by rw [hlr]; exact hq)
    refine ⟨by rw [hsame]; exact hrun, ?_, ?_⟩
    · exact Bool.eq_false_iff.2 fun hd => hfree (.inl hd)
    · exact Bool.eq_false_iff.2 fun hh => hfree (.inr hh)

theorem give_goes (hb : c.Back r) :
    (plain D B nice).Goes c (modify (·.give r) : M D Unit) fun _ _ => True :=
  .move (.give r hb.givable) trivial

theorem nextSpawn_goes : (calm D B nice).Goes c nextSpawn fun _ _ => True := by
  refine .get_bind ?_
  split
  · exact .pure trivial
  · exact .bind (Q := fun _ _ => True) (.quiet rfl trivial) fun _ _ _ => .pure trivial

theorem unfresh_goes : (calm D B nice).Goes c unfresh fun _ _ => True :=
  .get_bind (.when (fun _ => .quiet rfl trivial) fun _ => trivial)

theorem unstarted_goes : (calm D B nice).Goes c (modify (·.unstarted) : M D Unit)
    fun _ _ => True := .quiet rfl trivial

end Nilo.Http2

namespace Nilo.Lib.Course.Goes

open Nilo.Http2

variable {D : Type} {nice : Prop} {B : Nat}
variable {α β : Type} {c : Conn D} {m : M D α}

theorem calmThenPlain {f : α → M D β} {R : β → Conn D → Prop}
    (hm : (calm D B nice).Goes c m fun _ _ => True)
    (hf : ∀ a c', Framed c c' → (plain D B nice).Goes c' (f a) R) :
    (plain D B nice).Goes c (m >>= f) R :=
  .bind hm.calmFramed.toPlain fun a c' h => hf a c' h.2

end Nilo.Lib.Course.Goes

namespace Nilo.Http2

open Nilo.Lib
open Relation (ReflTransGen)

variable {D : Type} {h : Host} {nice : Prop} {B : Nat} {c : Conn D} {r : Ref}

theorem startWithoutEngine_goes (hb : c.Back r) :
    (plain D B nice).Goes c (startWithoutEngine h r) fun _ _ => True := by
  rw [startWithoutEngine]
  split
  · refine .get_bind (.ite (fun _ => ?_) fun _ => ?_)
    · refine .calmThenPlain unstarted_goes fun _ c₁ hf₁ => ?_
      have hb₁ := hb.framed hf₁
      refine update_goes rfl (Plain.defer r hb₁.loose fun l hl hr => ?_) (fun _ => rfl) trivial
      exact (hb₁.free l hl hr).1
    · refine .calmThenPlain (update_quiet rfl (fun _ => rfl) trivial) fun _ c₁ hf₁ => ?_
      refine .calmThenPlain (callBody_goes (hb.framed hf₁).begun) fun _ c₂ hf₂ => ?_
      refine .assuming fun hk₂ => ?_
      refine .move ?_ trivial
      have hopen : c₂.shared.closed = false := hk₂.awake
      have hcore : ({ c₂ with shared := c₂.shared.finish r } : Conn D).core =
          { c₂.core with answered := c₂.core.answered ++ [r] } := by
        simp only [Conn.core, Shared.finish, hopen]
        rfl
      show Plain B nice c₂.core ({ c₂ with shared := c₂.shared.finish r } : Conn D).core
      rw [hcore]
      exact .returned r ((hb.framed hf₁).framed hf₂).givable
  · exact give_goes hb

/-- A call turned away is answered: what it passes through on the way there is not seen. -/
theorem turnAway_goes (hb : c.Back r) :
    (plain D B nice).Goes c (turnAway h r) fun _ _ => True := by
  refine .calmThenPlain unstarted_goes fun _ c₁ hf₁ => ?_
  have hb₁ := hb.framed hf₁
  refine .as (n := update r (fun s =>
      { s with
        headBlock := h.trailersOnly 14 (Text.ascii "the server is stopping"), trailersOnly := true,
        phase := .writing }) >>= fun _ => writeStream r >>= fun _ => pure ()) ?_ ?_
  · have hfirst := update_twice (c := c₁) (r := r) (f := fun s => { s with phase := .headers })
      (g := fun s =>
        { s with
          headBlock := h.trailersOnly 14 (Text.ascii "the server is stopping"), trailersOnly := true })
      (m := ready r) fun _ => rfl
    exact hfirst.trans (update_twice fun _ => rfl)
  · refine .bind (Course.Goes.endingToPlain (answering_goes hb₁.ripe fun _ => rfl)) ?_
    rintro _ c₂ ⟨hw, -⟩
    exact .bind (writeStream_goes hw).endingToPlain fun _ _ _ => .pure trivial

theorem drainQueue_goes {f : Ref → M D Unit} {fuel : Nat}
    (hf : ∀ {c : Conn D} {q}, c.Back q → (plain D B nice).Goes c (f q) fun _ _ => True) :
    (plain D B nice).Goes c (drainQueue f fuel) fun _ _ => True := by
  induction fuel generalizing c with
  | zero => exact .pure trivial
  | succ fuel ih =>
    refine .assuming fun hk => ?_
    refine .get_bind ?_
    cases hpend : c.shared.pending with
    | nil =>
      have htake : c.shared.takeQueued = (none, c.shared) := by rw [Shared.takeQueued, hpend]
      rw [htake]
      exact .pure trivial
    | cons q rest =>
      have htake : c.shared.takeQueued = (some q, { c.shared with pending := rest }) := by
        rw [Shared.takeQueued, hpend]
      rw [htake]
      have hcore : ({ c with shared := c.shared.takeQueued.2 } : Conn D).core =
          { c.core with pending := rest } := by
        rw [htake]
        rfl
      refine .bind (Q := fun _ c' => c'.Back q) (.move ?_ (hk.dequeued hpend hcore)) ?_
      · show Plain B nice c.core ({ c with shared := c.shared.takeQueued.2 } : Conn D).core
        rw [hcore]
        have : rest = c.core.pending.tail := by
          show rest = c.shared.pending.tail
          rw [hpend, List.tail_cons]
        rw [this]
        exact .dequeue
      · exact fun _ _ hb => .bind (hf hb) fun _ _ _ => ih

theorem turnAllAway_goes (hb : c.Back r) :
    (plain D B nice).Goes c (turnAllAway h r) fun _ _ => True :=
  .bind (turnAway_goes hb) fun _ _ _ => .get_bind (drainQueue_goes turnAway_goes)

theorem spawnCall_goes (hb : c.Back r) :
    (plain D B nice).Goes c (spawnCall h r) fun _ _ => True := by
  refine .calmThenPlain nextSpawn_goes fun s c₁ hf₁ => ?_
  have hb₁ := hb.framed hf₁
  cases s with
  | ok => exact give_goes hb₁
  | noServer => exact startWithoutEngine_goes hb₁
  | invalidPlacement | stopping => exact turnAllAway_goes hb₁

theorem spawnRunner_goes (hb : c.Back r) :
    (plain D B nice).Goes c (spawnRunner h r) fun _ _ => True := by
  refine .get_bind (.ite (fun _ => spawnCall_goes hb) fun _ => ?_)
  refine .calmThenPlain nextSpawn_goes fun s c₁ hf₁ => ?_
  have hb₁ := hb.framed hf₁
  cases s with
  | ok => exact give_goes hb₁
  | noServer =>
    exact .calmThenPlain unfresh_goes fun _ _ hf => startWithoutEngine_goes (hb₁.framed hf)
  | invalidPlacement =>
    refine .calmThenPlain unfresh_goes fun _ c₂ hf₂ => ?_
    refine .calmThenPlain (.quiet rfl trivial) fun _ c₃ hf₃ => ?_
    refine .bind (spawnCall_goes ((hb₁.framed hf₂).framed hf₃)) fun _ _ _ => ?_
    exact .get_bind (drainQueue_goes spawnCall_goes)
  | stopping => exact .calmThenPlain unfresh_goes fun _ _ hf => turnAllAway_goes (hb₁.framed hf)

/-- The oldest queued call, for a fiber about to be spawned. -/
theorem Shared.takeFirst_some {s : Shared} {q : Ref} (hq : s.takeFirstIfNoneFresh.1 = some q) :
    ∃ rest, s.pending = q :: rest ∧
      s.takeFirstIfNoneFresh.2 = { s with pending := rest, fresh := s.fresh + 1 } := by
  rw [Shared.takeFirstIfNoneFresh] at hq ⊢
  split at hq
  · cases hq
  · rename_i hfresh
    rw [if_neg hfresh]
    split at hq
    · cases hq
    · rename_i head rest hpend
      cases hq
      exact ⟨rest, hpend, rfl⟩

theorem Shared.takeFirst_none {s : Shared} (hq : s.takeFirstIfNoneFresh.1 = none) :
    s.takeFirstIfNoneFresh.2 = s := by
  rw [Shared.takeFirstIfNoneFresh] at hq ⊢
  split at hq
  · rename_i hfresh
    rw [if_pos hfresh]
  · rename_i hfresh
    rw [if_neg hfresh]
    split at hq
    · rfl
    · cases hq

theorem takeFirst_goes :
    (plain D B nice).Goes c takeFirst fun first c' => ∀ q, first = some q → c'.Back q := by
  refine .assuming fun hk => ?_
  refine .get_bind ?_
  cases hq : c.shared.takeFirstIfNoneFresh.1 with
  | none =>
    refine .bind (Q := fun _ _ => True) (.quiet ?_ trivial) fun _ _ _ => .pure nofun
    show ({ c with shared := c.shared.takeFirstIfNoneFresh.2 } : Conn D).core = c.core
    rw [Shared.takeFirst_none hq]
  | some q =>
    obtain ⟨rest, hpend, htake⟩ := Shared.takeFirst_some hq
    have hcore : ({ c with shared := c.shared.takeFirstIfNoneFresh.2 } : Conn D).core =
        { c.core with pending := rest } := by
      rw [htake]
      rfl
    refine .bind (Q := fun _ c' => c'.Back q) (.move ?_ (hk.dequeued hpend hcore)) ?_
    · show Plain B nice c.core ({ c with shared := c.shared.takeFirstIfNoneFresh.2 } : Conn D).core
      rw [hcore]
      have : rest = c.core.pending.tail := by
        show rest = c.shared.pending.tail
        rw [hpend, List.tail_cons]
      rw [this]
      exact .dequeue
    · refine fun _ _ hb => .pure ?_
      rintro _ ⟨⟩
      exact hb

theorem rendezvous_goes {fuel : Nat} :
    (plain D B nice).Goes c (rendezvous h fuel) fun _ _ => True := by
  induction fuel generalizing c with
  | zero => exact .pure trivial
  | succ fuel ih =>
    refine .bind takeFirst_goes fun first c₁ hb => ?_
    cases first with
    | none => exact .pure trivial
    | some q => exact .bind (spawnRunner_goes (hb q rfl)) fun _ _ _ => ih

/-! ## A call begins -/

/-- The call begins, and the history has it. -/
theorem started_goes {g : Conn D → Conn D} (hb : c.Back r)
    (hg : (g c).core = c.core.log (.started (c.get r).id)) :
    (plain D B nice).Goes c (modify g : M D Unit) fun _ c' => c'.Back r := by
  refine .assuming fun hk => ?_
  refine .move ?_ ?_
  · show Plain B nice c.core (g c).core
    rw [hg]
    refine .started r _ (by rw [Conn.core_refs]; exact hb.mem) ?_
    refine Conn.on_get hk.refs_nodup ⟨rfl, ?_⟩
    exact Conn.get_on hb.mem hb.begun
  · refine ⟨?_, ?_, ?_⟩
    · rw [← Conn.core_refs, hg]
      show r ∈ c.core.refs
      rw [Conn.core_refs]
      exact hb.mem
    · rw [hg]
      exact hb.loose
    · rw [hg]
      exact hb.free

theorem runInline_goes (hb : c.Ripe r) :
    (plain D B nice).Goes c (runInline r) fun _ c' => c'.core.On r (·.phase ≠ .headers) := by
  refine .as (update_twice Stream.armed_ref) ?_
  refine .bind (launch_goes hb fun s => ?_) fun _ c₁ hb₁ => ?_
  · exact congrArg (fun l : Line => { l with phase := .running }) s.armed_line
  refine .bind (started_goes hb₁ rfl) fun _ c₂ hb₂ => ?_
  refine .calmThenPlain (update_quiet rfl (fun _ => rfl) trivial) fun _ c₃ hf₃ => ?_
  have hb₃ := hb₂.framed hf₃
  refine .calmThenPlain (callBody_goes hb₃.begun) fun _ c₄ hf₄ => ?_
  refine .bind (Course.Goes.endingToPlain (answering_goes (hb₃.framed hf₄).ripe fun _ => rfl)) ?_
  rintro _ c₅ ⟨hw, -⟩
  refine .get_bind (.ite (fun _ => .pure hw.begun) fun _ => ?_)
  refine .bind (((writeStream_goes hw).keeping (P := fun k => k.On r (·.phase ≠ .headers))
    (fun m _ h => m.plain.begun h) hw.begun).endingToPlain) fun _ _ h => .pure h.2

theorem start_goes (hb : c.Ripe r) :
    (plain D B nice).Goes c (start h r) fun _ c' => c'.core.On r (·.phase ≠ .headers) := by
  refine .get_bind (.ite (fun _ => runInline_goes hb) fun _ => ?_)
  refine .as (update_twice Stream.armed_ref) ?_
  refine .bind (launch_goes hb fun s => ?_) fun _ c₁ hb₁ => ?_
  · exact congrArg (fun l : Line => { l with phase := .running }) s.armed_line
  refine .bind (started_goes hb₁ rfl) fun _ c₂ hb₂ => ?_
  have rest {m : M D Unit} (hm : (plain D B nice).Goes c₂ m fun _ _ => True) :
      (plain D B nice).Goes c₂ m fun _ c' => c'.core.On r (·.phase ≠ .headers) :=
    (hm.keeping (P := fun k => k.On r (·.phase ≠ .headers)) (fun m _ h => m.begun h)
      hb₂.begun).weaken fun _ _ h => h.2
  refine rest (.get_bind (.ite (fun _ => ?_) fun _ => spawnRunner_goes hb₂))
  refine .bind (Q := fun _ _ => True) (.move (.enqueue r hb₂.givable) trivial) fun _ c₃ _ => ?_
  refine .bind takeFirst_goes fun first c₄ hfirst => ?_
  cases first with
  | none => exact .pure trivial
  | some q => exact spawnRunner_goes (hfirst q rfl)

/-! ## Calls held back -/

/-- A call held for the connection's fiber is in no queue. -/
theorem Good.held (hk : Good B nice c.core) {s : Stream} (hs : s ∈ c.streams)
    (hh : s.holding = true ∨ s.deferred = true) : s.phase = .running ∧ c.core.Loose s.ref := by
  have hmem : s.line.toStanding ∈ c.core.standings := List.mem_map_of_mem (List.mem_map_of_mem hs)
  exact hk.queues.waiting _ hmem hh.symm

theorem release_goes :
    (ending D B nice).Goes c (modify (·.release r) : M D Unit) fun _ c' =>
      c'.core = c.core.edit r fun l => { l with holding := false } := by
  have hcore : (c.release r).core = c.core.edit r fun l => { l with holding := false } := by
    have hmod : (c.mod r fun s => { s with holding := false }).core =
        c.core.edit r fun l => { l with holding := false } := Conn.core_mod fun _ => rfl
    exact hmod
  refine .move ?_ hcore
  show Ending B nice c.core (c.release r).core
  rw [hcore]
  exact ⟨.unhold r, rfl, rfl⟩

theorem startHeld_goes {fuel : Nat} :
    (plain D B nice).Goes c (startHeld h fuel) fun _ _ => True := by
  induction fuel generalizing c with
  | zero => exact .pure trivial
  | succ fuel ih =>
    refine .assuming fun hk => ?_
    refine .get_bind (.ite (fun _ => .pure trivial) fun _ => ?_)
    split
    · exact Course.Goes.toPlain (.quiet rfl trivial)
    · rename_i s hfind
      have hs := List.mem_of_find?_eq_some hfind
      obtain ⟨hrun, hloose⟩ := hk.held hs (.inl (by simpa using List.find?_some hfind))
      have hget : c.get s.ref = s := (Conn.eq_get hk.refs_nodup hs rfl).symm
      refine .bind release_goes.endingToPlain fun _ c₁ hc₁ => ?_
      have hcore : (c₁.mod s.ref fun s => { s with deferred := false }).core = c.core.edit s.ref
          fun l => { l with holding := false, deferred := false } := by
        have hmod : (c₁.mod s.ref fun s => { s with deferred := false }).core =
            c₁.core.edit s.ref fun l => { l with deferred := false } := Conn.core_mod fun _ => rfl
        rw [hmod, hc₁]
        exact Core.edit_edit fun _ => rfl
      have hripe : (c₁.mod s.ref fun s => { s with deferred := false }).Ripe s.ref := by
        refine ⟨?_, ?_, ?_⟩
        · rw [← Conn.core_refs, hcore]
          exact Core.mem_edit_refs (fun _ => rfl) (List.mem_map_of_mem (List.mem_map_of_mem hs))
        · rw [hcore]
          exact hloose
        · rw [hcore]
          have hon : c.core.On s.ref (·.phase = .running) :=
            Conn.on_get hk.refs_nodup (by rw [hget]; exact hrun)
          exact Core.On.edit fun l hl hlr => ⟨rfl, rfl, .inl (hon l hl hlr)⟩
      refine .bind (Q := fun _ c' => c'.Ripe s.ref)
        (update_goes rfl (Plain.undefer s.ref) (fun _ => rfl) hripe) fun _ _ hb => ?_
      exact .bind (start_goes hb) fun _ _ _ => ih

theorem dropHeldFrom_goes {rs : List Ref} :
    (ending D B nice).Goes c (dropHeldFrom rs) fun _ _ => True := by
  induction rs generalizing c with
  | nil => exact Course.Goes.toEnding (.quiet rfl trivial)
  | cons r rest ih =>
    refine .assuming fun hk => ?_
    refine .get_bind (.bind (Q := fun _ _ => True) (.when (fun hheld => ?_) fun _ => trivial)
      fun _ _ _ => ih)
    have hr : r ∈ c.refs := Conn.mem_of_get (P := fun s => s.holding = true) hheld.2 nofun
    have hs := Conn.get_mem hr
    obtain ⟨hrun, hloose⟩ := hk.held hs.1 (.inl hheld.2)
    rw [hs.2] at hloose
    refine .bind release_goes fun _ c₁ hc₁ => ?_
    refine (discard_goes ⟨?_, ?_, ?_⟩ nofun).weaken fun _ _ _ => trivial
    · rw [← Conn.core_refs, hc₁]
      exact Core.mem_edit_refs (fun _ => rfl) (by rwa [Conn.core_refs])
    · rw [hc₁]
      exact hloose
    · rw [hc₁]
      have hon : c.core.On r (·.phase = .running) := Conn.on_get hk.refs_nodup hrun
      refine Core.On.edit fun l hl hlr hp => ?_
      have hp : l.phase = .headers := hp
      rw [hon l hl hlr] at hp
      cases hp

theorem dropHeld_goes : (ending D B nice).Goes c dropHeld fun _ _ => True :=
  .get_bind dropHeldFrom_goes

/-! ## The checks of a request -/

/-- A call is held for the connection's fiber to run when its stream ends. -/
theorem holdCall_goes (hb : c.Ripe r) :
    (plain D B nice).Goes c
      (do update r fun s => { s with phase := .running }
          armInbox r
          update r fun s => { s with deferred := true, holding := true }
          modify fun c => { c with holds := c.holds + 1 } : M D Unit)
      fun _ c' => c'.core.On r (·.phase ≠ .headers) := by
  refine .as (update_twice fun _ => rfl) ?_
  refine .bind (launch_goes hb fun s => ?_) fun _ c₁ hb₁ => ?_
  · exact Stream.armed_line
  have hrun : c₁.core.On r (·.phase = .running) := fun l hl hr => (hb₁.free l hl hr).1
  have hcore : (c₁.mod r fun s => { s with deferred := true, holding := true }).core =
      (c₁.core.edit r fun l => { l with deferred := true }).edit r
        fun l => { l with holding := true } := by
    have hmod : (c₁.mod r fun s => { s with deferred := true, holding := true }).core =
        c₁.core.edit r fun l => { l with deferred := true, holding := true } :=
      Conn.core_mod fun _ => rfl
    rw [hmod]
    symm
    exact Core.edit_edit fun _ => rfl
  refine .bind (Q := fun _ c' => c'.core.On r (·.phase ≠ .headers)) (.change ?_ ?_) fun _ _ h => ?_
  · show ReflTransGen (Plain B nice) c₁.core
      (c₁.mod r fun s => { s with deferred := true, holding := true }).core
    rw [hcore]
    refine (ReflTransGen.single (.defer r hb₁.loose hrun)).tail (.holdFor r hb₁.loose ?_)
    exact Core.On.edit hrun
  · rw [hcore]
    exact Core.On.edit (Core.On.edit hb₁.begun)
  · exact .quiet rfl h

/-- The checks of a request: it ends answered, refused, or begun. -/
theorem dispatch_goes (hb : c.Ripe r) :
    (plain D B nice).Goes c (dispatch h r) fun _ c' => c'.core.On r (·.phase ≠ .headers) := by
  refine .calmThenPlain unstarve_goes fun _ c₁ hf₁ => ?_
  have hb₁ := hb.framed hf₁
  have hbad : (plain D B nice).Goes c₁ (malformed r) fun _ c' =>
    c'.core.On r (·.phase ≠ .headers) := (malformed_goes hb₁.mayLeave).endingToPlain
  refine .get_bind (.ite (fun _ => ?_) fun _ => ?_)
  · refine .ite (fun _ => (answerStatus_goes hb₁).endingToPlain) fun _ => ?_
    exact (answerNow_goes hb₁).endingToPlain
  refine .ite (fun _ => hbad) fun _ => ?_
  split
  · exact hbad
  rename_i method _
  refine .ite (fun _ => ?_) fun _ => ?_
  · refine .calmThenPlain (.quiet rfl trivial) fun _ _ hf => ?_
    exact (answerStatus_goes (hb₁.framed hf)).endingToPlain
  split
  · exact hbad
  rename_i path _
  refine .ite (fun _ => hbad) fun _ => .ite (fun _ => hbad) fun _ => ?_
  refine .ite (fun _ => hbad) fun _ => .ite (fun _ => hbad) fun _ => ?_
  split
  · exact hbad
  rename_i announced _
  refine .calmThenPlain (update_quiet rfl (fun _ => rfl) trivial) fun _ c₂ hf₂ => ?_
  have hb₂ := hb₁.framed hf₂
  refine .ite (fun _ => (malformed_goes hb₂.mayLeave).endingToPlain) fun _ => ?_
  refine .calmThenPlain (.when (fun _ => .quiet rfl trivial) fun _ => trivial) fun _ c₃ hf₃ => ?_
  have hb₃ := hb₂.framed hf₃
  refine .ite (fun _ => (answerNow_goes hb₃).endingToPlain) fun _ => ?_
  split
  · exact (answerNow_goes hb₃).endingToPlain
  · refine .calmThenPlain (update_quiet rfl (fun _ => rfl) trivial) fun _ c₄ hf₄ => ?_
    have hb₄ := hb₃.framed hf₄
    exact .ite (fun _ => holdCall_goes hb₄) fun _ => start_goes hb₄

end Nilo.Http2
