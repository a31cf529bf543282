import Nilo.Http2.Goes.Conn

/-!
# Where the connection's operations go: answers

What each function of `Writing.lean` does. DATA goes out along `calm`: each of the
four places that write it finds room in both windows and in the frame. A stream
leaves along `ending`, when its answer is written, its pipe has failed or its call
was cancelled; no call is given a fiber on the way, and none is taken off the
queue.
-/

namespace Nilo.Http2

open Nilo.Lib
open Relation (ReflTransGen)

variable {D : Type} {nice : Prop} {B : Nat} {c : Conn D} {r : Ref}

/-- A stream of the table whose answer is being written. -/
structure Conn.Writes (c : Conn D) (r : Ref) : Prop where
  mem : r ∈ c.refs
  writing : c.core.On r (·.phase = .writing)

theorem Conn.Writes.framed {c c' : Conn D} (hw : c.Writes r) (hf : Framed c c') : c'.Writes r where
  mem := by
    rw [← Conn.core_refs, hf.refs, Conn.core_refs]
    exact hw.mem
  writing := hf.on (P := fun s => s.phase = .writing) hw.writing

theorem Conn.Writes.of_get (hn : c.refs.Nodup) (hp : (c.get r).phase = .writing) : c.Writes r :=
  ⟨Conn.mem_of_get (P := fun s => s.phase = .writing) hp nofun, Conn.on_get hn hp⟩

/-- A call in a queue is running, so a stream in another phase is in none. -/
theorem Good.loose {k : Core D} (hk : Good B nice k) (hr : k.On r (·.phase ≠ .running)) :
    k.Loose r := by
  intro hq
  obtain ⟨s, hs, hsr, hrun⟩ := hk.queues.running r hq
  exact Core.On.standing (P := fun s => s.phase ≠ .running) hr s hs hsr hrun

/-- A call in a queue is running. -/
theorem Good.queued {k : Core D} (hk : Good B nice k) (hq : r ∈ k.queues) :
    r ∈ k.refs ∧ k.On r (·.phase = .running) := by
  obtain ⟨s, hs, rfl, hrun⟩ := hk.queues.running r hq
  obtain ⟨l, hl, rfl⟩ := List.mem_map.1 hs
  refine ⟨List.mem_map_of_mem hl, fun l' hl' hlr => ?_⟩
  rw [eq_of_key hk.nodup hl' hl hlr]
  exact hrun

theorem Conn.Writes.mayLeave (hk : Good B nice c.core) (hw : c.Writes r) : c.MayLeave r where
  mem := hw.mem
  loose := hk.loose fun l hl hr hp => by
    rw [hw.writing l hl hr] at hp
    cases hp
  whole l hl hr hp := by
    rw [hw.writing l hl hr] at hp
    cases hp

/-! ## Changes of a stream -/

/-- A change of what a stream's answer is made of. -/
theorem update_stained {f : Stream → Stream} {Q : Unit → Conn D → Prop}
    (hp : c.core.On r (·.phase ≠ .headers))
    (hf : ∀ s, (f s).line = { s.line with pristine := (f s).line.pristine })
    (hq : Q () (c.mod r f)) : (calm D B nice).Goes c (update r f) Q := by
  refine .assuming fun hk => ?_
  refine update_goes_of rfl hk.refs_nodup (Calm.stained r (f (c.get r)).line.pristine hp) ?_ hq
  exact hf _

/-- The call is told that nothing more comes, and what its answer is made of changes. -/
theorem update_failed {f : Stream → Stream} {Q : Unit → Conn D → Prop}
    (hp : c.core.On r (·.phase ≠ .headers))
    (hf : ∀ s, (f s).line = { s.line with wanted := 0, pristine := (f s).line.pristine })
    (hq : Q () (c.mod r f)) : (calm D B nice).Goes c (update r f) Q := by
  refine .assuming fun hk => ?_
  have hcore : (c.mod r f).core = (c.core.edit r fun l => { l with wanted := 0 }).edit r
      fun l => { l with pristine := (f (c.get r)).line.pristine } := by
    have hboth : (c.core.edit r fun l => { l with wanted := 0 }).edit r
        (fun l => { l with pristine := (f (c.get r)).line.pristine }) = c.core.edit r fun l =>
          { l with wanted := 0, pristine := (f (c.get r)).line.pristine } :=
      Core.edit_edit fun _ => rfl
    rw [hboth]
    refine Conn.core_mod_of ?_
    intro s hs hr
    rw [Conn.eq_get hk.refs_nodup hs hr]
    exact hf _
  refine .change ?_ hq
  show ReflTransGen (Calm B) c.core (c.mod r f).core
  rw [hcore]
  refine (ReflTransGen.single (Calm.unwanted r)).tail (.stained r _ ?_)
  exact forall_mem_edit hp fun _ _ _ hl => hl

theorem Inbox.fail_wanted {x : Inbox} {why : Failure} : (x.fail why).wanted = 0 := by
  have : (x.fail why).failure.isSome = true := by
    rw [Inbox.fail]
    cases x.failure <;> rfl
  rw [Inbox.wanted, this, Bool.or_true]
  rfl

theorem updateOut_goes {f : Outbox → Outbox} :
    (calm D B nice).Goes c (updateOut r f) fun _ _ => True := by
  refine update_quiet rfl (fun s => ?_) trivial
  simp [Stream.line]

/-! ## DATA -/

/-- One DATA frame, when both windows and the frame size leave room for it. -/
theorem emitData_goes {payload : Bytes} {e : Bool} (hr : r ∈ c.refs)
    (hroom : (payload.length : Int) ≤ c.room r) (hsize : payload.length ≤ c.peerMaxFrame) :
    (calm D B nice).Goes c (emitData r payload e) fun _ _ => True := by
  refine .assuming fun hk => ?_
  refine .get_bind ?_
  refine .as (n := emit (.data (c.get r).id payload e) >>= fun _ => modify fun c =>
    ({ c with sendWindow := c.sendWindow - payload.length } : Conn D).mod r fun s =>
      { s with sendWindow := s.sendWindow - payload.length }) ?_ ?_
  · rcases emit_run (f := .data (c.get r).id payload e) (c := c) with ⟨c', heq, -⟩ | heq
    · rw [Prog.bind_run, Prog.bind_run, heq]
      rfl
    · rw [Prog.bind_run, Prog.bind_run, heq]
  refine emit_modify_goes rfl Calm.shut rfl ?_
  rintro _ ⟨w, rfl⟩
  refine ⟨?_, trivial⟩
  have hdata := Calm.data (B := B) (k := c.core) r (c.get r).id payload e
    (by rwa [Conn.core_refs])
    (Conn.on_get hk.refs_nodup ⟨rfl, le_trans hroom (min_le_right _ _)⟩)
    (le_trans hroom (min_le_left _ _)) hsize
  have hmod : (c.mod r fun s => { s with sendWindow := s.sendWindow - payload.length }).core =
      c.core.edit r fun l => { l with sendWindow := l.sendWindow - payload.length } :=
    Conn.core_mod fun _ => rfl
  rw [← hmod] at hdata
  exact hdata

/-- What a turn may write is no more than the windows and the frame size allow. -/
theorem Conn.portion_le {n q : Nat} (hroom : ¬c.room r ≤ 0) :
    (c.portion r n q : Int) ≤ c.room r ∧ c.portion r n q ≤ c.peerMaxFrame := by
  rw [Conn.portion]
  omega

theorem dataFrames_goes {endsWith : Bool} {fuel quantum : Nat} {bytes : Bytes} (hr : r ∈ c.refs) :
    (calm D B nice).Goes c (dataFrames r endsWith fuel quantum bytes) fun _ _ => True := by
  induction fuel generalizing c quantum bytes with
  | zero => exact .pure trivial
  | succ fuel ih =>
    refine .ite (fun _ => .pure trivial) fun _ => ?_
    refine .get_bind (.ite (fun _ => .pure trivial) fun hroom => ?_)
    obtain ⟨hwin, hsize⟩ := Conn.portion_le (n := bytes.length) (q := quantum) hroom
    have hlen : (bytes.take (c.portion r bytes.length quantum)).length ≤
        c.portion r bytes.length quantum := List.length_take_le _ _
    refine .get_bind (.bind (emitData_goes hr ?_ (le_trans hlen hsize)).calmFramed ?_)
    · exact le_trans (Int.ofNat_le.2 hlen) hwin
    · rintro _ c' ⟨-, hf⟩
      have hr' : r ∈ c'.refs := by rwa [← Conn.core_refs, hf.refs, Conn.core_refs]
      exact .bind (ih hr') fun _ _ _ => .pure trivial

theorem Framed.mem {c c' : Conn D} (hf : Framed c c') (hr : r ∈ c.refs) : r ∈ c'.refs := by
  rwa [← Conn.core_refs, hf.refs, Conn.core_refs]

theorem Framed.begun {c c' : Conn D} (hf : Framed c c') (hp : c.core.On r (·.phase ≠ .headers)) :
    c'.core.On r (·.phase ≠ .headers) :=
  hf.on (P := fun s => s.phase ≠ .headers) hp

theorem finished_goes (hw : c.Writes r) :
    (ending D B nice).Goes c (finished r) fun _ c' => Left r c c' := by
  refine .get_bind (.calmThenEnding (.when (fun _ => emit_small rfl rfl ?_) fun _ => trivial) ?_)
  · exact Nat.le_of_ble_eq_true rfl
  · intro _ c' hf
    refine .assuming fun hk' => ?_
    refine (forget_goes ((hw.framed hf).mayLeave hk') nofun).weaken ?_
    exact fun _ _ h => ⟨hf.beside.trans h.beside, h.gone⟩

theorem writeBody_goes {s : Stream} (hw : c.Writes r) :
    (ending D B nice).Goes c (writeBody r s) fun _ c' => Beside r c c' := by
  refine .calmThenEnding (dataFrames_goes hw.mem) fun n c₁ hf₁ => ?_
  refine .calmThenEnding (update_quiet rfl (fun _ => rfl) trivial) fun _ c₂ hf₂ => ?_
  have hf := hf₁.trans hf₂
  refine .ite (fun _ => .pure hf.beside) fun _ => ?_
  refine .calmThenEnding (.when (fun _ => ?_) fun _ => trivial) fun _ c₃ hf₃ => ?_
  · exact .get_bind (emitAll_goes headerBlockFrames_small)
  · have hf := hf.trans hf₃
    refine .bind (finished_goes (hw.framed hf)) fun _ _ hl => .pure ?_
    exact hf.beside.trans hl.beside

theorem writeStream_goes (hw : c.Writes r) :
    (ending D B nice).Goes c (writeStream r) fun _ c' => Beside r c c' := by
  refine .get_bind (.calmThenEnding (.when (fun _ => ?_) fun _ => trivial) fun _ c₁ hf => ?_)
  · refine .get_bind (.calmThen (emitAll_goes headerBlockFrames_small) fun _ _ _ => ?_)
    exact update_quiet rfl (fun _ => rfl) trivial
  · refine .ite (fun _ => ?_) fun _ => ?_
    · refine .bind (finished_goes (hw.framed hf)) fun _ _ hl => .pure ?_
      exact hf.beside.trans hl.beside
    · exact (writeBody_goes (hw.framed hf)).weaken fun _ _ h => hf.beside.trans h

/-! ## The outbound pipes -/

theorem pumpHead_goes {o : Outbox} : (calm D B nice).Goes c (pumpHead r o) fun _ _ => True := by
  rw [pumpHead]
  split
  · exact .pure trivial
  · refine .get_bind (.get_bind (.bind (emitAll_goes headerBlockFrames_small) fun _ _ _ => ?_))
    exact .bind updateOut_goes fun _ _ _ => .pure trivial

theorem Conn.core_earnCredit : c.earnCredit.core = c.core := by
  rw [Conn.earnCredit]
  by_cases h : c.outBytes / creditBytes = 0
  · rw [if_pos h]
  · rw [if_neg h]
    rfl

theorem earnCredit_goes : (calm D B nice).Goes c (modify (·.earnCredit) : M D Unit)
    fun _ _ => True :=
  .quiet Conn.core_earnCredit trivial

theorem pumpPiece_goes {o : Outbox} (hr : r ∈ c.refs) (hp : c.core.On r (·.phase ≠ .headers)) :
    (calm D B nice).Goes c (pumpPiece r o) fun _ _ => True := by
  refine .calmThen (dataFrames_goes hr) fun n c₁ hf₁ => ?_
  refine .calmThen (.quiet rfl trivial) fun _ c₂ hf₂ => ?_
  refine .calmThen (.when (fun _ => updateOut_goes) fun _ => trivial) fun _ c₃ hf₃ => ?_
  refine .calmThen earnCredit_goes fun _ c₄ hf₄ => ?_
  have hf := ((hf₁.trans hf₂).trans hf₃).trans hf₄
  refine .get_bind (.calmThen (update_stained (hf.begun hp) (fun _ => rfl) trivial) fun _ _ _ => ?_)
  exact .pure trivial

theorem Outbox.endFrames_small {o : Outbox} {id : StreamId} {maxFrame : Nat} :
    ∀ f ∈ o.endFrames id maxFrame, Small maxFrame f := by
  rw [Outbox.endFrames]
  split
  · exact headerBlockFrames_small
  · split
    · exact headerBlockFrames_small
    · intro f hf
      rw [List.mem_singleton.1 hf]
      exact ⟨rfl, rfl, Nat.zero_le _⟩

theorem pumpEnd_goes {o : Outbox} (hp : c.core.On r (·.phase ≠ .headers)) :
    (calm D B nice).Goes c (pumpEnd r o) fun _ _ => True := by
  refine .get_bind (.get_bind (.calmThen (emitAll_goes Outbox.endFrames_small) fun _ c₁ hf₁ => ?_))
  refine .calmThen updateOut_goes fun _ c₂ hf₂ => ?_
  exact update_stained ((hf₁.trans hf₂).begun hp) (fun _ => rfl) trivial

theorem pumpPending_goes {o : Outbox} (hr : r ∈ c.refs) (hp : c.core.On r (·.phase ≠ .headers)) :
    (calm D B nice).Goes c (pumpPending r o) fun _ _ => True :=
  .ite (fun _ => pumpPiece_goes hr hp) fun _ => .pure trivial

theorem pump_goes {o : Outbox} (hr : r ∈ c.refs) (hp : c.core.On r (·.phase ≠ .headers)) :
    (calm D B nice).Goes c (pump r o) fun _ _ => True := by
  refine .ite (fun _ => .pure trivial) fun _ => ?_
  refine .calmThen pumpHead_goes fun _ c₁ hf₁ => ?_
  refine .calmThen (pumpPending_goes (hf₁.mem hr) (hf₁.begun hp)) ?_
  intro ⟨n, complete, quantum⟩ c₂ hf₂
  refine .ite (fun _ => ?_) fun _ => ?_
  · exact .bind (pumpEnd_goes (hf₂.begun (hf₁.begun hp))) fun _ _ _ => .pure trivial
  · exact .ite (fun _ => .pure trivial) fun _ => .pure trivial

/-! ## Event streams -/

theorem putEvents_goes {quantum : Nat} {puts : List Bytes} (hr : r ∈ c.refs) :
    (calm D B nice).Goes c (putEvents r quantum puts) fun _ _ => True := by
  induction puts generalizing c quantum with
  | nil => exact .pure trivial
  | cons bytes rest ih =>
    refine .calmThen (dataFrames_goes hr) fun n c₁ hf₁ => ?_
    refine .calmThen (.quiet rfl trivial) fun _ c₂ hf₂ => ?_
    exact .bind (ih (hf₂.mem (hf₁.mem hr))) fun _ _ _ => .pure trivial

theorem nextTurn_goes : (calm D B nice).Goes c nextTurn fun _ _ => True := by
  refine .get_bind ?_
  split
  · exact .pure trivial
  · exact .bind (Q := fun _ _ => True) (.quiet rfl trivial) fun _ _ _ => .pure trivial

theorem pumpEventHead_goes (hr : r ∈ c.refs) (hp : c.core.On r (·.phase ≠ .headers)) :
    (calm D B nice).Goes c (pumpEventHead r) fun _ _ => True := by
  refine .get_bind (.ite (fun _ => .pure trivial) fun _ => ?_)
  refine .calmThen (update_quiet rfl (fun _ => rfl) trivial) fun _ c₁ hf₁ => ?_
  split
  · exact .pure trivial
  · exact .bind (pump_goes (hf₁.mem hr) (hf₁.begun hp)) fun _ _ _ => .pure trivial

theorem Conn.Writes.begun (hw : c.Writes r) : c.core.On r (·.phase ≠ .headers) := by
  intro l hl hr hp
  rw [hw.writing l hl hr] at hp
  cases hp

/-- The turn of an event stream that could not be written marks it to be let go of. -/
theorem failEvents_goes {s : Stream → Stream} (hw : c.Writes r)
    (hs : ∀ t, (s t).line = { t.line with evFailed := true }) :
    (ending D B nice).Goes c (update r s) fun _ c' => c'.Writes r := by
  have hcore : (c.mod r s).core = c.core.edit r fun l => { l with evFailed := true } :=
    Conn.core_mod hs
  refine .move ?_ ⟨?_, ?_⟩
  · show Ending B nice c.core (c.mod r s).core
    rw [hcore]
    exact ⟨.failEvents r hw.writing, rfl, rfl⟩
  · exact Conn.mem_mod (fun t => congrArg (·.ref) (hs t)) hw.mem
  · rw [hcore]
    exact Core.On.edit hw.writing

theorem pumpEvents_goes (hw : c.Writes r) :
    (ending D B nice).Goes c (pumpEvents r) fun _ c' => c'.Writes r := by
  refine .calmThenEnding (pumpEventHead_goes hw.mem hw.begun) fun _ c₁ hf₁ => ?_
  refine .calmThenEnding nextTurn_goes fun turn c₂ hf₂ => ?_
  have hw₂ := (hw.framed hf₁).framed hf₂
  refine .calmThenEnding (putEvents_goes hw₂.mem) fun wrote c₃ hf₃ => ?_
  have hw₃ := hw₂.framed hf₃
  refine .ite (fun _ => ?_) fun _ => ?_
  · refine .get_bind (.calmThenEnding (emit_small rfl rfl ?_) fun _ c₄ hf₄ => ?_)
    · exact Nat.le_of_ble_eq_true rfl
    · exact .bind (failEvents_goes (hw₃.framed hf₄) fun _ => rfl) fun _ _ h => .pure h
  · refine .calmThenEnding (.when (fun _ => earnCredit_goes) fun _ => trivial) fun _ c₄ hf₄ => ?_
    have hw₄ := hw₃.framed hf₄
    refine .get_bind (.calmThenEnding (update_stained hw₄.begun (fun _ => rfl) trivial)
      fun _ c₅ hf₅ => ?_)
    have hw₅ := hw₄.framed hf₅
    exact .ite (fun _ => .pure hw₅) fun _ => .pure hw₅

theorem Conn.core_pumped {at_ : Nat} {p : Pumped} : (c.pumped at_ p).core = c.core := by
  cases p <;> rfl

theorem pumped_goes {at_ : Nat} {p : Pumped} :
    (calm D B nice).Goes c (modify (·.pumped at_ p) : M D Unit) fun _ _ => True :=
  .quiet Conn.core_pumped trivial

/-- A stream whose answer has a pipe is past its headers. -/
theorem Good.begun_of_out {o : Outbox} (hk : Good B nice c.core) (ho : (c.get r).out = some o) :
    r ∈ c.refs ∧ c.core.On r (·.phase ≠ .headers) := by
  have hr : r ∈ c.refs :=
    Conn.mem_of_get (P := fun s => s.out = some o) ho nofun
  refine ⟨hr, Conn.on_get hk.refs_nodup fun hp => ?_⟩
  have hmem : (c.get r).line ∈ c.core.lines := List.mem_map_of_mem (Conn.get_mem hr).1
  have hfresh := ((hk.ledger.lines _ hmem).fresh hp).2.2
  simp [Stream.line, ho] at hfresh

theorem pumpOne_goes {at_ : Nat} : (ending D B nice).Goes c (pumpOne at_ r) fun _ _ => True := by
  refine .assuming fun hk => ?_
  refine .get_bind (.ite (fun hev => ?_) fun _ => ?_)
  · refine .bind (pumpEvents_goes (.of_get hk.refs_nodup hev.1)) fun _ _ _ => ?_
    exact pumped_goes.toEnding
  · split
    · exact .pure trivial
    · rename_i o ho
      obtain ⟨hr, hp⟩ := hk.begun_of_out ho
      refine .ite (fun _ => updateOut_goes.toEnding) fun _ => ?_
      exact .calmThenEnding (pump_goes hr hp) fun _ _ _ => pumped_goes.toEnding

theorem pumpFrom_goes {places : List (Nat × Ref)} :
    (ending D B nice).Goes c (pumpFrom places) fun _ _ => True := by
  induction places generalizing c with
  | nil => exact .pure trivial
  | cons p rest ih => exact .bind pumpOne_goes fun _ _ _ => ih

theorem forgetFailed_goes {rs : List Ref} :
    (ending D B nice).Goes c (forgetFailed rs) fun _ _ => True := by
  induction rs generalizing c with
  | nil => exact .pure trivial
  | cons r rest ih =>
    refine .assuming fun hk => ?_
    refine .get_bind (.bind (Q := fun _ _ => True) (.when (fun hfailed => ?_) fun _ => trivial)
      fun _ _ _ => ih)
    have hr : r ∈ c.refs := Conn.mem_of_get (P := fun s => s.evFailed = true) hfailed nofun
    have hw : c.Writes r := by
      refine .of_get hk.refs_nodup ?_
      exact hk.queues.doomed (c.get r).line.toStanding
        (List.mem_map_of_mem (List.mem_map_of_mem (Conn.get_mem hr).1)) hfailed
    exact (forget_goes (hw.mayLeave hk) nofun).weaken fun _ _ _ => trivial

theorem pumpOutputs_goes : (ending D B nice).Goes c pumpOutputs fun _ _ => True := by
  refine .calmThenEnding (.quiet rfl trivial) fun _ c₁ _ => ?_
  refine .get_bind (.ite (fun _ => .pure trivial) fun _ => ?_)
  exact .bind pumpFrom_goes fun _ _ _ => .get_bind forgetFailed_goes

theorem heartbeatsFrom_goes {rs : List Ref} :
    (calm D B nice).Goes c (heartbeatsFrom rs) fun _ _ => True := by
  induction rs generalizing c with
  | nil => exact .pure trivial
  | cons r rest ih =>
    refine .assuming fun hk => ?_
    refine .get_bind (.get_bind (.calmThen (.when (fun howes => ?_) fun _ => trivial) fun _ _ _ => ih))
    have hw : c.Writes r := by
      refine .of_get hk.refs_nodup ?_
      rw [Stream.owesComment] at howes
      split at howes
      · cases howes
      · simp only [Bool.and_eq_true, beq_iff_eq] at howes
        exact howes.1.1.1
    refine .calmThen (update_stained hw.begun (fun _ => rfl) trivial) fun _ c₁ hf₁ => ?_
    refine .get_bind (.when (fun hroom => ?_) fun _ => trivial)
    refine .assuming fun hk₁ => ?_
    refine .calmThen (emitData_goes (hf₁.mem hw.mem) ?_ ?_) fun _ _ _ => .quiet rfl trivial
    · exact hroom
    · exact hk₁.flow.frame_small 3 (by decide)

theorem heartbeats_goes : (calm D B nice).Goes c heartbeats fun _ _ => True :=
  .get_bind (.calmThen heartbeatsFrom_goes fun _ _ _ => earnCredit_goes)

/-! ## The pass over every answer -/

theorem settleReturned_goes {o : Outbox} (hw : c.Writes r) :
    (ending D B nice).Goes c (settleReturned r o) fun _ _ => True := by
  refine .assuming fun hk => ?_
  refine .ite (fun _ => (finished_goes hw).weaken fun _ _ _ => trivial) fun _ => ?_
  refine .ite (fun _ => ?_) fun _ => ?_
  · exact (forget_goes (hw.mayLeave hk) nofun).weaken fun _ _ _ => trivial
  · refine .when (fun _ => ?_) fun _ => trivial
    refine .get_bind (.calmThenEnding (emit_small rfl rfl ?_) fun _ c₁ hf₁ => ?_)
    · exact Nat.le_of_ble_eq_true rfl
    · refine .assuming fun hk₁ => ?_
      exact (forget_goes ((hw.framed hf₁).mayLeave hk₁) nofun).weaken fun _ _ _ => trivial

theorem settleOne_goes : (ending D B nice).Goes c (settleOne r) fun _ _ => True := by
  refine .assuming fun hk => ?_
  refine .get_bind ?_
  split
  · exact .when (fun hw => settleReturned_goes (.of_get hk.refs_nodup hw.1)) fun _ => trivial
  · exact .pure trivial

theorem settleFrom_goes {rs : List Ref} :
    (ending D B nice).Goes c (settleFrom rs) fun _ _ => True := by
  induction rs generalizing c with
  | nil => exact .pure trivial
  | cons r rest ih => exact .bind settleOne_goes fun _ _ _ => ih

/-- A change of a stream that is one step of its life, and leaves the others alone. -/
theorem Conn.beside_mod {f : Stream → Stream} {g : Line → Line} (hn : c.refs.Nodup)
    (hf : (f (c.get r)).line = g (c.get r).line) (hr : ∀ l, (g l).ref = l.ref) :
    (c.mod r f).core = c.core.edit r g ∧ Beside r c (c.mod r f) := by
  have hcore : (c.mod r f).core = c.core.edit r g := by
    refine Conn.core_mod_of ?_
    intro s hs hsr
    rwa [Conn.eq_get hn hs hsr]
  refine ⟨hcore, ?_, rfl, ?_⟩
  · rw [hcore]
    rfl
  · intro s hs
    rw [hcore, Core.standings, Core.standings]
    constructor
    · intro hmem
      obtain ⟨l', hl', rfl⟩ := List.mem_map.1 hmem
      obtain ⟨l, hl, rfl⟩ := mem_edit.1 hl'
      by_cases hlr : l.ref = r
      · rw [if_pos hlr] at hs
        exact absurd ((hr l).trans hlr) hs
      · rw [if_neg hlr]
        exact List.mem_map_of_mem hl
    · intro hmem
      obtain ⟨l, hl, rfl⟩ := List.mem_map.1 hmem
      exact List.mem_map_of_mem (mem_edit.2 ⟨l, hl, if_neg hs⟩)

/-- The client's side of a stream is shut, and what it held goes back. -/
theorem shutInbound_goes :
    (ending D B nice).Goes c
      (do update r fun s => { s with isOpen := false }
          modify (·.letGo r) : M D Unit)
      fun _ c' => (r ∈ c.refs → r ∈ c'.refs) ∧ c'.core.On r (·.isOpen = false) ∧
        ∀ {P : Phase → Prop}, (c.core.On r fun l => P l.phase) → c'.core.On r fun l => P l.phase := by
  have hcore : (c.mod r fun s => { s with isOpen := false }).core =
      c.core.edit r fun l => { l with isOpen := false } := Conn.core_mod fun _ => rfl
  refine .bind (Q := fun _ c₁ => c₁.core = c.core.edit r fun l => { l with isOpen := false })
    (.move ?_ hcore) fun _ c₁ hc₁ => ?_
  · show Ending B nice c.core (c.mod r fun s => { s with isOpen := false }).core
    rw [hcore]
    exact ⟨.closeIn r, rfl, rfl⟩
  · refine .assuming fun hk₁ => ?_
    have hgo : (calm D B nice).Goes c₁ (modify (·.letGo r) : M D Unit) fun _ _ => True :=
      .change (letGo_path hk₁.refs_nodup) trivial
    refine (hgo.calmFramed.weaken ?_).toEnding
    rintro _ c₂ ⟨-, hf⟩
    refine ⟨fun hr => hf.mem ?_, hf.on (P := fun s => s.isOpen = false) ?_,
      fun {P} hP => hf.on (P := fun s => P s.phase) ?_⟩
    · rw [← Conn.core_refs, hc₁]
      exact Core.mem_edit_refs (fun _ => rfl) (by rwa [Conn.core_refs])
    · rw [hc₁]
      exact Core.On.edit fun _ _ _ => rfl
    · rw [hc₁]
      exact Core.On.edit hP

theorem takeEvents_goes (hw : c.Writes r) :
    (ending D B nice).Goes c (takeEvents r) fun _ c' => c'.Writes r := by
  refine .calmThenEnding (update_quiet rfl (fun _ => rfl) trivial) fun _ c₁ hf₁ => ?_
  refine .calmThenEnding (.quiet rfl trivial) fun _ c₂ hf₂ => ?_
  have hw₂ := (hw.framed hf₁).framed hf₂
  refine .get_bind (.bind (Q := fun _ c' => c'.Writes r) ?_ fun _ c₃ hw₃ => ?_)
  · refine .when (fun _ => shutInbound_goes.weaken ?_) fun _ => hw₂
    exact fun _ _ h => ⟨h.1 hw₂.mem, h.2.2 (P := (· = .writing)) hw₂.writing⟩
  · refine .get_bind ?_
    have hfail : (calm D B nice).Goes c₃ (update r fun s =>
        { s with inbox := s.inbox.fail .gone, events := s.events.map (quietFrom c₃.now) })
        fun _ _ => True := by
      refine update_failed hw₃.begun (fun s => ?_) trivial
      simp only [Stream.line, Inbox.fail_wanted]
      rfl
    exact (hfail.calmFramed.weaken fun _ _ h => hw₃.framed h.2).toEnding

/-- A call that has been handed back and taken off the queue of answered ones. -/
structure Conn.Back (c : Conn D) (r : Ref) : Prop where
  mem : r ∈ c.refs
  loose : c.core.Loose r
  free : c.core.On r fun l => l.phase = .running ∧ l.deferred = false ∧ l.holding = false

theorem Conn.Back.beside {c c' : Conn D} (hb : c.Back r) {q : Ref} (hqr : r ≠ q)
    (h : Beside q c c') : c'.Back r where
  mem := h.mem hqr hb.mem
  loose := by
    rw [Core.Loose, h.queues]
    exact hb.loose
  free := h.on hqr (P := fun s => s.phase = .running ∧ s.deferred = false ∧ s.holding = false)
    hb.free

theorem Conn.Back.framed {c c' : Conn D} (hb : c.Back r) (hf : Framed c c') : c'.Back r where
  mem := hf.mem hb.mem
  loose := by
    rw [Core.Loose, hf.bearing]
    exact hb.loose
  free := hf.on (P := fun s => s.phase = .running ∧ s.deferred = false ∧ s.holding = false) hb.free

theorem Conn.Back.mayLeave (hb : c.Back r) : c.MayLeave r where
  mem := hb.mem
  loose := hb.loose
  whole l hl hr hp := by
    rw [(hb.free l hl hr).1] at hp
    cases hp

/-- A stream whose answer may begin: a call that is in no queue, or a request whose header
block is whole and that finds room. -/
structure Conn.Ripe (c : Conn D) (r : Ref) : Prop where
  mem : r ∈ c.refs
  loose : c.core.Loose r
  free : c.core.On r fun l => l.deferred = false ∧ l.holding = false ∧
    (l.phase = .running ∨ l.phase = .headers ∧ c.core.MayBegin r)

theorem Conn.Back.ripe (hb : c.Back r) : c.Ripe r where
  mem := hb.mem
  loose := hb.loose
  free l hl hr := by
    obtain ⟨hp, hd, hh⟩ := hb.free l hl hr
    exact ⟨hd, hh, .inl hp⟩

theorem Framed.mayBegin {c c' : Conn D} (hf : Framed c c') :
    c'.core.MayBegin r ↔ c.core.MayBegin r := by
  have hlen : c'.core.lines.length = c.core.lines.length := by
    have := congrArg List.length hf.standings
    rwa [Core.standings, Core.standings, List.length_map, List.length_map] at this
  rw [Core.MayBegin, Core.MayBegin, hlen, hf.bearing]

theorem Conn.Ripe.framed {c c' : Conn D} (hb : c.Ripe r) (hf : Framed c c') : c'.Ripe r where
  mem := hf.mem hb.mem
  loose := by
    rw [Core.Loose, hf.bearing]
    exact hb.loose
  free := by
    rw [hf.mayBegin]
    exact hf.on (P := fun s => s.deferred = false ∧ s.holding = false ∧
      (s.phase = .running ∨ s.phase = .headers ∧ c.core.MayBegin r)) hb.free

theorem Conn.Ripe.mayLeave (hb : c.Ripe r) : c.MayLeave r where
  mem := hb.mem
  loose := hb.loose
  whole l hl hr hp := by
    rcases (hb.free l hl hr).2.2 with hrun | hhead
    · rw [hrun] at hp
      cases hp
    · exact hhead.2.2.2

/-- The answer of a stream begins to be written. -/
theorem answering_goes {f : Stream → Stream} (hb : c.Ripe r)
    (hf : ∀ s, (f s).line = { s.line with phase := .writing }) :
    (ending D B nice).Goes c (update r f) fun _ c' => c'.Writes r ∧ Beside r c c' := by
  refine .assuming fun hk => ?_
  obtain ⟨hcore, hbeside⟩ := Conn.beside_mod (c := c) (r := r) (f := f)
    (g := fun l => { l with phase := .writing }) hk.refs_nodup (hf _) fun _ => rfl
  refine .move ?_ ⟨⟨Conn.mem_mod (fun s => congrArg (·.ref) (hf s)) hb.mem, ?_⟩, hbeside⟩
  · show Ending B nice c.core (c.mod r f).core
    rw [hcore]
    refine ⟨.answering r hb.loose fun l hl hr => ?_, rfl, rfl⟩
    obtain ⟨hd, hh, hp⟩ := hb.free l hl hr
    refine ⟨hd, hh, fun hhead => ?_⟩
    rcases hp with hrun | hbegin
    · rw [hrun] at hhead
      cases hhead
    · exact hbegin.2
  · rw [hcore]
    exact Core.On.edit fun _ _ _ => rfl

theorem takeOne_goes (hb : c.Back r) :
    (ending D B nice).Goes c (takeOne r) fun _ c' => Beside r c c' := by
  refine .get_bind (.ite (fun _ => ?_) fun _ => .ite (fun _ => ?_) fun _ => ?_)
  · exact (forget_goes hb.mayLeave nofun).weaken fun _ _ h => h.beside
  · refine .calmThenEnding (emit_small rfl rfl ?_) fun _ c₁ hf₁ => ?_
    · exact Nat.le_of_ble_eq_true rfl
    · refine (forget_goes (hb.framed hf₁).mayLeave nofun).weaken fun _ _ h => ?_
      exact hf₁.beside.trans h.beside
  · exact (answering_goes hb.ripe fun _ => rfl).weaken fun _ _ h => h.2

theorem takeAnswered_goes {rs : List Ref} (hn : rs.Nodup) (hb : ∀ r ∈ rs, c.Back r) :
    (ending D B nice).Goes c (takeAnswered rs) fun _ _ => True := by
  induction rs generalizing c with
  | nil => exact .pure trivial
  | cons r rest ih =>
    obtain ⟨hr, hrest⟩ := List.nodup_cons.1 hn
    refine .bind (takeOne_goes (hb r List.mem_cons_self)) fun _ c₁ hbeside => ih hrest ?_
    intro q hq
    refine (hb q (List.mem_cons_of_mem _ hq)).beside ?_ hbeside
    rintro rfl
    exact hr hq

theorem writeAnswers_goes {rs : List Ref} {blocked : Bool} :
    (ending D B nice).Goes c (writeAnswers rs blocked) fun _ _ => True := by
  induction rs generalizing c blocked with
  | nil => exact .pure trivial
  | cons r rest ih =>
    refine .assuming fun hk => ?_
    refine .get_bind (.ite (fun _ => ih) fun hphase => ?_)
    have hw : c.Writes r := .of_get hk.refs_nodup (not_not.1 hphase)
    refine .bind (Q := fun _ c' => c'.Writes r) ?_ fun _ c₁ hw₁ => ?_
    · exact .when (fun _ => takeEvents_goes hw) fun _ => hw
    · refine .ite (fun _ => ih) fun _ => ?_
      exact .bind (writeStream_goes hw₁) fun _ _ _ => ih

/-- The calls answered are back once they have been taken off their queue. -/
theorem Good.back (hk : Good B nice c.core) :
    c.shared.answered.Nodup ∧ ∀ r ∈ c.shared.answered,
      ({ c with shared := c.shared.takeAll.2 } : Conn D).Back r := by
  have hnodup : (c.shared.pending ++ c.inHand ++ c.shared.answered).Nodup := hk.queues.nodup
  obtain ⟨-, hans, hdisj⟩ := List.nodup_append'.1 hnodup
  refine ⟨hans, fun r hr => ?_⟩
  have hq : r ∈ c.core.queues := List.mem_append_right _ hr
  obtain ⟨s, hs, hsr, hrun⟩ := hk.queues.running r hq
  have hmem : r ∈ c.core.refs := by
    rw [← Core.standings_refs, ← hsr]
    exact List.mem_map_of_mem hs
  refine ⟨by rwa [Conn.core_refs] at hmem, ?_, ?_⟩
  · intro hin
    have hin : r ∈ c.shared.pending ++ c.inHand ++ [] := hin
    rw [List.append_nil] at hin
    exact hdisj hin hr
  · intro l hl hlr
    have hls : l.toStanding ∈ c.core.standings := List.mem_map_of_mem hl
    have hsame : l.toStanding = s := eq_of_key hk.table.nodup hls hs (hlr.trans hsr.symm)
    have hfree (hheld : l.deferred = true ∨ l.holding = true) : False :=
      (hk.queues.waiting _ hls hheld).2 (by rw [hlr]; exact hq)
    refine ⟨by rw [hsame]; exact hrun, ?_, ?_⟩
    · exact Bool.eq_false_iff.2 fun hd => hfree (.inl hd)
    · exact Bool.eq_false_iff.2 fun hh => hfree (.inr hh)

theorem writeReady_goes : (ending D B nice).Goes c writeReady fun _ _ => True := by
  refine .assuming fun hk => ?_
  obtain ⟨hnodup, hback⟩ := hk.back
  refine .get_bind (.bind (Q := fun _ c' => c' = { c with shared := c.shared.takeAll.2 })
    (.move ⟨.collect, rfl, rfl⟩ rfl) ?_)
  rintro _ _ rfl
  refine .bind (takeAnswered_goes hnodup hback) fun _ c₂ _ => ?_
  refine .get_bind (.bind writeAnswers_goes fun blocked c₃ _ => ?_)
  refine .calmThenEnding (.quiet rfl trivial) fun _ c₄ _ => ?_
  refine .bind pumpOutputs_goes fun _ c₅ _ => ?_
  refine .get_bind (.calmThenEnding (.when (fun _ => heartbeats_goes) fun _ => trivial)
    fun _ c₆ _ => ?_)
  exact .get_bind settleFrom_goes

/-! ## The last words of event streams -/

theorem lastTurns_goes {fuel : Nat} (hw : c.Writes r) :
    (ending D B nice).Goes c (lastTurns r fuel) fun _ c' => c'.Writes r := by
  induction fuel generalizing c with
  | zero => exact .pure hw
  | succ fuel ih => exact .bind (pumpEvents_goes hw) fun _ _ hw => .when (fun _ => ih hw) fun _ => hw

theorem endOne_goes : (ending D B nice).Goes c (endOne r) fun _ _ => True := by
  refine .assuming fun hk => ?_
  refine .get_bind (.when (fun hwriting => ?_) fun _ => trivial)
  refine .bind (lastTurns_goes (.of_get hk.refs_nodup hwriting.1)) fun _ c₁ hw₁ => ?_
  refine .assuming fun hk₁ => ?_
  refine .get_bind (.ite (fun _ => ?_) fun _ => ?_)
  · exact (forget_goes (hw₁.mayLeave hk₁) nofun).weaken fun _ _ _ => trivial
  · refine .calmThenEnding ?_ fun _ c₂ hf₂ => ?_
    · split
      · exact emit_small rfl rfl (Nat.le_of_ble_eq_true rfl)
      · exact emit_small rfl rfl (Nat.zero_le _)
    · refine .assuming fun hk₂ => ?_
      exact (forget_goes ((hw₁.framed hf₂).mayLeave hk₂) nofun).weaken fun _ _ _ => trivial

theorem endEventsFrom_goes {rs : List Ref} :
    (ending D B nice).Goes c (endEventsFrom rs) fun _ _ => True := by
  induction rs generalizing c with
  | nil => exact .pure trivial
  | cons r rest ih => exact .bind endOne_goes fun _ _ _ => ih

theorem endEvents_goes : (ending D B nice).Goes c endEvents fun _ _ => True :=
  .get_bind endEventsFrom_goes

end Nilo.Http2
