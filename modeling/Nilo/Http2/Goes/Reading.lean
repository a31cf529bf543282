import Nilo.Http2.Goes.Calls

/-!
# Where the connection's operations go: frames

What each frame handler does, from a connection that is between two frames
(`Rest`) to one that is again. A handler may stop with an error anywhere, and
where it does `continuing` must still point where it should: the course `reader`
asks that of every stop (under `home`, that it did so before the frame).

Handlers of frames that are no part of a header block go along `plain`, and the
rest they start from is kept by every move. The others break what `Rest` says of
their frame and mend it before they end: SETTINGS until they are acknowledged, a
header block until it is decoded, DATA until its bytes are credited.
-/

namespace Nilo.Http2

open Nilo.Lib
open Relation (ReflTransGen)

variable {D : Type} {h : Host} {nice home : Prop} {B : Nat} {c : Conn D} {r : Ref}

theorem Plain.inHand {k k' : Core D} (hm : Plain B nice k k') (hr : r ∈ k.inHand) :
    r ∈ k'.inHand := by
  cases hm with
  | calm hm => rwa [hm.bearing]
  | give q _ => exact List.mem_append_left _ hr
  | _ => exact hr

/-- A move of the frame reader: it takes no call out of a fiber's hands, and under `home` it
does not go astray. -/
structure Reads (B : Nat) (nice home : Prop) (k k' : Core D) : Prop where
  move : Move B nice k k'
  astray : home → k'.astray = k.astray
  inHand : ∀ r ∈ k.inHand, r ∈ k'.inHand

theorem Front.reads {k k' : Core D} (hm : Front B nice k k') (ha : k'.astray = k.astray)
    (hi : ∀ r ∈ k.inHand, r ∈ k'.inHand := by exact fun _ hr => hr) : Reads B nice home k k' :=
  ⟨.front hm, fun _ => ha, hi⟩

theorem Hearing.reads {k k' : Core D} (hm : Hearing B k k') : Reads B nice home k k' := by
  cases hm with
  | taking hm =>
    refine ⟨.taking hm, fun _ => ?_, fun r hr => ?_⟩
    · rw [hm.bearing]
    · rwa [hm.bearing]
  | listened => exact ⟨.front .listened, fun _ => rfl, fun _ hr => hr⟩

/-- The course of the frame reader. -/
def reader (D : Type) (B : Nat) (nice home : Prop) : Course (Conn D) (Core D) :=
  { course D B nice (Reads B nice home) (·.move) with
    Stopped := fun c => c.reading = false ∧ (home → c.core.Home) }

end Nilo.Http2

namespace Nilo.Lib.Course.Goes

open Nilo.Http2

variable {D : Type} {nice home : Prop} {B : Nat}
variable {α β : Type} {c : Conn D} {m : M D α} {Q : α → Conn D → Prop}

/-- With no block open, nothing a stream's life does opens one. -/
theorem toReader (hc : c.continuing = none) (hm : (plain D B nice).Goes c m Q) :
    (reader D B nice home).Goes c m fun a c' => Q a c' ∧ c'.continuing = none := by
  intro hi
  obtain ⟨path, hstop, hok⟩ := hm hi
  have hnone : (m c).2.continuing = none :=
    Course.preserved (P := fun k => k.continuing = none) path
      (fun move h => move.blocks.1.trans h) hc
  refine ⟨Relation.ReflTransGen.mono
    (fun _ _ move => Front.reads (.plain move) move.blocks.2.2.2.2 fun _ => move.inHand) _ _ path,
    ?_, ?_⟩
  · exact fun e he => ⟨hstop e he, fun _ => Core.home_of_none hnone⟩
  · exact fun a ha => ⟨hok a ha, hnone⟩

/-- Accounting leaves `continuing` where it points. -/
theorem takingToReader (hh : home → c.core.Home) (hm : (taking D B nice).Goes c m Q) :
    (reader D B nice home).Goes c m fun a c' =>
      Q a c' ∧ Framed c c' ∧ (home → c'.core.Home) := by
  intro hi
  obtain ⟨path, hstop, hok⟩ := hm hi
  have hhome : home → (m c).2.core.Home := fun hy =>
    Course.preserved (P := fun k => k.Home) path (fun move h => move.home h) (hh hy)
  refine ⟨Relation.ReflTransGen.mono
    (fun _ _ move => (Hearing.taking move).reads) _ _ path, ?_, ?_⟩
  · exact fun e he => ⟨hstop e he, hhome⟩
  · exact fun a ha => ⟨hok a ha, taking_path_framed path, hhome⟩

/-- So do the words of calls. -/
theorem hearingToReader (hh : home → c.core.Home) (hm : (hearing D B nice).Goes c m Q) :
    (reader D B nice home).Goes c m fun a c' => Q a c' ∧ (home → c'.core.Home) := by
  intro hi
  obtain ⟨path, hstop, hok⟩ := hm hi
  have hhome : home → (m c).2.core.Home := by
    refine fun hy => Course.preserved (P := fun k => k.Home) path (fun move h => ?_) (hh hy)
    cases move with
    | taking move => exact move.home h
    | listened => exact h
  refine ⟨Relation.ReflTransGen.mono (fun _ _ move => move.reads) _ _ path, ?_, ?_⟩
  · exact fun e he => ⟨hstop e he, hhome⟩
  · exact fun a ha => ⟨hok a ha, hhome⟩

end Nilo.Lib.Course.Goes

namespace Nilo.Http2

open Nilo.Lib
open Relation (ReflTransGen)

variable {D : Type} {h : Host} {nice home : Prop} {B : Nat} {c : Conn D} {r : Ref} {cd : Codec D}

theorem stop_reader {α : Type} {e : Stop} {Q : α → Conn D → Prop} (hh : home → c.core.Home) :
    (reader D B nice home).Goes c (stop e) Q := by
  have hm : (calm D B nice).Goes c (stop e) Q := stop_goes
  exact (hm.toTaking.takingToReader hh).weaken fun _ _ h => h.1

theorem home_of_continuing (hc : c.continuing = none) : home → c.core.Home :=
  fun _ => Core.home_of_none hc

/-- Stop, unless all is well: what follows finds the connection as it was. -/
theorem guard_reader {p : Prop} [Decidable p] {e : Stop} {f : Unit → M D Unit}
    {Q : Unit → Conn D → Prop} (hh : home → c.core.Home)
    (hf : ¬p → (reader D B nice home).Goes c (f ()) Q) :
    (reader D B nice home).Goes c (when p (stop e) >>= f) Q := by
  by_cases hp : p
  · refine .bind (Q := fun _ _ => False) ?_ fun _ _ h => h.elim
    exact .when (fun _ => stop_reader hh) fun hn => absurd hp hn
  · refine .bind (Q := fun _ c' => c' = c) (.when (fun hy => absurd hy hp) fun _ => rfl) ?_
    rintro _ _ rfl
    exact hf hp

theorem control_reader (hh : home → c.core.Home) :
    (reader D B nice home).Goes c control fun _ c' => c'.core = c.core := by
  have hm : (calm D B nice).Goes c control fun _ c' => c'.core = c.core := control_goes
  exact (hm.toTaking.takingToReader hh).weaken fun _ _ h => h.1

/-! ## Resets and ends -/

/-- A stream of the table that is not being continued. -/
structure Conn.Settled (c : Conn D) (r : Ref) : Prop where
  mem : r ∈ c.refs
  whole : c.core.On r fun l => l.phase = .headers → c.continuing ≠ some r

theorem Conn.Settled.framed {c c' : Conn D} (hs : c.Settled r) (hf : Framed c c') :
    c'.Settled r where
  mem := hf.mem hs.mem
  whole := by
    have : c'.continuing = c.continuing := congrArg Bearing.continuing hf.bearing
    rw [this]
    exact hf.on (P := fun s => s.phase = .headers → c.continuing ≠ some r) hs.whole

/-- A stream reset is told so, or gone: either way it takes no more bytes. -/
theorem onReset_goes (hs : c.Settled r) :
    (ending D B nice).Goes c (onReset r) fun _ c' =>
      c'.core.On r (·.reset = true) ∧ c'.core.On r fun l => ¬l.active := by
  refine .assuming fun hk => ?_
  have hn := hk.refs_nodup
  have gone {c' c'' : Conn D} (hl : Left r c' c'') {P : Line → Prop} : c''.core.On r P := by
    intro l hmem hlr
    refine absurd ?_ hl.gone
    rw [← Conn.core_refs, ← hlr]
    exact List.mem_map_of_mem hmem
  refine .get_bind (.ite (fun hrun => ?_) fun hnot => ?_)
  · refine .ite (fun hhold => ?_) fun _ => ?_
    · obtain ⟨-, hloose⟩ := hk.held (Conn.get_mem hs.mem).1 (.inl hhold)
      rw [Conn.get_ref] at hloose
      refine .bind release_goes fun _ c₁ hc₁ => ?_
      refine (discard_goes ⟨?_, ?_, ?_⟩ nofun).weaken fun _ _ hl => ⟨gone hl, gone hl⟩
      · rw [← Conn.core_refs, hc₁]
        exact Core.mem_edit_refs (fun _ => rfl) (by rw [Conn.core_refs]; exact hs.mem)
      · rw [hc₁]
        exact hloose
      · have hcont : c₁.continuing = c.continuing := congrArg (·.continuing) hc₁
        rw [hc₁, hcont]
        exact Core.On.edit hs.whole
    · have hphase : c.core.On r (·.phase = .running) := Conn.on_get hn hrun
      have hopen : c.core.On r (·.isOpen = (c.get r).isOpen) :=
        Conn.on_get (P := fun l => l.isOpen = (c.get r).isOpen) hn rfl
      have hcore : (c.mod r fun s => { s with reset := true }).core =
          c.core.edit r fun l => { l with reset := true } := Conn.core_mod fun _ => rfl
      refine .bind (Q := fun _ c₁ => c₁.core = c.core.edit r fun l => { l with reset := true }) ?_
        fun _ c₁ hc₁ => ?_
      · refine Course.Goes.toEnding (.move ?_ hcore)
        show Calm B c.core (c.mod r fun s => { s with reset := true }).core
        rw [hcore]
        exact .markReset r
      have hreset : c₁.core.On r (·.reset = true) := by
        rw [hc₁]
        exact Core.On.edit fun _ _ _ => rfl
      have hrun₁ : c₁.core.On r fun l => l.phase = .running ∧ l.isOpen = (c.get r).isOpen := by
        rw [hc₁]
        exact Core.On.edit fun l hl hlr => ⟨hphase l hl hlr, hopen l hl hlr⟩
      -- what follows leaves the mark
      suffices hrest : (ending D B nice).Goes c₁ _ fun _ c' => c'.core.On r fun l => ¬l.active from
        (hrest.keeping (P := fun k => k.On r (·.reset = true))
          (fun move _ h => move.plain.resets h) hreset).weaken fun _ _ h => ⟨h.2, h.1⟩
      have shut {k : Core D} (hk : k.On r fun l => l.phase = .running ∧ l.isOpen = false) :
          k.On r (·.phase ≠ .headers) ∧ k.On r fun l => ¬l.active := by
        refine ⟨fun l hl hlr hp => ?_, fun l hl hlr ha => ?_⟩
        all_goals obtain ⟨hp', ho'⟩ := hk l hl hlr
        · cases hp'.symm.trans hp
        · rcases ha with hp | ⟨-, ho⟩
          · cases hp'.symm.trans hp
          · cases ho'.symm.trans ho
      refine .bind (Q := fun _ c₂ => c₂.core.On r (·.phase ≠ .headers) ∧
        c₂.core.On r fun l => ¬l.active) ?_ fun _ c₂ ⟨hbegun, hshut⟩ => ?_
      · refine .when (fun _ => shutInbound_goes.weaken ?_) fun hclosed => ?_
        · rintro _ c₂ ⟨-, hno, hph⟩
          have hph := hph (P := (· = .running)) fun l hl hlr => (hrun₁ l hl hlr).1
          exact shut fun l hl hlr => ⟨hph l hl hlr, hno l hl hlr⟩
        · refine shut fun l hl hlr => ?_
          obtain ⟨hp, ho⟩ := hrun₁ l hl hlr
          exact ⟨hp, ho.trans (by simpa using hclosed)⟩
      · have hfail : (ending D B nice).Goes c₂ (update r fun s =>
            { (s.failOut .reset) with inbox := s.inbox.fail .gone, stuckSince := 0 })
            fun _ _ => True := by
          refine Course.Goes.toEnding (update_failed hbegun (fun s => ?_) trivial)
          simp only [Stream.line, Inbox.fail_wanted, Stream.failOut]
          rfl
        exact (hfail.keeping (P := fun k => k.On r fun l => ¬l.active)
          (fun move _ h => move.plain.inactive h) hshut).weaken fun _ _ h => h.2
  · have hphase : c.core.On r (·.phase ≠ .running) := Conn.on_get hn hnot
    refine (discard_goes ⟨hs.mem, hk.loose hphase, hs.whole⟩ nofun).weaken fun _ _ hl => ?_
    exact ⟨gone hl, gone hl⟩

theorem lengthMismatch_goes (hs : c.Settled r) :
    (ending D B nice).Goes c (lengthMismatch r) fun _ c' => c'.core.On r fun l => ¬l.active := by
  refine .get_bind (.calmThenEnding (emit_small rfl rfl ?_) fun _ c₁ hf₁ => ?_)
  · exact Nat.le_of_ble_eq_true rfl
  have hfail : (calm D B nice).Goes c₁ (update r fun s => { s with inbox := s.inbox.fail .length })
      fun _ _ => True := by
    refine update_goes rfl (Calm.unwanted r) (fun s => ?_) trivial
    simp only [Stream.line, Inbox.fail_wanted]
    rfl
  refine .calmThenEnding hfail fun _ c₂ hf₂ => ?_
  exact (onReset_goes ((hs.framed hf₁).framed hf₂)).weaken fun _ _ h => h.2

/-- A stream of the table whose call is running. -/
structure Conn.Runs (c : Conn D) (r : Ref) : Prop where
  mem : r ∈ c.refs
  running : c.core.On r (·.phase = .running)

theorem Conn.Runs.framed {c c' : Conn D} (hr : c.Runs r) (hf : Framed c c') : c'.Runs r where
  mem := hf.mem hr.mem
  running := hf.on (P := fun s => s.phase = .running) hr.running

theorem Conn.Runs.settled (hr : c.Runs r) : c.Settled r where
  mem := hr.mem
  whole l hl hlr hp := by
    rw [hr.running l hl hlr] at hp
    cases hp

theorem endInbound_goes (hr : c.Runs r) :
    (plain D B nice).Goes c (endInbound h r) fun _ c' => c'.core.On r fun l => ¬l.active := by
  refine .assuming fun hk => ?_
  refine .get_bind (.ite (fun _ => (lengthMismatch_goes hr.settled).endingToPlain) fun _ => ?_)
  have hn := hk.refs_nodup
  have hcore : (c.mod r fun s => { s with isOpen := false }).core =
      c.core.edit r fun l => { l with isOpen := false } := Conn.core_mod fun _ => rfl
  refine .bind (Q := fun _ c₁ => c₁.core = c.core.edit r fun l => { l with isOpen := false }) ?_
    fun _ c₁ hc₁ => ?_
  · exact update_goes rfl (Plain.closeIn r) (fun _ => rfl) hcore
  have hshut : c₁.core.On r fun l => ¬l.active := by
    rw [hc₁]
    refine Core.On.edit fun l hl hlr ha => ?_
    rcases ha with hp | ⟨-, ho⟩
    · cases (hr.running l hl hlr).symm.trans hp
    · cases ho
  suffices hrest : (plain D B nice).Goes c₁ _ fun _ _ => True from
    (hrest.keeping (P := fun k => k.On r fun l => ¬l.active)
      (fun move _ h => move.inactive h) hshut).weaken fun _ _ h => h.2
  refine .calmThenPlain unstarve_goes fun _ c₂ hf₂ => ?_
  refine .calmThenPlain (.quiet rfl trivial) fun _ c₃ hf₃ => ?_
  refine .calmThenPlain (update_quiet rfl (fun _ => rfl) trivial) fun _ c₄ hf₄ => ?_
  have hf := (hf₂.trans hf₃).trans hf₄
  refine .when (fun hdef => ?_) fun _ => trivial
  obtain ⟨-, hloose⟩ := hk.held (Conn.get_mem hr.mem).1 (.inr hdef)
  rw [Conn.get_ref] at hloose
  have hmem₁ : r ∈ c₁.refs := by
    rw [← Conn.core_refs, hc₁]
    exact Core.mem_edit_refs (fun _ => rfl) (by rw [Conn.core_refs]; exact hr.mem)
  have hloose₄ : c₄.core.Loose r := by
    rw [Core.Loose, hf.bearing, hc₁]
    exact hloose
  have hon₄ : c₄.core.On r fun l => l.phase = .running ∧ l.holding = (c.get r).holding := by
    refine hf.on (P := fun s => s.phase = .running ∧ s.holding = (c.get r).holding) ?_
    rw [hc₁]
    refine Core.On.edit fun l hl hlr => ⟨hr.running l hl hlr, ?_⟩
    exact Conn.on_get (P := fun l => l.holding = (c.get r).holding) hn rfl l hl hlr
  refine .bind (Q := fun _ c₅ => c₅.core = c₄.core.edit r fun l => { l with deferred := false })
    (update_goes rfl (Plain.undefer r) (fun _ => rfl) (Conn.core_mod fun _ => rfl))
    fun _ c₅ hc₅ => ?_
  have hmem₅ : r ∈ c₅.core.refs := by
    rw [hc₅]
    exact Core.mem_edit_refs (fun _ => rfl) (by rw [Conn.core_refs]; exact hf.mem hmem₁)
  have hloose₅ : c₅.core.Loose r := by
    rw [hc₅]
    exact hloose₄
  have hon₅ : c₅.core.On r fun l =>
      l.deferred = false ∧ l.phase = .running ∧ l.holding = (c.get r).holding := by
    rw [hc₅]
    exact Core.On.edit fun l hl hlr => ⟨rfl, hon₄ l hl hlr⟩
  refine .bind (Q := fun _ c₆ => c₆.Ripe r) (.when (fun _ => ?_) fun hhold => ?_) fun _ c₆ hb => ?_
  · refine (Course.Goes.endingToPlain release_goes).weaken fun _ c₆ hc₆ => ⟨?_, ?_, ?_⟩
    · rw [← Conn.core_refs, hc₆]
      exact Core.mem_edit_refs (fun _ => rfl) hmem₅
    · rw [hc₆]
      exact hloose₅
    · rw [hc₆]
      refine Core.On.edit fun l hl hlr => ?_
      obtain ⟨hd, hp, -⟩ := hon₅ l hl hlr
      exact ⟨hd, rfl, .inl hp⟩
  · refine ⟨by rwa [Conn.core_refs] at hmem₅, hloose₅, fun l hl hlr => ?_⟩
    obtain ⟨hd, hp, hh⟩ := hon₅ l hl hlr
    exact ⟨hd, by rw [hh]; simpa using hhold, .inl hp⟩
  · exact (start_goes hb).weaken fun _ _ _ => trivial

/-! ## Header blocks -/

/-- Changes of the frame reader, in its course. -/
theorem front_reader {g : Conn D → Conn D} {Q : Unit → Conn D → Prop}
    (hm : Front B nice c.core (g c).core) (hq : Q () (g c))
    (ha : (g c).core.astray = c.core.astray := by rfl)
    (hi : ∀ r ∈ c.core.inHand, r ∈ (g c).core.inHand := by exact fun _ hr => hr) :
    (reader D B nice home).Goes c (modify g : M D Unit) Q :=
  .move (hm.reads ha hi) hq

/-- A block goes through the decoder, or ends the connection. -/
theorem feed_goes {block : Bytes} (hc : c.continuing = none) :
    (reader D B nice home).Goes c (feed cd block) fun res c' =>
      ∃ d, cd.decode c.decoder block maxHeaderList = some (d, res.1, res.2) ∧
        c'.core = { c.core.log (.fed block) with decoder := d } := by
  refine .bind (Q := fun _ c₁ => c₁ = c.log (.fed block)) (front_reader (.noted block) rfl) ?_
  rintro _ _ rfl
  refine .get_bind ?_
  split
  · exact stop_reader (home_of_continuing hc)
  · rename_i d fields overLimit hdec
    refine .bind (Q := fun _ c₂ => c₂.core = { c.core.log (.fed block) with decoder := d })
      (front_reader (.decoded d) rfl) fun _ c₂ hc₂ => .pure ⟨d, hdec, hc₂⟩

/-- What a handler leaves behind when no block is open. -/
structure Idles (cd : Codec D) (k : Core D) : Prop where
  rest : Rest cd k
  clear : Clear k

theorem Plain.idles {k k' : Core D} (hm : Plain B nice k k') (hg : Good B nice k)
    (hk : Idles cd k) : Idles cd k' :=
  ⟨hm.rest hg hk.rest, hm.clear hk.clear⟩

theorem Mid.idles {k : Core D} (hm : Mid cd none none [] k) (ha : Agreed k.trace) (hc : Clear k) :
    Idles cd k where
  rest :=
    { toMid := by rw [hc.continuing]; exact hm
      agreed := ha
      placed := hc.placed
      telling := fun r hr => absurd (hc.continuing.symm.trans hr) nofun }
  clear := hc

/-- A stream's life goes on where no block is open. -/
theorem plain_reader {α : Type} {m : M D α} {Q : α → Conn D → Prop} (hk : Idles cd c.core)
    (hm : (plain D B nice).Goes c m Q) :
    (reader D B nice home).Goes c m fun a c' => Q a c' ∧ Idles cd c'.core := by
  have hkeep := hm.keeping (P := fun k => Idles cd k) (fun move hg h => move.idles hg h) hk
  exact (hkeep.toReader hk.clear.continuing).weaken fun _ _ h => h.1

/-- A change of a stream's header block, which nothing else of the middle of a frame looks at. -/
theorem Mid.edit {k : Core D} {x y : Option Ref} {bs : List Bytes} {f : Line → Line}
    (hm : Mid cd x y bs k)
    (hf : ∀ l, f l = { l with trailing := (f l).trailing, block := (f l).block }) :
    Mid cd x y bs (k.edit r f) where
  half := by
    intro s' hs' hhead
    obtain ⟨l', hl', rfl⟩ := List.mem_map.1 hs'
    obtain ⟨l, hl, rfl⟩ := mem_edit.1 hl'
    have hmem : l.toStanding ∈ k.standings := List.mem_map_of_mem hl
    split at hhead
    · rw [if_pos ‹_›, hf]
      rw [hf] at hhead
      exact hm.half l.toStanding hmem hhead
    · rw [if_neg ‹_›]
      exact hm.half _ hmem hhead
  capped := by
    refine hm.capped.edit (fun l => ?_) (fun l hz => ?_) fun l => ?_
    · rw [hf]
    · rwa [hf] at hz
    · rw [hf]
  owing := ⟨hm.owing.fed, hm.owing.table⟩
  idle := by
    refine hm.idle.edit_same (fun l => ?_) (fun l => ?_) fun l _ _ ha => ?_
    · rw [hf]
    · rw [hf]
    · rwa [hf] at ha
  heard q := by
    refine forall_mem_edit (hm.heard q) fun l _ _ hl => ?_
    rw [hf]
    exact hl

/-- The client's trailers are whole: they go through the decoder, and end the stream. -/
theorem trailersDone_goes (hr : r ∈ c.refs) (hp : c.core.On r (·.phase ≠ .headers))
    (hm : Mid cd none none [c.trailerBlock] c.core) (ha : Agreed c.trace) (hc : Clear c.core) :
    (reader D B nice home).Goes c (trailersDone h cd r) fun _ c' => Idles cd c'.core := by
  have hcore : (c.mod r fun s => { s with trailing := false }).core =
      c.core.edit r fun l => { l with trailing := false } := Conn.core_mod fun _ => rfl
  refine .bind (Q := fun _ c₁ => c₁.core = c.core.edit r fun l => { l with trailing := false })
    (.move ?_ hcore) fun _ c₁ hc₁ => ?_
  · show Reads B nice home c.core (c.mod r fun s => { s with trailing := false }).core
    rw [hcore]
    exact Front.reads (.trail r false) rfl
  have hm₁ : Mid cd none none [c.trailerBlock] c₁.core := by
    rw [hc₁]
    exact hm.edit fun _ => rfl
  have hblock : c₁.trailerBlock = c.trailerBlock := congrArg (·.trailerBlock) hc₁
  have hnone : c₁.continuing = none := (congrArg (·.continuing) hc₁).trans hc.continuing
  refine .get_bind (.bind (feed_goes hnone) fun _ c₂ ⟨d, hdec, hc₂⟩ => ?_)
  rw [hblock] at hdec hc₂
  refine .bind (Q := fun _ c₃ => c₃.core = { c₂.core with trailerBlock := [] })
    (front_reader (.header c₂.continuing [] c₂.ignoring) rfl) fun _ c₃ hc₃ => ?_
  have hmid : Mid cd none none [] c₃.core := by
    have howe : Owing cd [] c₂.core := by
      rw [hc₂]
      exact hm₁.owing.feed hdec
    rw [hc₃]
    refine ⟨⟨?_, ?_, howe.fed, howe.table⟩, ?_, ?_⟩
    all_goals rw [hc₂]
    · exact hm₁.half
    · exact hm₁.capped
    · exact hm₁.idle
    · exact hm₁.heard
  have hidles : Idles cd c₃.core := by
    refine hmid.idles ?_ ?_
    · rw [hc₃, hc₂, hc₁]
      exact ha
    · rw [hc₃, hc₂, hc₁]
      exact ⟨hc.continuing, hc.ignoring, hc.block⟩
  have hr₃ : r ∈ c₃.core.refs := by
    rw [hc₃, hc₂, hc₁]
    exact Core.mem_edit_refs (fun _ => rfl) (by rwa [Conn.core_refs])
  have hp₃ : c₃.core.On r (·.phase ≠ .headers) := by
    rw [hc₃, hc₂, hc₁]
    exact Core.On.edit hp
  refine (plain_reader (Q := fun _ _ => True) hidles ?_).weaken fun _ _ h => h.2
  refine .assuming fun hk₃ => ?_
  refine .get_bind (.ite (fun _ => .pure trivial) fun _ => .ite (fun _ => ?_) fun hwrite => ?_)
  · exact update_goes rfl (Plain.closeIn r) (fun _ => rfl) trivial
  · rw [Conn.core_refs] at hr₃
    refine (endInbound_goes ⟨hr₃, Conn.on_get hk₃.refs_nodup ?_⟩).weaken fun _ _ _ => trivial
    have hhead : (c₃.get r).phase ≠ .headers := Conn.get_on hr₃ hp₃
    show (c₃.get r).phase = .running
    cases hphase : (c₃.get r).phase with
    | headers => exact absurd hphase hhead
    | running => rfl
    | writing => exact absurd hphase hwrite

/-- A request is done with once it is past its headers, or gone. -/
theorem request_reader {m : M D Unit} (hm : Mid cd (some r) none [] c.core) (ha : Agreed c.trace)
    (hc : Clear c.core)
    (hgo : (plain D B nice).Goes c m fun _ c' => c'.core.On r (·.phase ≠ .headers)) :
    (reader D B nice home).Goes c m fun _ c' => Idles cd c'.core := by
  have hkeep := hgo.keeping
    (P := fun k => Mid cd (some r) none [] k ∧ Agreed k.trace ∧ Clear k)
    (fun move hg h => ⟨move.mid hg h.1, h.2.1.keep move.trace, move.clear h.2.2⟩) ⟨hm, ha, hc⟩
  refine (hkeep.toReader hc.continuing).weaken ?_
  rintro _ c' ⟨⟨hbegun, hmid, hagreed, hclear⟩, -⟩
  have hnone : Mid cd none none [] c'.core :=
    { hmid with half := hmid.half.done hbegun }
  exact hnone.idles hagreed hclear

/-- A frame that refuses a stream. -/
theorem refuse_goes {id : StreamId} (hid : nice → c.core.Beyond id) :
    (plain D B nice).Goes c (emit (.rstStream id .refusedStream)) fun _ _ => True := by
  intro _
  rcases emit_run (f := .rstStream id .refusedStream) (c := c) with ⟨c', heq, hw⟩ | heq
  · rw [heq]
    refine ⟨.single ?_, nofun, fun _ _ => trivial⟩
    show Plain B nice c.core c'.core
    rw [hw.core]
    exact .refuse id hid
  · rw [heq]
    exact ⟨.single (.calm .shut), fun _ _ => rfl, nofun⟩

/-- A request is refused: its stream is forgotten, and its client told. -/
theorem refused_goes {why : Cause} {id : StreamId} (hm : c.MayLeave r) (hid : (c.get r).id = id)
    (hb : nice → c.core.Beyond id) :
    (plain D B nice).Goes c
      (do modify (·.forget r why)
          emit (.rstStream id .refusedStream) : M D Unit)
      fun _ c' => c'.core.On r (·.phase ≠ .headers) := by
  have hforget : (ending D B nice).Goes c (modify (·.forget r why) : M D Unit)
      fun _ c' => Left r c c' := forget_goes hm fun _ hn => by rw [hid]; exact hb hn
  refine .bind hforget.exact.endingToPlain ?_
  rintro _ _ ⟨hleft, rfl⟩
  have hbeyond : nice → (c.forget r why).core.Beyond id := by
    intro hn last hlast
    obtain ⟨_, htrace⟩ : ∃ id, (c.forget r why).trace = .left id why :: c.trace := Conn.trace_forget
    have hsame : goaways (c.forget r why).core.trace = goaways c.core.trace := by
      show goaways (c.forget r why).trace = _
      rw [htrace]
      rfl
    rw [hsame] at hlast
    exact hb hn last hlast
  exact ((refuse_goes hbeyond).keeping (P := fun k => k.On r (·.phase ≠ .headers))
    (fun move _ h => move.begun h) hleft.begun).weaken fun _ _ h => h.2

/-- A request whose headers are decoded: what its stream says of it is set, and it is checked. -/
theorem accept_goes {f : Stream → Stream} (hr : r ∈ c.refs) (hp : c.core.On r (·.phase = .headers))
    (hbegin : c.core.MayBegin r)
    (hf : ∀ s, ∃ g o, (f s).line = { s.line with grpc := g, isOpen := o }) :
    (plain D B nice).Goes c (do update r f; dispatch h r : M D Unit)
      fun _ c' => c'.core.On r (·.phase ≠ .headers) := by
  refine .assuming fun hk => ?_
  obtain ⟨g, o, hline⟩ := hf (c.get r)
  obtain ⟨hcore, -⟩ := Conn.beside_mod (c := c) (r := r) (f := f)
    (g := fun l => { l with grpc := g, isOpen := o }) hk.refs_nodup hline fun _ => rfl
  refine .bind (Q := fun _ c₁ => c₁.core = c.core.edit r fun l => { l with grpc := g, isOpen := o })
    (.move ?_ hcore) fun _ c₁ hc₁ => ?_
  · show Plain B nice c.core (c.mod r f).core
    rw [hcore]
    exact .classify r g o hp
  refine dispatch_goes ⟨?_, ?_, ?_⟩
  · rw [← Conn.core_refs, hc₁]
    exact Core.mem_edit_refs (fun _ => rfl) (by rwa [Conn.core_refs])
  · rw [hc₁]
    refine hk.loose fun l hl hlr hrun => ?_
    rw [hp l hl hlr] at hrun
    cases hrun
  · rw [hc₁]
    refine Core.On.edit fun l hl hlr => ?_
    -- a call that is held back is running
    have hfree (hheld : l.deferred = true ∨ l.holding = true) : False := by
      have := (hk.queues.waiting l.toStanding (List.mem_map_of_mem hl) hheld).1
      rw [hp l hl hlr] at this
      cases this
    refine ⟨?_, ?_, .inr ⟨hp l hl hlr, ?_⟩⟩
    · exact Bool.eq_false_iff.2 fun hd => hfree (.inl hd)
    · exact Bool.eq_false_iff.2 fun hh => hfree (.inr hh)
    · obtain ⟨hlen, hgo, hcont⟩ := hbegin
      refine ⟨?_, hgo, hcont⟩
      show (Lib.edit _ _ _ _).length ≤ _
      rwa [length_edit]

/-- Where the whole block of a request or of trailers is handed on. -/
structure Whole (cd : Codec D) (c : Conn D) (r : Ref) : Prop where
  mem : r ∈ c.refs
  reading : c.reading = true
  agreed : Agreed c.trace
  ignoring : c.ignoring = 0
  block : (assembly c.trace).openBlock = none
  trailers : (c.get r).trailing = true → c.core.On r (·.phase ≠ .headers) ∧
    Mid cd none none [c.trailerBlock] c.core
  request : (c.get r).trailing = false → c.core.On r (·.phase = .headers) ∧
    Mid cd (some r) none [(c.get r).block] c.core

theorem headersDone_goes (hw : Whole cd c r) :
    (reader D B nice home).Goes c (headersDone h cd r) fun _ c' => Idles cd c'.core := by
  refine .bind (Q := fun _ c₁ => c₁ = { c with continuing := none })
    (front_reader (.header none c.trailerBlock c.ignoring) rfl) ?_
  rintro _ _ rfl
  have hclear : Clear ({ c with continuing := none } : Conn D).core :=
    ⟨rfl, hw.ignoring, hw.block⟩
  refine .get_bind (.ite (fun htr => ?_) fun htr => ?_)
  · obtain ⟨hp, hm⟩ := hw.trailers htr
    refine trailersDone_goes hw.mem hp ?_ hw.agreed hclear
    exact ⟨⟨hm.half, hm.capped, hm.owing.fed, hm.owing.table⟩, hm.idle, hm.heard⟩
  have htr : (c.get r).trailing = false := Bool.eq_false_iff.2 htr
  obtain ⟨hp, hm⟩ := hw.request htr
  refine .bind (feed_goes rfl) ?_
  rintro ⟨fields, overLimit⟩ c₁ ⟨d, hdec, hc₁⟩
  refine .bind (update_same rfl fun _ => rfl) fun _ c₂ hc₂ => ?_
  rw [hc₁] at hc₂
  -- the block has been through the decoder, and the request is all that is open
  have hm₂ : Mid cd (some r) none [] c₂.core := by
    have howe : Owing cd [(c.get r).block] ({ c with continuing := none } : Conn D).core :=
      ⟨hm.owing.fed, hm.owing.table⟩
    rw [hc₂]
    exact ⟨⟨hm.half, hm.capped, howe.feed hdec⟩, hm.idle, hm.heard⟩
  have ha₂ : Agreed c₂.trace := by
    have : c₂.core.trace = .fed (c.get r).block :: c.trace := by rw [hc₂]; rfl
    show Agreed c₂.core.trace
    rw [this]
    exact ⟨hw.agreed.1, hw.agreed.2⟩
  have hclear₂ : Clear c₂.core := by
    rw [hc₂]
    exact ⟨rfl, hw.ignoring, hw.block⟩
  have hr₂ : r ∈ c₂.refs := by
    rw [← Conn.core_refs, hc₂]
    show r ∈ c.core.refs
    rw [Conn.core_refs]
    exact hw.mem
  have hp₂ : c₂.core.On r (·.phase = .headers) := by
    rw [hc₂]
    exact hp
  refine .assuming fun hk => ?_
  have hk : Good B nice c₂.core := hk
  have hid : (c₂.get r).id = (c.get r).id := by
    refine Conn.get_on (P := fun l => l.id = (c.get r).id) hr₂ ?_
    rw [hc₂]
    have hn : c.refs.Nodup := by
      have := hk.nodup
      rw [hc₂] at this
      have : c.core.refs.Nodup := this
      rwa [Conn.core_refs] at this
    exact Conn.on_get (c := c) (P := fun l => l.id = (c.get r).id) hn rfl
  have hleave : c₂.MayLeave r := by
    refine ⟨hr₂, hk.loose fun l hl hlr hrun => ?_, fun _ _ _ _ => ?_⟩
    · rw [hp₂ l hl hlr] at hrun
      cases hrun
    · rw [show c₂.continuing = none from hclear₂.continuing]
      nofun
  refine request_reader hm₂ ha₂ hclear₂ ?_
  refine .ite (fun _ => (malformed_goes hleave).endingToPlain) fun _ => ?_
  refine .get_bind (.ite (fun _ => ?_) fun hgo => ?_)
  · refine refused_goes hleave hid fun hn last hlast => ?_
    have hread : c₂.core.reading = true := by
      rw [hc₂]
      exact hw.reading
    have hmem : (c₂.get r).line.toStanding ∈ c₂.core.standings :=
      List.mem_map_of_mem (List.mem_map_of_mem (Conn.get_mem hr₂).1)
    show last < (c.get r).id
    rw [← hid]
    exact hk.promise.half hn hread last hlast _ hmem (Conn.get_on hr₂ hp₂)
  · have hgo : c₂.goawaySent = false := by simpa using hgo
    refine .get_bind (.ite (fun _ => ?_) fun hlen => ?_)
    · refine .calmThenPlain (.quiet rfl trivial) fun _ c₃ hf₃ => ?_
      have hid₃ : (c₃.get r).id = (c.get r).id := by
        refine Conn.get_on (P := fun l => l.id = (c.get r).id) (hf₃.mem hr₂) ?_
        refine hf₃.on (P := fun s => s.id = (c.get r).id) ?_
        exact Conn.on_get hk.refs_nodup hid
      refine .get_bind (.bind (Q := fun _ c₄ => c₄ = c₃) ?_ ?_)
      · exact Course.Goes.toPlain (.when (fun _ => stop_goes) fun _ => rfl)
      · intro _ c₄ hc₄
        rw [hc₄]
        refine .assuming fun hk₃ => ?_
        refine refused_goes (hleave.framed hf₃) hid₃ fun _ last hlast => ?_
        -- no GOAWAY has been written yet
        have hsilent : goaways c₃.core.trace = [] :=
          hk₃.promise.silent ((congrArg Bearing.goawaySent hf₃.bearing).trans hgo)
        rw [hsilent] at hlast
        cases hlast
    · refine accept_goes hr₂ hp₂ ⟨?_, hgo, ?_⟩ fun s => ⟨_, _, rfl⟩
      · show (c₂.streams.map (·.line)).length ≤ maxStreams
        rw [List.length_map]
        exact Nat.le_of_not_lt hlen
      · rw [hclear₂.continuing]
        nofun

/-- What a frame leaves behind: a connection between two frames, with `continuing` where it
should point. -/
structure Ended (cd : Codec D) (home : Prop) (k : Core D) : Prop where
  rest : Rest cd k
  home : home → k.Home

theorem Idles.ended {k : Core D} (hk : Idles cd k) : Ended cd home k :=
  ⟨hk.rest, fun _ => Core.home_of_none hk.clear.continuing⟩

/-- A block is left open on a stream. -/
theorem ended_here {k : Core D} (hm : Mid cd (some r) none [] k) (ha : Agreed k.trace)
    (hr : r ∈ k.refs) (hi : k.ignoring = 0)
    (ht : k.On r fun l => l.trailing = false ↔ l.phase = .headers)
    (hb : k.On r fun l => (assembly k.trace).openBlock = some (l.id, k.arrived l.toStanding)) :
    Ended cd home { k with continuing := some r } := by
  refine ⟨⟨⟨⟨hm.half, hm.capped, hm.owing.fed, hm.owing.table⟩, hm.idle, hm.heard⟩, ha,
    ⟨?_, nofun⟩, ?_⟩, ?_⟩
  · rintro _ ⟨⟩
    exact ⟨hi, hb⟩
  · rintro _ ⟨⟩
    exact ht
  · rintro _ _ ⟨⟩
    exact ⟨hr, fun l hl hlr => ⟨k.trace, List.suffix_refl _, _, hb l hl hlr⟩⟩

/-- More of a block: it is bounded, and goes where the block of its stream is kept. -/
theorem appendBlockBytes_goes {bytes : Bytes} (hh : home → c.core.Home) :
    (reader D B nice home).Goes c (appendBlockBytes r bytes) fun _ c' =>
      c'.core = if (c.get r).trailing then
        { c.core with trailerBlock := c.trailerBlock ++ bytes }
      else c.core.edit r fun l => { l with block := l.block ++ bytes } := by
  refine .get_bind (.ite (fun htr => ?_) fun htr => ?_)
  · refine .get_bind (guard_reader hh fun _ => ?_)
    refine front_reader (.header c.continuing (c.trailerBlock ++ bytes) c.ignoring) ?_
    rw [if_pos htr]
    rfl
  · refine .get_bind (guard_reader hh fun _ => ?_)
    have hcore : (c.mod r fun s => { s with block := s.block ++ bytes }).core =
        c.core.edit r fun l => { l with block := l.block ++ bytes } := Conn.core_mod fun _ => rfl
    refine .move ?_ ?_
    · show Reads B nice home c.core (c.mod r fun s => { s with block := s.block ++ bytes }).core
      rw [hcore]
      exact Front.reads (.extend r bytes) rfl
    · rw [if_neg htr]
      exact hcore

theorem endIgnored_goes (hm : Mid cd none none [c.trailerBlock] c.core) (ha : Agreed c.trace)
    (hc : c.continuing = none) (hb : (assembly c.trace).openBlock = none) :
    (reader D B nice home).Goes c (endIgnored cd) fun _ c' => Idles cd c'.core := by
  refine .bind (Q := fun _ c₁ => c₁.core = { c.core with ignoring := 0 })
    (front_reader (.header c.continuing c.trailerBlock 0) rfl) fun _ c₁ hc₁ => ?_
  have hblock : c₁.trailerBlock = c.trailerBlock := congrArg (·.trailerBlock) hc₁
  have hnone : c₁.continuing = none := (congrArg (·.continuing) hc₁).trans hc
  refine .get_bind (.bind (feed_goes hnone) fun _ c₂ ⟨d, hdec, hc₂⟩ => ?_)
  rw [hblock] at hdec hc₂
  refine front_reader (.header c₂.continuing [] c₂.ignoring) ?_
  have howe : Owing cd [] c₂.core := by
    rw [hc₂]
    refine Owing.feed ?_ hdec
    rw [hc₁]
    exact ⟨hm.owing.fed, hm.owing.table⟩
  have hmid : Mid cd none none [] { c₂.core with trailerBlock := [] } := by
    refine ⟨⟨?_, ?_, howe.fed, howe.table⟩, ?_, ?_⟩
    all_goals rw [hc₂, hc₁]
    · exact hm.half
    · exact hm.capped
    · exact hm.idle
    · exact hm.heard
  refine hmid.idles ?_ ?_
  · rw [hc₂, hc₁]
    exact ha
  · rw [hc₂, hc₁]
    exact ⟨hc, rfl, hb⟩

/-- A HEADERS frame has been read and nothing is done with its fragment yet: a whole block is
owed to the decoder, and one that goes on is open. -/
structure Fragment (cd : Codec D) (c : Conn D) (f : Frame) (fragment : Bytes) : Prop where
  reading : c.reading = true
  agreed : Agreed c.trace
  continuing : c.continuing = none
  ignoring : c.ignoring = 0
  mid : Mid cd none none (if f.has Flags.endHeaders then [fragment] else []) c.core
  block : (assembly c.trace).openBlock =
    if f.has Flags.endHeaders then none else some (f.stream, fragment)

theorem Conn.find_some {id : StreamId} (hfind : c.find id = some r) :
    r ∈ c.refs ∧ (c.refs.Nodup → (c.get r).id = id) := by
  rw [Conn.find, Option.map_eq_some_iff] at hfind
  obtain ⟨s, hs, rfl⟩ := hfind
  have hmem := List.mem_of_find?_eq_some hs
  refine ⟨List.mem_map_of_mem hmem, fun hn => ?_⟩
  rw [← Conn.eq_get hn hmem rfl]
  simpa using List.find?_some hs

theorem onTrailers_goes {f : Frame} {fragment : Bytes} (hf : Fragment cd c f fragment)
    (hfind : c.find f.stream = some r) :
    (reader D B nice home).Goes c (onTrailers h cd f fragment r)
      fun _ c' => Ended cd home c'.core := by
  refine .assuming fun hk => ?_
  have hk : Good B nice c.core := hk
  have hn := hk.refs_nodup
  obtain ⟨hr, hid⟩ := Conn.find_some hfind
  have hid := hid hn
  have hh : home → _ := home_of_continuing hf.continuing
  refine .get_bind (guard_reader hh fun hphase => guard_reader hh fun _ => ?_)
  have hp : c.core.On r (·.phase ≠ .headers) := Conn.on_get hn fun hp => hphase (.inl hp)
  refine .bind (Q := fun _ c₁ => c₁ = { c with trailerBlock := [] })
    (front_reader (.header c.continuing [] c.ignoring) rfl) ?_
  rintro _ _ rfl
  have hcore : (({ c with trailerBlock := [] } : Conn D).mod r fun s =>
      { s with trailing := true }).core =
      { c.core.edit r (fun l => { l with trailing := true }) with trailerBlock := [] } := by
    have hmod : (c.mod r fun s => { s with trailing := true }).core =
        c.core.edit r fun l => { l with trailing := true } := Conn.core_mod fun _ => rfl
    exact congrArg (fun k : Core D => { k with trailerBlock := [] }) hmod
  have hget : (({ c with trailerBlock := [] } : Conn D).mod r fun s =>
      { s with trailing := true }).get r = { c.get r with trailing := true } :=
    Conn.get_mod (c := { c with trailerBlock := [] }) (f := fun s => { s with trailing := true })
      hr (fun _ => rfl) hn
  refine .bind (Q := fun _ c₂ => (c₂.get r).trailing = true ∧ c₂.continuing = none ∧ c₂.core =
    { c.core.edit r (fun l => { l with trailing := true }) with trailerBlock := [] })
    (.move ?_ ⟨by rw [hget], hf.continuing, hcore⟩) fun _ c₂ ⟨htr₂, hnone₂, hc₂⟩ => ?_
  · show Reads B nice home ({ c with trailerBlock := [] } : Conn D).core
      (({ c with trailerBlock := [] } : Conn D).mod r fun s => { s with trailing := true }).core
    rw [hcore]
    exact Front.reads (.trail r true) rfl
  refine .bind (appendBlockBytes_goes (home_of_continuing hnone₂)) fun _ c₃ hc₃ => ?_
  have hblock₂ : c₂.trailerBlock = [] := congrArg (·.trailerBlock) hc₂
  rw [if_pos htr₂, hblock₂, List.nil_append, hc₂] at hc₃
  -- the fragment is in the trailer block, and the stream is marked
  have hm₃ : Mid cd none none (if f.has Flags.endHeaders then [fragment] else []) c₃.core := by
    have hm := hf.mid.edit (r := r) (f := fun l => { l with trailing := true }) fun _ => rfl
    rw [hc₃]
    exact ⟨⟨hm.half, hm.capped, hm.owing.fed, hm.owing.table⟩, hm.idle, hm.heard⟩
  have hr₃ : r ∈ c₃.core.refs := by
    rw [hc₃]
    exact Core.mem_edit_refs (k := c.core) (f := fun l => { l with trailing := true })
      (fun _ => rfl) (by rwa [Conn.core_refs])
  have hp₃ : c₃.core.On r (·.phase ≠ .headers) := by
    rw [hc₃]
    exact Core.On.edit (k := c.core) (f := fun l => { l with trailing := true }) hp
  have htr₃ : c₃.core.On r (·.trailing = true) := by
    rw [hc₃]
    exact Core.On.edit (k := c.core) (f := fun l => { l with trailing := true }) fun _ _ _ => rfl
  have ha₃ : Agreed c₃.core.trace := by
    rw [hc₃]
    exact hf.agreed
  have hasm : assembly c₃.core.trace = assembly c.trace := by
    rw [hc₃]
    rfl
  have hbytes : c₃.core.trailerBlock = fragment := by rw [hc₃]
  have hign : c₃.core.ignoring = 0 := by
    rw [hc₃]
    exact hf.ignoring
  refine .ite (fun hend => ?_) fun hend => ?_
  · refine (headersDone_goes ⟨?_, ?_, ha₃, hign, ?_, fun _ => ⟨hp₃, ?_⟩, ?_⟩).weaken
      fun _ _ hi => hi.ended
    · rwa [Conn.core_refs] at hr₃
    · have : c₃.core.reading = true := by
        rw [hc₃]
        exact hf.reading
      exact this
    · show (assembly c₃.core.trace).openBlock = none
      rw [hasm, hf.block, if_pos hend]
    · rw [if_pos hend] at hm₃
      have : c₃.trailerBlock = fragment := hbytes
      rwa [this]
    · intro hfalse
      rw [Conn.core_refs] at hr₃
      have : (c₃.get r).trailing = true := Conn.get_on hr₃ htr₃
      rw [this] at hfalse
      cases hfalse
  · rw [if_neg hend] at hm₃
    refine front_reader (.header (some r) c₃.trailerBlock c₃.ignoring) ?_
    have hhalf : Mid cd (some r) none [] c₃.core := { hm₃ with half := hm₃.half.of_none _ }
    refine ended_here hhalf ha₃ hr₃ hign ?_ ?_
    · intro l hl hlr
      rw [htr₃ l hl hlr]
      exact ⟨nofun, fun hhead => absurd hhead (hp₃ l hl hlr)⟩
    · have hid₃ : c₃.core.On r (·.id = f.stream) := by
        rw [hc₃]
        exact Core.On.edit (k := c.core) (f := fun l => { l with trailing := true })
          (Conn.on_get hn hid)
      intro l hl hlr
      rw [hasm, hf.block, if_neg hend, hid₃ l hl hlr, Core.arrived, htr₃ l hl hlr, if_pos rfl,
        hbytes]

theorem onLateTrailers_goes {f : Frame} {fragment : Bytes} (hf : Fragment cd c f fragment)
    (hid : f.stream ≠ 0) :
    (reader D B nice home).Goes c (onLateTrailers h cd f fragment)
      fun _ c' => Ended cd home c'.core := by
  have hh : home → _ := home_of_continuing hf.continuing
  refine guard_reader hh fun _ => ?_
  refine .bind (control_reader hh) fun _ c₁ hc₁ => ?_
  refine .bind (Q := fun _ c₂ => c₂.core =
    { c.core with trailerBlock := fragment, ignoring := f.stream })
    (front_reader (.header c₁.continuing fragment f.stream) ?_) fun _ c₂ hc₂ => ?_
  · exact congrArg (fun k : Core D =>
      { k with trailerBlock := fragment, ignoring := f.stream }) hc₁
  have hm₂ : Mid cd none none (if f.has Flags.endHeaders then [fragment] else []) c₂.core := by
    have hm := hf.mid
    rw [hc₂]
    exact ⟨⟨hm.half, hm.capped, hm.owing.fed, hm.owing.table⟩, hm.idle, hm.heard⟩
  have ha₂ : Agreed c₂.core.trace := by
    rw [hc₂]
    exact hf.agreed
  have hnone₂ : c₂.core.continuing = none := by
    rw [hc₂]
    exact hf.continuing
  have hasm : assembly c₂.core.trace = assembly c.trace := by
    rw [hc₂]
    rfl
  refine .when (fun hend => ?_) fun hend => ?_
  · rw [if_pos hend] at hm₂
    refine (endIgnored_goes ?_ ha₂ hnone₂ ?_).weaken fun _ _ hi => hi.ended
    · have : c₂.trailerBlock = fragment := congrArg (·.trailerBlock) hc₂
      rwa [this]
    · show (assembly c₂.core.trace).openBlock = none
      rw [hasm, hf.block, if_pos hend]
  · rw [if_neg hend] at hm₂
    refine ⟨⟨?_, ha₂, ⟨?_, fun _ => ?_⟩, ?_⟩, fun _ => Core.home_of_none hnone₂⟩
    · rwa [hnone₂]
    · intro q hq
      rw [hnone₂] at hq
      cases hq
    · rw [hasm, hf.block, if_neg hend, hc₂, if_neg hid]
    · intro q hq
      rw [hnone₂] at hq
      cases hq

/-- A stream for a new request goes last, on a spare reference or on a new one. -/
theorem Conn.newStream_core (id : StreamId) :
    ∃ spare nextRef, (c.newStream h id).2.core =
      { c.core with
        lines := c.core.lines ++ [.opened (c.newStream h id).1 id c.peerWindow], spare, nextRef } ∧
      (c.spare = (c.newStream h id).1 :: spare ∧ nextRef = c.nextRef ∨
        c.spare = spare ∧ (c.newStream h id).1 = c.nextRef ∧ nextRef = c.nextRef + 1) := by
  rw [Conn.newStream]
  cases hs : c.spare with
  | nil =>
    refine ⟨[], c.nextRef + 1, ?_, .inr ⟨rfl, rfl, rfl⟩⟩
    simp only [Conn.core, List.map_append, hs]
    rfl
  | cons r rest =>
    refine ⟨rest, c.nextRef, ?_, .inl ⟨rfl, rfl⟩⟩
    simp only [Conn.core, List.map_append]
    rfl

/-- The connection after a stream has been opened for a new request. -/
structure Opens (c : Conn D) (id : StreamId) (r : Ref) (k : Core D) : Prop where
  lines : k.lines = c.core.lines ++ [.opened r id c.peerWindow]
  frame : ∃ spare nextRef,
    k = { c.core with lines := k.lines, lastStream := id, spare, nextRef }

theorem newRequest_goes {id : StreamId} (hall : ∀ l ∈ c.core.lines, l.phase ≠ .headers)
    (hid : c.lastStream < id) :
    (reader D B nice home).Goes c (newRequest h id) fun r c' => Opens c id r c'.core := by
  obtain ⟨spare, nextRef, hcore, href⟩ := Conn.newStream_core (h := h) id
    (c := { c with
      lastStream := id
      callsLeft := c.callsLeft - 1
      spent := if c.callsLeft ≠ 0 then c.callsLeft == 1 else c.spent })
  refine .get_bind ?_
  obtain ⟨p, hp⟩ : ∃ p, ({ c with
      lastStream := id
      callsLeft := c.callsLeft - 1
      spent := if c.callsLeft ≠ 0 then c.callsLeft == 1 else c.spent } : Conn D).newStream h id = p :=
    ⟨_, rfl⟩
  rw [hp] at hcore href
  have hmove : Front B nice c.core _ := .append p.1 id spare nextRef hall hid href
  have hopens : Opens c id p.1 p.2.core := by
    rw [hcore]
    exact ⟨rfl, spare, nextRef, rfl⟩
  rw [hp]
  refine .bind (Q := fun _ c₁ => c₁ = p.2) (.as (n := modify fun _ => p.2) rfl ?_) ?_
  · refine front_reader ?_ rfl ?_ ?_
    · rw [hcore]
      exact hmove
    · show p.2.core.astray = c.core.astray
      rw [hcore]
      rfl
    · show ∀ r ∈ c.core.inHand, r ∈ p.2.core.inHand
      rw [hcore]
      exact fun _ hr => hr
  · rintro _ _ rfl
    exact .pure hopens

theorem Opens.mid {id : StreamId} {k : Core D} (ho : Opens c id r k) (hk : Good B nice c.core)
    {bs : List Bytes} (hm : Mid cd none none bs c.core) : Mid cd (some r) none bs k := by
  obtain ⟨spare, nextRef, hframe⟩ := ho.frame
  rw [hframe, ho.lines]
  refine ⟨⟨?_, ?_, hm.owing.fed, hm.owing.table⟩, ?_, ?_⟩
  · intro s hs hp
    rw [Core.standings, List.map_append] at hs
    rcases List.mem_append.1 hs with hs | hs
    · cases hm.half s hs hp
    · rw [List.mem_singleton.1 hs]
      rfl
  · intro l hl _ hreset
    rcases List.mem_append.1 hl with hl | hl
    · exact hm.capped l hl (by rintro ⟨⟩) hreset
    · rw [List.mem_singleton.1 hl]
      exact hk.flow.peerCap
  · intro l hl ha
    rcases List.mem_append.1 hl with hl | hl
    · exact hm.idle l hl ha
    · rw [List.mem_singleton.1 hl]
      rfl
  · intro q l hl hlq hrun hwant
    rcases List.mem_append.1 hl with hl | hl
    · exact hm.heard q l hl hlq hrun hwant
    · rw [List.mem_singleton.1 hl] at hwant
      exact absurd rfl hwant

/-- The line of a stream just opened is the only one under its reference. -/
theorem Opens.on {id : StreamId} {k : Core D} (ho : Opens c id r k) (hn : k.refs.Nodup)
    {P : Line → Prop} (hP : P (.opened r id c.peerWindow)) : k.On r P := by
  intro l hl hlr
  have hmem : Line.opened r id c.peerWindow ∈ k.lines := by
    rw [ho.lines]
    exact List.mem_append_right _ List.mem_cons_self
  rw [eq_of_key hn hl hmem hlr]
  exact hP

theorem Opens.mem {id : StreamId} {k : Core D} (ho : Opens c id r k) : r ∈ k.refs := by
  rw [Core.refs, ho.lines, List.map_append]
  exact List.mem_append_right _ List.mem_cons_self

theorem onRequest_goes {f : Frame} {fragment : Bytes} {selfDependent : Bool}
    (hf : Fragment cd c f fragment) (hid : c.lastStream < f.stream) :
    (reader D B nice home).Goes c (onRequest h cd f fragment selfDependent)
      fun _ c' => Ended cd home c'.core := by
  refine .assuming fun hk => ?_
  have hall : ∀ l ∈ c.core.lines, l.phase ≠ .headers := by
    intro l hl hp
    cases hf.mid.half l.toStanding (List.mem_map_of_mem hl) hp
  refine .bind (newRequest_goes hall hid) fun r c₁ ho => ?_
  refine .get_bind (.bind (update_same rfl fun _ => rfl) fun _ c₂ hc₂ => ?_)
  rw [← hc₂] at ho
  refine .assuming fun hk₂ => ?_
  have hk₂ : Good B nice c₂.core := hk₂
  obtain ⟨spare, nextRef, hframe⟩ := ho.frame
  have hr₂ : r ∈ c₂.refs := by
    have := ho.mem
    rwa [Conn.core_refs] at this
  have hline : (c₂.get r).line = .opened r f.stream c.peerWindow :=
    Conn.get_on (P := (· = _)) hr₂ (ho.on hk₂.nodup rfl)
  have htr : (c₂.get r).trailing = false := congrArg (·.trailing) hline
  have hnone₂ : c₂.continuing = none := by
    have : c₂.core.continuing = none := by
      rw [hframe]
      exact hf.continuing
    exact this
  refine .bind (appendBlockBytes_goes (home_of_continuing hnone₂)) fun _ c₃ hc₃ => ?_
  rw [htr] at hc₃
  have hc₃ : c₃.core = c₂.core.edit r fun l => { l with block := l.block ++ fragment } := hc₃
  refine .bind (update_same rfl fun _ => rfl) fun _ c₄ hc₄ => ?_
  rw [hc₃] at hc₄
  -- the request is in the table, and its fragment is its block
  have hm₄ : Mid cd (some r) none (if f.has Flags.endHeaders then [fragment] else []) c₄.core := by
    rw [hc₄]
    exact (ho.mid hk hf.mid).edit fun _ => rfl
  have hr₄ : r ∈ c₄.core.refs := by
    rw [hc₄]
    exact Core.mem_edit_refs (fun _ => rfl) ho.mem
  have hon₄ : c₄.core.On r fun l =>
      l.phase = .headers ∧ l.trailing = false ∧ l.id = f.stream ∧ l.block = fragment := by
    rw [hc₄]
    exact Core.On.edit (ho.on hk₂.nodup ⟨rfl, rfl, rfl, List.nil_append _⟩)
  have htrace : c₄.core.trace = c.trace := by
    rw [hc₄]
    show c₂.core.trace = _
    rw [hframe]
    rfl
  have ha₄ : Agreed c₄.core.trace := by
    rw [htrace]
    exact hf.agreed
  have hign : c₄.core.ignoring = 0 := by
    rw [hc₄]
    show c₂.core.ignoring = 0
    rw [hframe]
    exact hf.ignoring
  refine .ite (fun hend => ?_) fun hend => ?_
  · have hr : r ∈ c₄.refs := by rwa [Conn.core_refs] at hr₄
    obtain ⟨-, htr₄, -, hblock₄⟩ := Conn.get_on hr hon₄
    refine (headersDone_goes ⟨hr, ?_, ha₄, hign, ?_, ?_, fun _ => ⟨?_, ?_⟩⟩).weaken
      fun _ _ hi => hi.ended
    · have : c₄.core.reading = true := by
        rw [hc₄]
        show c₂.core.reading = true
        rw [hframe]
        exact hf.reading
      exact this
    · show (assembly c₄.core.trace).openBlock = none
      rw [htrace, hf.block, if_pos hend]
    · intro htrue
      have htr₄ : (c₄.get r).trailing = false := htr₄
      rw [htr₄] at htrue
      cases htrue
    · exact fun l hl hlr => (hon₄ l hl hlr).1
    · rw [if_pos hend] at hm₄
      have hblock₄ : (c₄.get r).block = fragment := hblock₄
      rwa [hblock₄]
  · rw [if_neg hend] at hm₄
    refine front_reader (.header (some r) c₄.trailerBlock c₄.ignoring) ?_
    refine ended_here hm₄ ha₄ hr₄ hign ?_ ?_
    · intro l hl hlr
      obtain ⟨hp, ht, -, -⟩ := hon₄ l hl hlr
      exact ⟨fun _ => hp, fun _ => ht⟩
    · intro l hl hlr
      obtain ⟨-, ht, hid, hb⟩ := hon₄ l hl hlr
      rw [htrace, hf.block, if_neg hend, hid, Core.arrived, ht, hb]
      rfl

theorem onHeaders_goes {f : Frame}
    (hf : ∀ fragment selfDependent, headersFragment f = some (fragment, selfDependent) →
      Fragment cd c f fragment) (hc : c.continuing = none) :
    (reader D B nice home).Goes c (onHeaders h cd f) fun _ c' => Ended cd home c'.core := by
  have hh : home → _ := home_of_continuing hc
  refine guard_reader hh fun hid => ?_
  split
  · exact stop_reader hh
  · rename_i fragment selfDependent hfrag
    have hfrag := hf _ _ hfrag
    refine .get_bind ?_
    split
    · exact onTrailers_goes hfrag ‹_›
    · refine .get_bind (.ite (fun _ => ?_) fun hlast => ?_)
      · exact onLateTrailers_goes hfrag fun hz => hid (.inl hz)
      · exact onRequest_goes hfrag (Nat.lt_of_not_le hlast)

/-- A CONTINUATION of the block open on a stream has been read, and nothing is done with it
yet. `bytes` is the block before it. -/
structure Continues (cd : Codec D) (k : Core D) (f : Frame) (r : Ref) (bytes : Bytes) : Prop where
  mem : r ∈ k.refs
  reading : k.reading = true
  agreed : Agreed k.trace
  continuing : k.continuing = some r
  ignoring : k.ignoring = 0
  telling : k.On r fun l => l.trailing = false ↔ l.phase = .headers
  arrived : k.On r fun l => k.arrived l.toStanding = bytes
  mid : Mid cd (some r) none (if f.has Flags.endHeaders then [bytes ++ f.payload] else []) k
  block : k.On r fun l => (assembly k.trace).openBlock =
    if f.has Flags.endHeaders then none else some (l.id, bytes ++ f.payload)

/-- The bytes of a CONTINUATION are where the block of its stream is kept. -/
theorem Continues.appended {k k' : Core D} {f : Frame} {bytes : Bytes} {trailing : Bool}
    (hk : Continues cd k f r bytes) (ht : k.On r (·.trailing = trailing))
    (hk' : k' = if trailing then { k with trailerBlock := k.trailerBlock ++ f.payload }
      else k.edit r fun l => { l with block := l.block ++ f.payload }) :
    k'.On r (fun l => l.trailing = trailing ∧ (l.trailing = false ↔ l.phase = .headers) ∧
        k'.arrived l.toStanding = bytes ++ f.payload ∧ (assembly k'.trace).openBlock =
          if f.has Flags.endHeaders then none else some (l.id, bytes ++ f.payload)) ∧
      Mid cd (some r) none (if f.has Flags.endHeaders then [bytes ++ f.payload] else []) k' ∧
      r ∈ k'.refs ∧ k'.reading = true ∧ Agreed k'.trace ∧ k'.continuing = some r ∧
      k'.ignoring = 0 := by
  cases trailing with
  | true =>
    rw [hk']
    refine ⟨fun l hl hlr => ⟨ht l hl hlr, hk.telling l hl hlr, ?_, hk.block l hl hlr⟩, ?_, hk.mem,
      hk.reading, hk.agreed, hk.continuing, hk.ignoring⟩
    · have hbytes : (if l.trailing then k.trailerBlock else l.block) = bytes := hk.arrived l hl hlr
      rw [ht l hl hlr] at hbytes
      show (if l.trailing then k.trailerBlock ++ f.payload else l.block) = bytes ++ f.payload
      rw [ht l hl hlr, ← hbytes]
      rfl
    · have hm := hk.mid
      exact ⟨⟨hm.half, hm.capped, hm.owing.fed, hm.owing.table⟩, hm.idle, hm.heard⟩
  | false =>
    rw [hk']
    refine ⟨Core.On.edit fun l hl hlr => ⟨ht l hl hlr, hk.telling l hl hlr, ?_, hk.block l hl hlr⟩,
      hk.mid.edit fun _ => rfl, Core.mem_edit_refs (fun _ => rfl) hk.mem, hk.reading, hk.agreed,
      hk.continuing, hk.ignoring⟩
    have hbytes : (if l.trailing then k.trailerBlock else l.block) = bytes := hk.arrived l hl hlr
    rw [ht l hl hlr] at hbytes
    show (if l.trailing then k.trailerBlock else l.block ++ f.payload) = bytes ++ f.payload
    rw [ht l hl hlr, ← hbytes]
    rfl

theorem continue_goes {f : Frame} {bytes : Bytes} (hk : Continues cd c.core f r bytes)
    (hh : home → c.core.Home) :
    (reader D B nice home).Goes c
      (do when (f.payload = [] ∧ !f.has Flags.endHeaders) control
          appendBlockBytes r f.payload
          when (f.has Flags.endHeaders) (headersDone h cd r) : M D Unit)
      fun _ c' => Ended cd home c'.core := by
  refine .bind (Q := fun _ c₁ => c₁.core = c.core)
    (.when (fun _ => control_reader hh) fun _ => rfl) fun _ c₁ hc₁ => ?_
  rw [← hc₁] at hk hh
  refine .assuming fun hg => ?_
  have hg : Good B nice c₁.core := hg
  refine .bind (appendBlockBytes_goes hh) fun _ c₂ hc₂ => ?_
  obtain ⟨hon, hmid, hmem, hread, hagreed, hcont, hign⟩ :=
    hk.appended (Conn.on_get hg.refs_nodup rfl) hc₂
  have hr₂ : r ∈ c₂.refs := by rwa [Conn.core_refs] at hmem
  have hline := Conn.get_on hr₂ hon
  refine .when (fun hend => ?_) fun hend => ?_
  · rw [if_pos hend] at hmid
    refine (headersDone_goes ⟨hr₂, hread, hagreed, hign, ?_, fun htr => ?_, fun htr => ?_⟩).weaken
      fun _ _ hi => hi.ended
    · have := hline.2.2.2
      rwa [if_pos hend] at this
    · have hbegun : c₂.core.On r (·.phase ≠ .headers) := by
        intro l hl hlr hp
        obtain ⟨hl1, hl2, -, -⟩ := hon l hl hlr
        have hf := hl2.2 hp
        rw [hl1, ← hline.1] at hf
        exact absurd (htr.symm.trans hf) nofun
      refine ⟨hbegun, ?_⟩
      have hbytes : c₂.trailerBlock = bytes ++ f.payload := by
        have := hline.2.2.1
        rw [Core.arrived, show (c₂.get r).line.trailing = true from htr, if_pos rfl] at this
        exact this
      rw [hbytes]
      exact { hmid with half := hmid.half.done hbegun }
    · have hhead : c₂.core.On r (·.phase = .headers) := by
        intro l hl hlr
        obtain ⟨hl1, hl2, -, -⟩ := hon l hl hlr
        refine hl2.1 ?_
        rw [hl1, ← hline.1]
        exact htr
      refine ⟨hhead, ?_⟩
      have hbytes : (c₂.get r).block = bytes ++ f.payload := by
        have := hline.2.2.1
        rw [Core.arrived, show (c₂.get r).line.trailing = false from htr] at this
        exact this
      rw [hbytes]
      exact hmid
  · rw [if_neg hend] at hmid
    have hsame : { c₂.core with continuing := some r } = c₂.core := by rw [← hcont]
    rw [← hsame]
    refine ended_here hmid hagreed hmem hign (fun l hl hlr => (hon l hl hlr).2.1) ?_
    intro l hl hlr
    obtain ⟨-, -, hbytes, hblock⟩ := hon l hl hlr
    rw [hblock, if_neg hend, hbytes]

/-- A CONTINUATION of the trailers of a forgotten stream has been read, and nothing is done
with it yet. -/
structure Ignores (cd : Codec D) (k : Core D) (f : Frame) : Prop where
  agreed : Agreed k.trace
  continuing : k.continuing = none
  ignoring : k.ignoring ≠ 0
  mid : Mid cd none none
    (if f.has Flags.endHeaders then [k.trailerBlock ++ f.payload] else []) k
  block : (assembly k.trace).openBlock =
    if f.has Flags.endHeaders then none else some (k.ignoring, k.trailerBlock ++ f.payload)

theorem ignoreBlock_goes {f : Frame} (hk : Ignores cd c.core f) :
    (reader D B nice home).Goes c (ignoreBlock cd f) fun _ c' => Ended cd home c'.core := by
  refine .bind (Q := fun _ c₁ => c₁.core = c.core)
    (.when (fun _ => control_reader (home_of_continuing hk.continuing)) fun _ => rfl)
    fun _ c₁ hc₁ => ?_
  rw [← hc₁] at hk
  refine .get_bind (guard_reader (home_of_continuing hk.continuing) fun _ => ?_)
  refine .bind (Q := fun _ c₂ => c₂.core =
    { c₁.core with trailerBlock := c₁.trailerBlock ++ f.payload })
    (front_reader (.header c₁.continuing (c₁.trailerBlock ++ f.payload) c₁.ignoring) rfl)
    fun _ c₂ hc₂ => ?_
  have hm₂ : Mid cd none none
      (if f.has Flags.endHeaders then [c₁.trailerBlock ++ f.payload] else []) c₂.core := by
    have hm := hk.mid
    rw [hc₂]
    exact ⟨⟨hm.half, hm.capped, hm.owing.fed, hm.owing.table⟩, hm.idle, hm.heard⟩
  have ha₂ : Agreed c₂.core.trace := by
    rw [hc₂]
    exact hk.agreed
  have hnone₂ : c₂.core.continuing = none := by
    rw [hc₂]
    exact hk.continuing
  have hasm : assembly c₂.core.trace = assembly c₁.core.trace := by rw [hc₂]
  have hbytes : c₂.core.trailerBlock = c₁.trailerBlock ++ f.payload := by rw [hc₂]
  have hign : c₂.core.ignoring = c₁.core.ignoring := by rw [hc₂]
  refine .when (fun hend => ?_) fun hend => ?_
  · rw [if_pos hend] at hm₂
    refine (endIgnored_goes ?_ ha₂ hnone₂ ?_).weaken fun _ _ hi => hi.ended
    · have : c₂.trailerBlock = c₁.trailerBlock ++ f.payload := hbytes
      rwa [this]
    · show (assembly c₂.core.trace).openBlock = none
      rw [hasm, hk.block, if_pos hend]
  · rw [if_neg hend] at hm₂
    refine ⟨⟨?_, ha₂, ⟨?_, fun _ => ?_⟩, ?_⟩, fun _ => Core.home_of_none hnone₂⟩
    · rwa [hnone₂]
    · intro q hq
      rw [hnone₂] at hq
      cases hq
    · rw [hasm, hk.block, if_neg hend, hign, if_neg hk.ignoring, hbytes]
      rfl
    · intro q hq
      rw [hnone₂] at hq
      cases hq

/-! ## Frames of no block -/

theorem guard_plain {p : Prop} [Decidable p] {e : Stop} {f : Unit → M D Unit}
    {Q : Unit → Conn D → Prop} (hf : ¬p → (plain D B nice).Goes c (f ()) Q) :
    (plain D B nice).Goes c (when p (stop e) >>= f) Q := by
  by_cases hp : p
  · refine .bind (Q := fun _ _ => False) (.when (fun _ => stop_goes.toPlain) ?_) fun _ _ h => h.elim
    exact fun hn => hn hp
  · refine .bind (Q := fun _ c' => c' = c) (.when (fun hy => absurd hy hp) fun _ => rfl) ?_
    rintro _ _ rfl
    exact hf hp

/-- With no block open, every stream is settled. -/
theorem Conn.settled_of_none (hr : r ∈ c.refs) (hc : c.continuing = none) : c.Settled r where
  mem := hr
  whole _ _ _ _ := by
    rw [hc]
    nofun

theorem Conn.Settled.same {c c' : Conn D} (hs : c.Settled r) (hc : c'.core = c.core) :
    c'.Settled r where
  mem := by
    rw [← Conn.core_refs, hc, Conn.core_refs]
    exact hs.mem
  whole := by
    have hcont : c'.continuing = c.continuing := congrArg (·.continuing) hc
    rw [hc, hcont]
    exact hs.whole

theorem onPing_goes {f : Frame} : (plain D B nice).Goes c (onPing f) fun _ _ => True := by
  refine guard_plain fun _ => guard_plain fun hlen => .ite (fun _ => ?_) fun _ => .pure trivial
  refine .calmThenPlain (control_goes.weaken fun _ _ _ => trivial) fun _ _ _ => ?_
  refine (emit_small rfl rfl ?_).toPlain
  have hlen : f.payload.length = 8 := Decidable.not_not.1 hlen
  show f.payload.length ≤ defaultMaxFrame
  rw [hlen]
  decide

theorem onRstStream_goes {f : Frame} (hc : c.continuing = none) :
    (plain D B nice).Goes c (onRstStream f) fun _ _ => True := by
  refine guard_plain fun _ => guard_plain fun _ => .get_bind (guard_plain fun _ => .get_bind ?_)
  split
  · exact .pure trivial
  · rename_i r hfind
    have hs : c.Settled r := Conn.settled_of_none (Conn.find_some hfind).1 hc
    refine .get_bind (.bind (Q := fun _ c₁ => c₁.core = c.core)
      (.when (fun _ => control_goes.toPlain) fun _ => rfl) fun _ c₁ hc₁ => ?_)
    exact (onReset_goes (hs.same hc₁)).endingToPlain.weaken fun _ _ _ => trivial

theorem onPriority_goes {f : Frame} (hc : c.continuing = none) :
    (plain D B nice).Goes c (onPriority f) fun _ _ => True := by
  refine guard_plain fun _ => guard_plain fun _ => ?_
  refine .bind control_goes.toPlain fun _ c₁ hc₁ => ?_
  refine .ite (fun _ => ?_) fun _ => .pure trivial
  refine .calmThenPlain (emit_small rfl rfl (Nat.le_of_ble_eq_true rfl)) fun _ c₂ hf₂ => .get_bind ?_
  split
  · exact .pure trivial
  · rename_i r hfind
    have hnone : c₂.continuing = none := by
      have h₁ : c₁.continuing = c.continuing := congrArg (·.continuing) hc₁
      have h₂ : c₂.continuing = c₁.continuing := congrArg Bearing.continuing hf₂.bearing
      rw [h₂, h₁, hc]
    have hs : c₂.Settled r := Conn.settled_of_none (Conn.find_some hfind).1 hnone
    exact (onReset_goes hs).endingToPlain.weaken fun _ _ _ => trivial

theorem onGoaway_goes {f : Frame} : (plain D B nice).Goes c (onGoaway f) fun _ _ => True :=
  guard_plain fun _ => guard_plain fun _ => .quiet rfl trivial

theorem onContinuation_goes {f : Frame} (hi : c.ignoring ≠ 0 → Ignores cd c.core f)
    (hk : ∀ r, c.continuing = some r → c.ignoring = 0 → ∃ bytes, Continues cd c.core f r bytes)
    (hh : home → c.core.Home) :
    (reader D B nice home).Goes c (onContinuation h cd f) fun _ c' => Ended cd home c'.core := by
  refine .get_bind (.ite (fun hign => ignoreBlock_goes (hi hign)) fun hign => .get_bind ?_)
  split
  · exact stop_reader hh
  · rename_i r hcont
    obtain ⟨bytes, hk⟩ := hk r hcont (Decidable.not_not.1 hign)
    exact continue_goes hk hh

end Nilo.Http2
