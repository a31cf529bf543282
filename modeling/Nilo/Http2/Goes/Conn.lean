import Nilo.Http2.Between

/-!
# Where the connection's operations go: accounts

What each function of `Conn.lean` does, in the moves of the core. The courses
differ in the moves they have, and a function is proved to go along the narrowest,
because a narrow course says more: along `calm` and `taking` the table, the queues
and every stream's standing are as they were (`Goes.framed`).
-/

namespace Nilo.Http2

open Nilo.Lib
open Relation (ReflTransGen)

variable {D : Type} {h : Host} {nice : Prop} {B : Nat}

/-! ## The courses -/

/-- A step of a stream's life that gives no call to a fiber and takes none from the queue. -/
structure Ending (B : Nat) (nice : Prop) (k k' : Core D) : Prop where
  plain : Plain B nice k k'
  pending : k'.pending = k.pending
  inHand : k'.inHand = k.inHand

theorem Calm.ending {k k' : Core D} (h : Calm B k k') : Ending B nice k k' :=
  ⟨.calm h, by rw [h.bearing], by rw [h.bearing]⟩

/-- Accounts, the bytes of DATA frames, and the words of calls. -/
inductive Hearing (B : Nat) : Core D → Core D → Prop where
  | taking {k k' : Core D} : Taking B k k' → Hearing B k k'
  | listened {k : Core D} : Hearing B k { k with attention := false }

theorem Hearing.move {k k' : Core D} (h : Hearing B k k') : Move B nice k k' := by
  cases h with
  | taking h => exact .taking h
  | listened => exact .front .listened

section Courses

variable (D : Type) (B : Nat) (nice : Prop)

/-- The course of some of the moves. -/
def course (M : Core D → Core D → Prop) (hM : ∀ {a b}, M a b → Move B nice a b) :
    Course (Conn D) (Core D) where
  view := Conn.core
  Move := M
  Inv := Good B nice
  keeps m hk := (hM m).good hk
  Stopped c := c.reading = false

/-- Accounts only. -/
def calm : Course (Conn D) (Core D) := course D B nice (Calm B) fun m => .front (.plain (.calm m))

/-- Accounts, and the bytes of DATA frames. -/
def taking : Course (Conn D) (Core D) := course D B nice (Taking B) fun m => .taking m

def hearing : Course (Conn D) (Core D) := course D B nice (Hearing B) fun m => m.move

/-- Accounts, and the end of calls. -/
def ending : Course (Conn D) (Core D) :=
  course D B nice (Ending B nice) fun m => .front (.plain m.plain)

/-- Accounts and lives. -/
def plain : Course (Conn D) (Core D) := course D B nice (Plain B nice) fun m => .front (.plain m)

end Courses

/-- The table, the queues and the standing of every stream are as they were. -/
structure Framed (c c' : Conn D) : Prop where
  bearing : c'.core.toBearing = c.core.toBearing
  standings : c'.core.standings = c.core.standings

theorem Framed.refl (c : Conn D) : Framed c c := ⟨rfl, rfl⟩

theorem Framed.refs {c c' : Conn D} (hf : Framed c c') : c'.core.refs = c.core.refs := by
  rw [← Core.standings_refs, ← Core.standings_refs, hf.standings]

theorem Framed.on {c c' : Conn D} (hf : Framed c c') {r : Ref} {P : Standing → Prop}
    (hP : c.core.On r fun l => P l.toStanding) : c'.core.On r fun l => P l.toStanding := by
  intro l hl hr
  refine Core.On.standing hP l.toStanding ?_ hr
  rw [← hf.standings]
  exact List.mem_map_of_mem hl

theorem Framed.trans {c₁ c₂ c₃ : Conn D} (h₁ : Framed c₁ c₂) (h₂ : Framed c₂ c₃) : Framed c₁ c₃ :=
  ⟨h₂.bearing.trans h₁.bearing, h₂.standings.trans h₁.standings⟩

theorem taking_path_framed {c c' : Conn D} (p : ReflTransGen (Taking B) c.core c'.core) :
    Framed c c' := by
  have : c'.core.toBearing = c.core.toBearing ∧ c'.core.standings = c.core.standings :=
    Course.preserved (P := fun k => k.toBearing = c.core.toBearing ∧ k.standings = c.core.standings)
      p (fun m h => ⟨m.bearing.trans h.1, m.standings.trans h.2⟩) ⟨rfl, rfl⟩
  exact ⟨this.1, this.2⟩

end Nilo.Http2

namespace Nilo.Lib.Course.Goes

open Nilo.Http2

variable {D : Type} {nice : Prop} {B : Nat}
variable {α β : Type} {c : Conn D} {m : M D α} {Q : α → Conn D → Prop}

theorem toTaking (hm : (calm D B nice).Goes c m Q) : (taking D B nice).Goes c m Q :=
  Goes.lift (S := calm D B nice) rfl (fun m => .calm m) (fun h => h) (fun h => h) hm

theorem toEnding (hm : (calm D B nice).Goes c m Q) : (ending D B nice).Goes c m Q :=
  Goes.lift (S := calm D B nice) rfl (fun m => m.ending) (fun h => h) (fun h => h) hm

theorem endingToPlain (hm : (ending D B nice).Goes c m Q) : (plain D B nice).Goes c m Q :=
  Goes.lift (S := ending D B nice) rfl (fun m => m.plain) (fun h => h) (fun h => h) hm

theorem toPlain (hm : (calm D B nice).Goes c m Q) : (plain D B nice).Goes c m Q :=
  Goes.lift (S := calm D B nice) rfl (fun m => .calm m) (fun h => h) (fun h => h) hm

theorem toHearing (hm : (taking D B nice).Goes c m Q) : (hearing D B nice).Goes c m Q :=
  Goes.lift (S := taking D B nice) rfl (fun m => .taking m) (fun h => h) (fun h => h) hm

/-- What accounting leaves alone, said of what it hands over. -/
theorem framed (hm : (taking D B nice).Goes c m Q) :
    (taking D B nice).Goes c m fun a c' => Q a c' ∧ Framed c c' :=
  hm.traced.weaken fun _ _ h => ⟨h.1, taking_path_framed h.2⟩

theorem calmFramed (hm : (calm D B nice).Goes c m Q) :
    (calm D B nice).Goes c m fun a c' => Q a c' ∧ Framed c c' := by
  refine hm.traced.weaken fun _ _ h => ⟨h.1, taking_path_framed (B := B) ?_⟩
  exact Relation.ReflTransGen.mono (fun _ _ m => Taking.calm m) _ _ h.2

/-- Accounting first: what follows finds the table, the queues and every stream's standing
as they were. -/
theorem calmThen {f : α → M D β} {R : β → Conn D → Prop}
    (hm : (calm D B nice).Goes c m fun _ _ => True)
    (hf : ∀ a c', Framed c c' → (calm D B nice).Goes c' (f a) R) :
    (calm D B nice).Goes c (m >>= f) R :=
  .bind hm.calmFramed fun a c' h => hf a c' h.2

theorem calmThenEnding {f : α → M D β} {R : β → Conn D → Prop}
    (hm : (calm D B nice).Goes c m fun _ _ => True)
    (hf : ∀ a c', Framed c c' → (ending D B nice).Goes c' (f a) R) :
    (ending D B nice).Goes c (m >>= f) R :=
  .bind hm.calmFramed.toEnding fun a c' h => hf a c' h.2

/-- Accounting takes no bytes. -/
theorem takes (hm : (calm D B nice).Goes c m Q) :
    (calm D B nice).Goes c m fun _ c' => ∀ t, c.core.Takes t → c'.core.Takes t := by
  refine .assuming fun hk => ?_
  refine hm.traced.weaken ?_
  intro _ c' ht t hc
  exact Course.Path.along (P := fun k => k.Takes t) ht.2 hk (fun m _ h => Calm.takes m h) hc

end Nilo.Lib.Course.Goes

namespace Nilo.Http2

open Nilo.Lib
open Relation (ReflTransGen)

variable {D : Type} {h : Host} {nice : Prop} {B : Nat}

/-! ## The core of a changed connection -/

theorem Core.edit_edit {k : Core D} {r : Ref} {f g : Line → Line} (hf : ∀ l, (f l).ref = l.ref) :
    (k.edit r f).edit r g = k.edit r fun l => g (f l) := by
  have : Lib.edit (·.ref) r g (Lib.edit (·.ref) r f k.lines) =
      Lib.edit (·.ref) r (fun l => g (f l)) k.lines := Lib.edit_edit hf
  simp only [Core.edit, this]

theorem Core.mem_edit_refs {k : Core D} {r q : Ref} {f : Line → Line}
    (hf : ∀ l, (f l).ref = l.ref) (hq : q ∈ k.refs) : q ∈ (k.edit r f).refs := by
  have hsame : (k.edit r f).refs = k.refs := map_edit hf
  rwa [hsame]

/-- What a change makes of the line under a reference. -/
theorem Core.On.edit {k : Core D} {r : Ref} {f : Line → Line} {P : Line → Prop}
    (h : k.On r fun l => P (f l)) : (k.edit r f).On r P := by
  intro l' hl' hlr
  obtain ⟨l, hl, rfl⟩ := mem_edit.1 hl'
  by_cases hl' : l.ref = r
  · rw [if_pos hl']
    exact h l hl hl'
  · rw [if_neg hl'] at hlr
    exact absurd hlr hl'

namespace Conn

variable {c : Conn D} {r : Ref}

theorem core_refs : c.core.refs = c.refs := by
  simp [core, Core.refs, refs, Stream.line, Function.comp_def]

theorem core_mod_of {f : Stream → Stream} {g : Line → Line}
    (hf : ∀ s ∈ c.streams, s.ref = r → (f s).line = g s.line) :
    (c.mod r f).core = c.core.edit r g := by
  have : (Lib.edit (·.ref) r f c.streams).map (·.line) =
      Lib.edit (·.ref) r g (c.streams.map (·.line)) :=
    map_edit_comm (fun _ => rfl) hf
  simp only [core, mod, Core.edit, this]

theorem core_mod {f : Stream → Stream} {g : Line → Line} (hf : ∀ s, (f s).line = g s.line) :
    (c.mod r f).core = c.core.edit r g := core_mod_of fun s _ _ => hf s

theorem core_mod_same {f : Stream → Stream} (hf : ∀ s, (f s).line = s.line) :
    (c.mod r f).core = c.core := by
  have : (Lib.edit (·.ref) r f c.streams).map (·.line) = c.streams.map (·.line) := map_edit hf
  simp only [core, mod, this]

theorem refs_mod {f : Stream → Stream} (hf : ∀ s, (f s).ref = s.ref) :
    (c.mod r f).refs = c.refs := by
  rw [refs, mod, map_edit hf, refs]

theorem mem_mod {f : Stream → Stream} {q : Ref} (hf : ∀ s, (f s).ref = s.ref) (hq : q ∈ c.refs) :
    q ∈ (c.mod r f).refs := by
  rwa [refs_mod hf]

/-- A reference of the table points at a stream of it. -/
theorem get_mem (hr : r ∈ c.refs) : c.get r ∈ c.streams ∧ (c.get r).ref = r := by
  obtain ⟨s, hs, hsr⟩ := List.mem_map.1 hr
  have hsome : (c.streams.find? fun s => s.ref == r).isSome := by
    rw [List.find?_isSome]
    exact ⟨s, hs, by simpa using hsr⟩
  obtain ⟨t, ht⟩ := Option.isSome_iff_exists.1 hsome
  rw [get, ht]
  exact ⟨List.mem_of_find?_eq_some ht, by simpa using List.find?_some ht⟩

/-- A reference that is not of the table points at a stream as `create` leaves it. -/
theorem get_of_not_mem (hr : r ∉ c.refs) : c.get r = { ref := r } := by
  have : (c.streams.find? fun s => s.ref == r) = none := by
    rw [List.find?_eq_none]
    intro s hs hsr
    exact hr (List.mem_map.2 ⟨s, hs, by simpa using hsr⟩)
  rw [get, this]
  rfl

theorem eq_get (hn : c.refs.Nodup) {s : Stream} (hs : s ∈ c.streams) (hr : s.ref = r) :
    s = c.get r := by
  have hmem : r ∈ c.refs := List.mem_map.2 ⟨s, hs, hr⟩
  exact eq_of_key hn hs (get_mem hmem).1 (hr.trans (get_mem hmem).2.symm)

/-- What the stream a reference points at says of the line under it. -/
theorem on_get (hn : c.refs.Nodup) {P : Line → Prop} (hP : P (c.get r).line) :
    c.core.On r P := by
  intro l hl hr
  obtain ⟨s, hs, rfl⟩ := List.mem_map.1 hl
  rw [eq_get hn hs hr]
  exact hP

/-- And what the line under a reference of the table says of the stream it points at. -/
theorem get_on (hr : r ∈ c.refs) {P : Line → Prop} (hP : c.core.On r P) : P (c.get r).line :=
  hP _ (List.mem_map_of_mem (get_mem hr).1) (get_mem hr).2

theorem get_ref : (c.get r).ref = r := by
  by_cases hr : r ∈ c.refs
  · exact (get_mem hr).2
  · rw [get_of_not_mem hr]

/-- A stream that is not as `create` leaves it is one of the table. -/
theorem mem_of_get {P : Stream → Prop} (hP : P (c.get r)) (hnot : ¬P { ref := r }) :
    r ∈ c.refs := by
  by_contra hr
  rw [get_of_not_mem hr] at hP
  exact hnot hP

theorem get_mod {f : Stream → Stream} (hr : r ∈ c.refs) (hf : ∀ s, (f s).ref = s.ref)
    (hn : c.refs.Nodup) : (c.mod r f).get r = f (c.get r) := by
  have hmem : f (c.get r) ∈ (c.mod r f).streams := by
    refine mem_edit.2 ⟨c.get r, (get_mem hr).1, ?_⟩
    rw [if_pos (get_mem hr).2]
  have hn' : (c.mod r f).refs.Nodup := by rwa [refs_mod hf]
  exact (eq_get hn' hmem ((hf _).trans (get_mem hr).2)).symm

end Conn

/-- A change of one stream that is one move, by what that stream is. -/
theorem update_goes_of {S : Course (Conn D) (Core D)} (hS : S.view = Conn.core) {c : Conn D}
    {r : Ref} {f : Stream → Stream} {g : Line → Line} {Q : Unit → Conn D → Prop}
    (hn : c.refs.Nodup) (hm : S.Move c.core (c.core.edit r g))
    (hf : (f (c.get r)).line = g (c.get r).line) (hq : Q () (c.mod r f)) :
    S.Goes c (update r f) Q := by
  refine .move ?_ hq
  rw [hS, Conn.core_mod_of (g := g)]
  · exact hm
  · intro s hs hr
    rwa [Conn.eq_get hn hs hr]

/-- A change of one stream that is one move. -/
theorem update_goes {S : Course (Conn D) (Core D)} (hS : S.view = Conn.core) {c : Conn D} {r : Ref}
    {f : Stream → Stream} {g : Line → Line} {Q : Unit → Conn D → Prop}
    (hm : S.Move c.core (c.core.edit r g)) (hf : ∀ s, (f s).line = g s.line)
    (hq : Q () (c.mod r f)) : S.Goes c (update r f) Q := by
  refine .move ?_ hq
  rw [hS, Conn.core_mod hf]
  exact hm

/-- A change of one stream that no invariant sees. -/
theorem update_quiet {S : Course (Conn D) (Core D)} (hS : S.view = Conn.core) {c : Conn D} {r : Ref}
    {f : Stream → Stream} {Q : Unit → Conn D → Prop} (hf : ∀ s, (f s).line = s.line)
    (hq : Q () (c.mod r f)) : S.Goes c (update r f) Q := by
  refine .quiet ?_ hq
  rw [hS, Conn.core_mod_same hf]

theorem update_same {S : Course (Conn D) (Core D)} (hS : S.view = Conn.core) {c : Conn D} {r : Ref}
    {f : Stream → Stream} (hf : ∀ s, (f s).line = s.line) :
    S.Goes c (update r f) fun _ c' => c'.core = c.core :=
  update_quiet hS hf (Conn.core_mod_same hf)

theorem Good.refs_nodup {c : Conn D} (hk : Good B nice c.core) : c.refs.Nodup := by
  rw [← Conn.core_refs]
  exact hk.nodup

/-! ## Stopping and writing -/

section Programs

variable {c : Conn D} {r : Ref}

theorem stop_goes {α : Type} {e : Stop} {Q : α → Conn D → Prop} :
    (calm D B nice).Goes c (stop e) Q := by
  refine .bind (Q := fun _ c' => c'.reading = false) (.move Calm.shut rfl) ?_
  exact fun _ _ hstop => .throw hstop

/-- The connection after a frame has gone into its writer. -/
def Wrote (f : Sent) (c c' : Conn D) : Prop :=
  ∃ w, c' = { c with wire := w, trace := .wrote f :: c.trace }

theorem Wrote.core {f : Sent} {c c' : Conn D} (hw : Wrote f c c') :
    c'.core = c.core.log (.wrote f) := by
  obtain ⟨w, rfl⟩ := hw
  rfl

theorem emit_goes {f : Sent} (hf : f.routine = true) (hd : f.dataLen = 0)
    (hlen : f.len ≤ c.peerMaxFrame) : (calm D B nice).Goes c (emit f) fun _ => Wrote f c := by
  refine .get_bind ?_
  split
  · exact stop_goes
  · exact .move (.wrote f hf hd hlen) ⟨_, rfl⟩
  · exact .move (.wrote f hf hd hlen) ⟨c.wire, rfl⟩

/-- A frame small enough for every client. -/
theorem emit_small {f : Sent} (hf : f.routine = true) (hd : f.dataLen = 0)
    (hlen : f.len ≤ defaultMaxFrame) : (calm D B nice).Goes c (emit f) fun _ _ => True := by
  refine .assuming fun hk => ?_
  exact (emit_goes hf hd (le_trans hlen hk.flow.frameLeast)).weaken fun _ _ _ => trivial

/-- A frame goes out, or the connection is shut. -/
theorem emit_run {f : Sent} :
    (∃ c', emit f c = (.ok (), c') ∧ Wrote f c c') ∨
      emit f c = (.error .gone, { c with reading := false }) := by
  rcases hw : c.wire with _ | _ | n
  · refine .inl ⟨c.log (.wrote f), ?_, c.wire, rfl⟩
    cases c
    cases hw
    rfl
  · refine .inr ?_
    cases c
    cases hw
    rfl
  · refine .inl ⟨{ c with wire := some n, trace := .wrote f :: c.trace }, ?_, _, rfl⟩
    cases c
    cases hw
    rfl

/-- A frame and what it changes, as one move. -/
theorem emit_modify_goes {S : Course (Conn D) (Core D)} (hS : S.view = Conn.core)
    (hshut : S.Move c.core { c.core with reading := false })
    (hstop : S.Stopped { c with reading := false })
    {f : Sent} {g : Conn D → Conn D} {Q : Unit → Conn D → Prop}
    (hg : ∀ c', Wrote f c c' → S.Move c.core (g c').core ∧ Q () (g c')) :
    S.Goes c (emit f >>= fun _ => modify g) Q := by
  intro _
  rw [hS]
  rcases emit_run (f := f) (c := c) with ⟨c', heq, hw⟩ | heq
  · rw [Prog.bind_run, heq]
    obtain ⟨hmove, hq⟩ := hg c' hw
    exact ⟨.single hmove, nofun, fun _ _ => hq⟩
  · rw [Prog.bind_run, heq]
    exact ⟨.single hshut, fun _ _ => hstop, nofun⟩

/-- The frames of an answer that carry no DATA. -/
def Small (maxFrame : Nat) (f : Sent) : Prop :=
  f.routine = true ∧ f.dataLen = 0 ∧ f.len ≤ maxFrame

theorem emitAll_goes {fs : List Sent} (hfs : ∀ f ∈ fs, Small c.peerMaxFrame f) :
    (calm D B nice).Goes c (emitAll fs) fun _ _ => True := by
  induction fs generalizing c with
  | nil => exact .pure trivial
  | cons f rest ih =>
    obtain ⟨hf, hd, hlen⟩ := hfs f List.mem_cons_self
    refine .bind (emit_goes hf hd hlen) ?_
    rintro _ _ ⟨w, rfl⟩
    exact ih fun g hg => hfs g (List.mem_cons_of_mem _ hg)

theorem headerBlockFrames_small {stream maxFrame : Nat} {block : Bytes} {e : Bool} :
    ∀ f ∈ headerBlockFrames stream block e maxFrame, Small maxFrame f := by
  intro f hf
  obtain ⟨hd, hlen⟩ := mem_headerBlockFrames hf
  refine ⟨?_, hd, hlen⟩
  rw [headerBlockFrames, List.mem_cons] at hf
  rcases hf with rfl | hf
  · rfl
  · split at hf
    · cases hf
    · obtain ⟨b, e, rfl, -⟩ := mem_continuationFrames hf
      rfl

theorem control_goes : (calm D B nice).Goes c control fun _ c' => c'.core = c.core := by
  refine .bind (Q := fun _ c' => c'.core = c.core) (.quiet rfl rfl) ?_
  intro _ c' hc
  exact .get_bind (.when (fun _ => stop_goes) fun _ => hc)

/-! ## The windows given back -/

theorem Conn.claimants_held : c.claimants.map (·.held) = c.core.lines.map (·.held) := by
  simp only [Conn.claimants, Conn.core, List.map_map]
  rfl

theorem Conn.collected_eq (hk : Good B nice c.core) :
    (c.claimants.map (·.held)).sum = c.collected := by
  rw [Conn.claimants_held]
  exact hk.budget.collected.symm

/-- What `mayGrow` allows is what the budget allows. -/
theorem Conn.grantOk_of_mayGrow (hk : Good B nice c.core) (hr : r ∈ c.refs)
    (hg : c.mayGrow h r = true) : GrantOk (Conn.budget h) (c.get r).id c.claimants := by
  obtain ⟨hmem, href⟩ := Conn.get_mem hr
  rw [Conn.mayGrow] at hg
  split at hg
  · rename_i hcase
    rw [Bool.or_eq_true, decide_eq_true_eq] at hcase
    rcases hcase with hroom | hover
    · left
      rwa [Conn.collected_eq hk]
    · exact .inr (.inl ⟨_, List.mem_map_of_mem hmem, rfl, hover⟩)
  · right
    right
    split at hg
    · cases hg
    · rename_i hnone
      constructor
      · intro x hx
        obtain ⟨s, hs, rfl⟩ := List.mem_map.1 hx
        have := List.any_eq_false.1 (Bool.eq_false_iff.2 hnone) s hs
        rw [Bool.not_eq_true] at this
        exact this
      · cases hfind : c.streams.find? (·.arriving) with
        | none => simp [hfind] at hg
        | some s =>
          rw [hfind] at hg
          have hs := List.mem_of_find?_eq_some hfind
          have hsr : s = c.get r := Conn.eq_get hk.refs_nodup hs (by simpa using hg)
          refine ⟨s.claimant, ?_, congrArg Stream.id hsr⟩
          rw [Conn.claimants, List.find?_map]
          exact congrArg (Option.map Stream.claimant) hfind

/-- A window is topped up when the budget allows. -/
theorem topUp_goes (hr : r ∈ c.refs) (hg : c.mayGrow h r = true) :
    (calm D (Conn.budget h) nice).Goes c (topUp r) fun _ _ => True := by
  refine .assuming fun hk => ?_
  refine .get_bind ?_
  refine .bind (emit_goes rfl rfl (hk.flow.frame_small 4 (by decide))) ?_
  rintro _ _ ⟨w, rfl⟩
  refine .bind (Q := fun _ _ => True) (.move (.granted _ _ ?_) trivial) fun _ _ _ => ?_
  · exact Conn.grantOk_of_mayGrow hk hr hg
  · exact update_goes rfl (Calm.topped r) (fun _ => rfl) trivial

/-! ## The budget -/

theorem Conn.core_hold {n : Nat} :
    (c.hold r n).core =
      { c.core.edit r (fun l => { l with held := l.held + n }) with
        collected := c.collected + n } := by
  have hmod : (c.mod r fun s => { s with held := s.held + n }).core =
      c.core.edit r fun l => { l with held := l.held + n } := Conn.core_mod fun _ => rfl
  exact congrArg (fun k : Core D => { k with collected := c.collected + n }) hmod

theorem hold_path {n : Nat} (hr : r ∈ c.refs) :
    ReflTransGen (Calm B) c.core (c.hold r n).core := by
  rw [Conn.core_hold]
  exact .single (.hold r n (by rwa [Conn.core_refs]))

theorem Conn.core_giveBack {n : Nat} (hle : n ≤ (c.get r).held) :
    (c.giveBack r n).core =
      { c.core.edit r (fun l => { l with held := l.held - n }) with
        collected := c.collected - n, fault := c.fault || decide (c.collected < n) } := by
  have hfault : decide ((c.get r).held < n) = false := by
    rw [decide_eq_false_iff_not]
    omega
  have hmod : (c.mod r fun s => { s with held := s.held - n }).core =
      c.core.edit r fun l => { l with held := l.held - n } := Conn.core_mod fun _ => rfl
  rw [Conn.giveBack, hfault, Bool.or_false]
  exact congrArg (fun k : Core D =>
    { k with
      collected := c.collected - n, fault := c.fault || decide (c.collected < n) }) hmod

theorem giveBack_path {n : Nat} (hn : c.refs.Nodup) (hle : n ≤ (c.get r).held) :
    ReflTransGen (Calm B) c.core (c.giveBack r n).core := by
  rw [Conn.core_giveBack hle]
  by_cases hr : r ∈ c.refs
  · exact .single (.giveBack r n (by rwa [Conn.core_refs]) (Conn.on_get hn hle))
  · -- no stream, so nothing to give back
    rw [Conn.get_of_not_mem hr] at hle
    obtain rfl : n = 0 := Nat.le_zero.1 hle
    have hsame : c.core.edit r (fun l => { l with held := l.held - 0 }) = c.core := by
      rw [Core.edit, edit_eq_self]
      exact fun _ _ _ => rfl
    rw [hsame]
    simp only [Nat.sub_zero, Nat.not_lt_zero, decide_false, Bool.or_false]
    exact .refl

theorem starve_path (hn : c.refs.Nodup) (hr : r ∈ c.refs) (hs : (c.get r).starved = false) :
    ReflTransGen (Calm B) c.core (c.starve r).core := by
  have hcore : (c.starve r).core =
      { c.core.edit r (fun l => { l with starved := true }) with starved := c.starved + 1 } := by
    have hmod : (c.mod r fun s => { s with starved := true }).core =
        c.core.edit r fun l => { l with starved := true } := Conn.core_mod fun _ => rfl
    exact congrArg (fun k : Core D => { k with starved := c.starved + 1 }) hmod
  rw [hcore]
  exact .single (.starve r (by rwa [Conn.core_refs]) (Conn.on_get hn hs))

theorem unstarve_path (hn : c.refs.Nodup) :
    ReflTransGen (Calm B) c.core (c.unstarve r).core := by
  rw [Conn.unstarve]
  split
  · rename_i hs
    have hr : r ∈ c.refs := Conn.mem_of_get (P := fun s => s.starved = true) hs nofun
    have hcore : ({ c.mod r fun s => { s with starved := false } with
        starved := c.starved - 1, fault := c.fault || decide (c.starved < 1) } : Conn D).core =
        { c.core.edit r (fun l => { l with starved := false }) with
          starved := c.starved - 1, fault := c.fault || decide (c.starved < 1) } := by
      have hmod : (c.mod r fun s => { s with starved := false }).core =
          c.core.edit r fun l => { l with starved := false } := Conn.core_mod fun _ => rfl
      exact congrArg (fun k : Core D =>
        { k with starved := c.starved - 1, fault := c.fault || decide (c.starved < 1) }) hmod
    rw [hcore]
    exact .single (.unstarve r (by rwa [Conn.core_refs]) (Conn.on_get hn hs))
  · exact .refl

theorem Conn.refs_giveBack {n : Nat} : (c.giveBack r n).refs = c.refs :=
  Conn.refs_mod (f := fun s => { s with held := s.held - n }) fun _ => rfl

theorem Conn.refs_unstarve : (c.unstarve r).refs = c.refs := by
  rw [Conn.unstarve]
  split
  · exact Conn.refs_mod (f := fun s => { s with starved := false }) fun _ => rfl
  · rfl

theorem Conn.refs_letGo : (c.letGo r).refs = c.refs :=
  Conn.refs_unstarve.trans Conn.refs_giveBack

theorem letGo_path (hn : c.refs.Nodup) : ReflTransGen (Calm B) c.core (c.letGo r).core := by
  refine (giveBack_path hn (le_refl _)).trans (unstarve_path ?_)
  rwa [Conn.refs_giveBack]

theorem Conn.get_giveBack {n : Nat} (hn : c.refs.Nodup) (hr : r ∈ c.refs) :
    (c.giveBack r n).get r = { c.get r with held := (c.get r).held - n } :=
  Conn.get_mod (f := fun s => { s with held := s.held - n }) hr (fun _ => rfl) hn

/-- A call that has been let go of holds nothing and waits for nothing. -/
theorem Conn.letGo_get (hn : c.refs.Nodup) :
    ((c.letGo r).get r).held = 0 ∧ ((c.letGo r).get r).starved = false := by
  have hn' : (c.giveBack r (c.get r).held).refs.Nodup := by rwa [Conn.refs_giveBack]
  by_cases hr : r ∈ c.refs
  · have hget : (c.giveBack r (c.get r).held).get r = { c.get r with held := 0 } := by
      have := Conn.get_mod (f := fun s => { s with held := s.held - (c.get r).held }) hr
        (fun _ => rfl) hn
      rw [Nat.sub_self] at this
      exact this
    rw [Conn.letGo, Conn.unstarve, hget]
    split
    · have hr' : r ∈ (c.giveBack r (c.get r).held).refs := by rwa [Conn.refs_giveBack]
      have := Conn.get_mod (f := fun s => { s with starved := false }) hr' (fun _ => rfl) hn'
      rw [hget] at this
      exact ⟨congrArg Stream.held this, congrArg Stream.starved this⟩
    · rename_i hs
      rw [hget]
      exact ⟨rfl, by simpa using hs⟩
  · have hr' : r ∉ (c.letGo r).refs := by rwa [Conn.refs_letGo]
    rw [Conn.get_of_not_mem hr']
    exact ⟨rfl, rfl⟩

/-! ## Windows that wait -/

theorem unstarve_goes : (calm D B nice).Goes c (modify (·.unstarve r) : M D Unit)
    fun _ _ => True := by
  refine .assuming fun hk => ?_
  exact .change (unstarve_path hk.refs_nodup) trivial

theorem grantWaitingFrom_goes {rs : List Ref} :
    (calm D (Conn.budget h) nice).Goes c (grantWaitingFrom h rs) fun _ _ => True := by
  induction rs generalizing c with
  | nil => exact .pure trivial
  | cons r rest ih =>
    refine .get_bind ?_
    refine .ite (fun _ => ih) fun hs => ?_
    have hr : r ∈ c.refs :=
      Conn.mem_of_get (P := fun s => s.starved = true) (by simpa using hs) nofun
    refine .get_bind (.ite (fun _ => .pure trivial) fun hg => ?_)
    refine .bind (topUp_goes hr (by simpa using hg)) fun _ _ _ => ?_
    exact .bind unstarve_goes fun _ _ _ => ih

theorem grantWaiting_goes :
    (calm D (Conn.budget h) nice).Goes c (grantWaiting h) fun _ _ => True :=
  .get_bind (.ite (fun _ => .pure trivial) fun _ => .get_bind grantWaitingFrom_goes)

/-- Bytes that were being taken become the client's window again. -/
theorem credit_goes {n : Nat} (hr : r ∈ c.refs) (hn : n ≤ (c.get r).taking) :
    (taking D (Conn.budget h) nice).Goes c (credit h r n) fun _ c' =>
      ∀ t, c.core.Takes t → c'.core.Takes fun q => t q - if q = r then n else 0 := by
  refine .assuming fun hk => ?_
  refine .bind (Q := fun _ c' => r ∈ c'.refs ∧
      ∀ t, c.core.Takes t → c'.core.Takes fun q => t q - if q = r then n else 0)
    (update_goes rfl (Taking.credited r n (Conn.on_get hk.refs_nodup hn)) (fun _ => rfl) ⟨?_, ?_⟩) ?_
  · exact Conn.mem_mod (fun _ => rfl) hr
  · intro t ht
    rw [Conn.core_mod (g := fun l => { l with unacked := l.unacked + n, taking := l.taking - n })
      fun _ => rfl]
    refine ht.edit (fun q hq => by rw [if_neg hq, Nat.sub_zero]) (fun _ => rfl) ?_
    intro l _ _ ha
    refine ⟨ha, fun hw => ?_⟩
    rw [if_pos rfl, ← hw]
  intro _ c' ⟨hr', htakes⟩
  -- what follows the credit is accounting, which takes nothing
  suffices hrest : (calm D (Conn.budget h) nice).Goes c' _ fun _ _ => True by
    refine .weaken (Q := fun _ c'' => ∀ t, c'.core.Takes t → c''.core.Takes t) ?_
      fun _ c'' h t ht => h _ (htakes t ht)
    exact hrest.takes.toTaking
  refine .get_bind (.when (fun _ => ?_) fun _ => trivial)
  refine .get_bind (.ite (fun hg => topUp_goes hr' hg) fun _ => ?_)
  refine .get_bind (.when (fun hs => ?_) fun _ => trivial)
  refine .assuming fun hk' => ?_
  exact .change (starve_path hk'.refs_nodup hr' (by simpa using hs)) trivial

theorem repay_goes : (calm D B nice).Goes c repay fun _ _ => True := by
  refine .assuming fun hk => ?_
  refine .get_bind (.when (fun _ => ?_) fun _ => trivial)
  refine .get_bind (.bind (emit_goes rfl rfl (hk.flow.frame_small 4 (by decide))) fun _ _ _ => ?_)
  exact .move Calm.repaid trivial

/-- The connection's window pays for a frame and is given back. What it pays and what it owes
the client move together, so the two changes are one move. -/
theorem payConnection_goes {n : Nat} :
    (calm D B nice).Goes c (payConnection n) fun _ _ => True := by
  by_cases hover : c.recvWindow - n < 0
  · have heq : payConnection n c =
        (do modify (fun c => { c with recvWindow := c.recvWindow - n, reading := false })
            throw Stop.flowControl : M D Unit) c := by
      show (Prog.when (c.recvWindow - n < 0) (stop .flowControl) >>= fun _ => consumed n)
        { c with recvWindow := c.recvWindow - n } = _
      rw [Prog.when, if_pos hover]
      rfl
    refine .as heq (.bind (Q := fun _ c' => c'.reading = false) (.move (Calm.overpaid n) rfl) ?_)
    exact fun _ _ hstop => .throw hstop
  · have heq : payConnection n c =
        (do modify (fun c =>
              { c with recvWindow := c.recvWindow - n, unacked := c.unacked + n })
            repay : M D Unit) c := by
      show (Prog.when (c.recvWindow - n < 0) (stop .flowControl) >>= fun _ => consumed n)
        { c with recvWindow := c.recvWindow - n } = _
      rw [Prog.when, if_neg hover]
      rfl
    refine .as heq (.bind (Q := fun _ _ => True) (.move (Calm.paid n ?_) trivial) ?_)
    · exact Int.not_lt.1 fun hlt => hover (Int.sub_neg_of_lt hlt)
    · exact fun _ _ _ => repay_goes

/-! ## Room -/

/-- The call under a reference waits for room no more. -/
theorem Calm.unwanted {k : Core D} (r : Ref) :
    Calm B k (k.edit r fun l => { l with wanted := 0 }) := by
  have : k.edit r (fun l => { l with wanted := 0 }) =
      { k with
        lines := k.lines.map fun l => if decide (l.ref = r) then { l with wanted := 0 } else l } := by
    simp only [Core.edit, Lib.edit, decide_eq_true_eq]
  rw [this]
  exact .settled fun l => decide (l.ref = r)

theorem Inbox.grant_wanted {x : Inbox} (hw : x.wanted ≠ 0) :
    (x.grant x.wanted).1 = true ∧ (x.grant x.wanted).2 = { x with granted := true } := by
  have hnot : (x.granted || x.failure.isSome) = false := by
    by_contra hg
    rw [Bool.not_eq_false] at hg
    exact hw (by rw [Inbox.wanted, if_pos hg])
  have heq : x.wanted = x.want := by rw [Inbox.wanted, hnot]; rfl
  obtain ⟨hg, hf⟩ := Bool.or_eq_false_iff.1 hnot
  rw [Inbox.grant, heq, hg, hf, bne_self_eq_false]
  exact ⟨rfl, rfl⟩

/-- The oldest call waiting for room is the oldest the budget sees. -/
theorem Conn.find_waits {s : Stream}
    (hs : (c.streams.find? fun s => s.phase == .running && s.inbox.wanted != 0) = some s) :
    c.claimants.find? (·.waits) = some s.claimant := by
  rw [Conn.claimants, List.find?_map]
  exact congrArg (Option.map Stream.claimant) hs

theorem Conn.admitOk {s : Stream} (hk : Good B nice c.core)
    (hs : (c.streams.find? fun s => s.phase == .running && s.inbox.wanted != 0) = some s)
    (hroom : ¬(decide (c.budgetLeft h s.ref < s.inbox.wanted) && c.startedHolds) = true) :
    AdmitOk (Conn.budget h) s.id s.inbox.wanted c.claimants := by
  have hmem := List.mem_of_find?_eq_some hs
  have hget : s = c.get s.ref := Conn.eq_get hk.refs_nodup hmem rfl
  refine ⟨s.claimant, Conn.find_waits hs, rfl, rfl, ?_⟩
  rw [Conn.collected_eq hk]
  by_cases hle : c.budgetLeft h s.ref < s.inbox.wanted
  · right
    intro y hy hholds hnone
    obtain ⟨t, ht, rfl⟩ := List.mem_map.1 hy
    refine hroom ?_
    rw [decide_eq_true hle, Bool.true_and, Conn.startedHolds, List.any_eq_true]
    refine ⟨t, ht, ?_⟩
    rw [Bool.and_eq_true]
    exact ⟨hholds, beq_iff_eq.2 hnone⟩
  · left
    rw [Conn.budgetLeft, ← hget] at hle
    exact Nat.le_of_not_lt hle

theorem admitReservationsFrom_goes {fuel started : Nat} :
    (calm D (Conn.budget h) nice).Goes c (admitReservationsFrom h fuel started)
      fun _ _ => True := by
  induction fuel generalizing c started with
  | zero => exact .pure trivial
  | succ fuel ih =>
    refine .assuming fun hk => ?_
    refine .get_bind ?_
    split
    · rename_i hnone
      refine .bind (Q := fun _ _ => True) (.move (Calm.unreserve ?_) trivial) fun _ _ _ =>
        .pure trivial
      intro l hl hrun
      obtain ⟨s, hs, rfl⟩ := List.mem_map.1 hl
      have hnot := List.find?_eq_none.1 hnone s hs
      have hrun : s.phase = .running := hrun
      show s.inbox.wanted = 0
      simpa [hrun] using hnot
    · rename_i s hs
      have hmem := List.mem_of_find?_eq_some hs
      have hwait : s.phase = .running ∧ s.inbox.wanted ≠ 0 := by
        simpa using List.find?_some hs
      obtain ⟨hok, hgrant⟩ := Inbox.grant_wanted hwait.2
      refine .ite (fun _ => .pure trivial) fun hroom => ?_
      refine .ite (fun _ => ?_) fun hno => absurd hok hno
      refine .bind (Q := fun _ c' => c'.streams = c.streams)
        (.move (Calm.admitted _ _ _ (Conn.admitOk hk hs hroom)) rfl) ?_
      intro _ c' hst
      refine .assuming fun hk' => ?_
      have hmem' : s ∈ c'.streams := hst ▸ hmem
      have hget : c'.get s.ref = s := (Conn.eq_get hk'.refs_nodup hmem' rfl).symm
      refine .bind (Q := fun _ c' => s.ref ∈ c'.refs)
        (update_goes_of rfl hk'.refs_nodup (Calm.unwanted s.ref) ?_ ?_) fun _ c' hr => ?_
      · rw [hget, hgrant]
        simp [Stream.line, Inbox.wanted]
      · exact Conn.mem_mod (fun _ => rfl) (List.mem_map_of_mem hmem')
      exact .bind (Q := fun _ _ => True) (.change (hold_path hr) trivial) fun _ _ _ => ih

theorem admitReservations_goes :
    (calm D (Conn.budget h) nice).Goes c (admitReservations h) fun _ _ => True :=
  .get_bind admitReservationsFrom_goes

theorem admitReserving_goes :
    (calm D (Conn.budget h) nice).Goes c (admitReserving h) fun _ _ => True :=
  .get_bind (.ite (fun _ => admitReservations_goes) fun _ => .pure trivial)

theorem admitAll_goes :
    (calm D (Conn.budget h) nice).Goes c (admitAll h) fun _ _ => True :=
  .bind admitReserving_goes fun _ _ _ => .bind grantWaiting_goes fun _ _ _ => .pure trivial

theorem admitCalls_goes : (calm D (Conn.budget h) nice).Goes c (admitCalls h) fun _ _ => True :=
  .bind admitAll_goes fun _ _ _ => .pure trivial

/-! ## What the calls have said -/

theorem Core.Takes.told {k : Core D} (hk : k.Idle) (n : Nat) (hn : k.On r (n = ·.owed)) :
    (k.edit r fun l =>
      { l with taking := l.taking + l.owed, owed := 0, gathering := l.collecting }).Takes
      fun q => if q = r then n else 0 := by
  refine Core.Takes.edit hk (fun q hq => if_neg hq) (fun _ => rfl) ?_
  intro l hl hlr ha
  refine ⟨ha, fun hz => ?_⟩
  show l.taking + l.owed = if r = r then n else 0
  rw [hz, if_pos rfl, hn l hl hlr, Nat.zero_add]

/-- A stream that is not active has nothing on the way to its call. -/
theorem Core.Takes.closed {k : Core D} {n : Nat} (hk : k.Takes fun q => if q = r then n else 0)
    (hr : k.On r fun l => ¬l.active) : k.Idle := by
  intro l hl ha
  have hlr : l.ref ≠ r := fun h => hr l hl h ha
  exact (hk l hl ha).trans (if_neg hlr)

/-- What the service of one call has seen to so far: the table is as it was, `n` of what the
call owes is on the way, and what it wants is remembered. -/
structure Servicing (s : Stream) (c : Conn D) (n : Nat) (c' : Conn D) : Prop where
  mem : s.ref ∈ c'.refs
  framed : Framed c c'
  takes : c.core.Idle → c'.core.Takes fun q => if q = s.ref then n else 0
  heard : c'.core.Heard (0 < s.inbox.wanted) s.ref

theorem Servicing.along {s : Stream} {c c₁ c₂ : Conn D} {n : Nat} (hs : Servicing s c n c₁)
    (hp : ReflTransGen (Calm B) c₁.core c₂.core) : Servicing s c n c₂ := by
  have hframed : Framed c₁ c₂ :=
    taking_path_framed (ReflTransGen.mono (fun _ _ m => Taking.calm m) _ _ hp)
  refine ⟨?_, hs.framed.trans hframed, fun hidle => ?_, ?_⟩
  · rw [← Conn.core_refs, hframed.refs, Conn.core_refs]
    exact hs.mem
  · exact Course.preserved (P := fun k => k.Takes fun q => if q = s.ref then n else 0) hp
      (fun m h => m.takes h) (hs.takes hidle)
  · exact Course.preserved (P := fun k => k.Heard (0 < s.inbox.wanted) s.ref) hp
      (fun m h => m.heard h) hs.heard

/-- What one call has said is heard: what it owes is credited, and what it wants is noted. -/
theorem serviceOne_goes :
    (taking D (Conn.budget h) nice).Goes c (serviceOne h r) fun _ c' =>
      (c.core.Idle → c'.core.Idle) ∧ c'.core.Heard False r := by
  refine .assuming fun hk => ?_
  have hn := hk.refs_nodup
  refine .get_bind (.ite ?_ fun hrun => ?_)
  · intro hnot
    refine .pure ⟨fun hidle => hidle, Conn.on_get hn fun hrun => ?_⟩
    have hrun : (c.get r).phase = .running := hrun
    simp [hrun] at hnot
  have hrun : (c.get r).phase = .running := by simpa using hrun
  have hr : r ∈ c.refs := Conn.mem_of_get (P := fun s => s.phase = .running) hrun nofun
  obtain ⟨s, hs⟩ : ∃ s, c.get r = s := ⟨_, rfl⟩
  obtain rfl : s.ref = r := by rw [← hs, Conn.get_ref]
  rw [hs] at hrun ⊢
  -- the pipe is read: what it owes is on the way
  refine .bind (Q := fun _ c' => Servicing s c s.inbox.owed c' ∧
    s.inbox.owed ≤ (c'.get s.ref).taking) ?_ ?_
  · have hcore : (c.mod s.ref (·.told s.inbox.take.1)).core = c.core.edit s.ref fun l =>
        { l with taking := l.taking + l.owed, owed := 0, gathering := l.collecting } := by
      refine Conn.core_mod_of ?_
      intro t ht htr
      rw [Conn.eq_get hn ht htr, hs]
      rfl
    have hmove : Taking (Conn.budget h) c.core (c.mod s.ref (·.told s.inbox.take.1)).core := by
      rw [hcore]
      exact .told s.ref
    refine .move hmove ⟨⟨?_, taking_path_framed (.single hmove), ?_, ?_⟩, ?_⟩
    · exact Conn.mem_mod (fun _ => rfl) hr
    · intro hidle
      rw [hcore]
      exact hidle.told s.inbox.owed (Conn.on_get hn (by rw [hs]; rfl))
    · refine hmove.heard (Conn.on_get hn fun _ hwant => .inr (.inr ?_))
      rw [hs] at hwant
      exact Nat.pos_of_ne_zero hwant
    · rw [Conn.get_mod (f := fun t => t.told s.inbox.take.1) hr (fun _ => rfl) hn, hs]
      exact Nat.le_add_left _ _
  rintro _ c₁ ⟨hserv, htake⟩
  -- the memory it has read goes back to the budget
  refine .bind (Q := fun _ c' => Servicing s c s.inbox.owed c' ∧
    s.inbox.owed ≤ (c'.get s.ref).taking) ?_ ?_
  · refine .when (fun _ => ?_) fun _ => ⟨hserv, htake⟩
    refine .assuming fun hk₁ => ?_
    have hpath := giveBack_path (B := Conn.budget h) hk₁.refs_nodup
      (Nat.min_le_right s.inbox.take.1.freed (c₁.get s.ref).held)
    refine Course.Goes.toTaking (.change hpath ⟨hserv.along hpath, ?_⟩)
    rw [Conn.get_giveBack hk₁.refs_nodup hserv.mem]
    exact htake
  rintro _ c₂ ⟨hserv, htake⟩
  -- a stream that is still open has its window credited
  refine .bind (Q := fun _ c' => Servicing s c 0 c') ?_ ?_
  · refine .when (fun hopen => ?_) fun hclosed => ?_
    · refine ((credit_goes hserv.mem htake).framed.keeping
        (P := fun k => k.Heard (0 < s.inbox.wanted) s.ref) (fun m _ => m.heard) hserv.heard).weaken ?_
      rintro _ c₃ ⟨⟨htakes, hframed⟩, hheard⟩
      refine ⟨?_, hserv.framed.trans hframed, fun hidle => ?_, hheard⟩
      · rw [← Conn.core_refs, hframed.refs, Conn.core_refs]
        exact hserv.mem
      · refine (htakes _ (hserv.takes hidle)).of_eq fun q => ?_
        show (if q = s.ref then s.inbox.owed else 0) - (if q = s.ref then s.inbox.owed else 0) = _
        rw [Nat.sub_self, ite_self]
    · refine ⟨hserv.mem, hserv.framed, fun hidle => ?_, hserv.heard⟩
      have hzero : c₂.core.Idle := by
        rw [Bool.and_eq_true, decide_eq_true_eq, not_and_or] at hclosed
        rcases hclosed with hnone | hclosed
        · have hz : s.inbox.owed = 0 := Nat.eq_zero_of_not_pos hnone
          refine (hserv.takes hidle).of_eq fun q => ?_
          show (if q = s.ref then s.inbox.owed else 0) = 0
          rw [hz, ite_self]
        · refine (hserv.takes hidle).closed (hserv.framed.on (P := fun t => ¬t.active) ?_)
          refine Conn.on_get hn ?_
          rw [hs]
          rintro (hp | ⟨-, ho⟩)
          · have hp : s.phase = .headers := hp
            rw [hrun] at hp
            cases hp
          · exact hclosed ho
      exact hzero.of_eq fun q => (ite_self _).symm
  intro _ c₃ hserv
  -- and the client that waits for it is told to go on
  refine .bind (Q := fun _ c' => Servicing s c 0 c') ?_ ?_
  · refine .when (fun _ => ?_) fun _ => hserv
    refine .get_bind (Course.Goes.toTaking ?_)
    exact (emitAll_goes headerBlockFrames_small).traced.weaken fun _ _ hp => hserv.along hp.2
  intro _ c₄ hserv
  have hidle : c.core.Idle → c₄.core.Idle :=
    fun hidle => (hserv.takes hidle).of_eq fun q => ite_self _
  refine .when (fun _ => ?_) fun hnone => ?_
  · exact Course.Goes.toTaking (.move Calm.reserve ⟨hidle, fun _ _ _ _ _ => .inr (.inl rfl)⟩)
  · refine ⟨hidle, fun l hl hlr hrun hwant => ?_⟩
    rcases hserv.heard l hl hlr hrun hwant with ha | hres | hw
    · exact .inl ha
    · exact .inr (.inl hres)
    · exact absurd hw hnone

theorem serviceFrom_goes {rs : List Ref} :
    (taking D (Conn.budget h) nice).Goes c (serviceFrom h rs) fun _ c' =>
      (c.core.Idle → c'.core.Idle) ∧ ∀ r ∈ rs, c'.core.Heard False r := by
  induction rs generalizing c with
  | nil => exact .pure ⟨fun h => h, nofun⟩
  | cons r rest ih =>
    refine .bind serviceOne_goes fun _ c₁ h₁ => ?_
    refine (ih.keeping (P := fun k => k.Heard False r) (fun m _ => m.heard) h₁.2).weaken ?_
    rintro _ c₂ ⟨⟨hidle, hrest⟩, hr⟩
    refine ⟨fun hi => hidle (h₁.1 hi), ?_⟩
    intro q hq
    rcases List.mem_cons.1 hq with rfl | hq
    · exact hr
    · exact hrest q hq

/-- Everything the calls have said is heard. -/
theorem service_goes (cd : Codec D) :
    (hearing D (Conn.budget h) nice).Goes c (service h) fun _ c' =>
      Framed c c' ∧ (Rest cd c.core → Rest cd c'.core) := by
  refine .get_bind (.when (fun _ => ?_) fun _ => ⟨.refl c, fun h => h⟩)
  refine .bind (Q := fun _ c₁ => c₁.core = { c.core with attention := false })
    (.move .listened rfl) fun _ c₁ hc₁ => ?_
  have hf₁ : Framed c c₁ := by
    constructor
    · rw [hc₁]
    · rw [hc₁]
      rfl
  refine .get_bind (Course.Goes.toHearing ?_)
  refine serviceFrom_goes.framed.traced.weaken ?_
  rintro _ c₂ ⟨⟨⟨hidle, hheard⟩, hf₂⟩, hpath⟩
  refine ⟨hf₁.trans hf₂, fun hrest => ?_⟩
  have hpath : ReflTransGen (Taking (Conn.budget h)) c₁.core c₂.core := hpath
  have htrace : c₁.core.trace = c.core.trace := by rw [hc₁]
  have hsteady : Steady cd c₁.core.continuing none [] c₂.core := by
    refine Course.preserved (P := Steady cd c₁.core.continuing none []) hpath
      (fun m h => m.steady h) ?_
    rw [hc₁]
    obtain ⟨hhalf, hcapped, hfed, htable⟩ := hrest.toSteady
    exact ⟨hhalf, hcapped, hfed, htable⟩
  have hagreed : Agreed c₂.core.trace := by
    refine Course.preserved (P := fun k => Agreed k.trace) hpath (fun m h => h.keep m.trace) ?_
    rw [htrace]
    exact hrest.agreed
  have hplaced : Placed c₂.core := by
    refine Course.preserved (P := Placed) hpath (fun m h => m.placed h) ?_
    rw [hc₁]
    exact ⟨hrest.placed.here, hrest.placed.ignored⟩
  have htelling : c₂.core.Telling := by
    refine Course.preserved (P := Core.Telling) hpath (fun m h => m.telling h) ?_
    rw [hc₁]
    exact hrest.telling
  have hidle₁ : c₁.core.Idle := by
    rw [hc₁]
    exact hrest.idle
  have hcont : c₂.core.continuing = c₁.core.continuing := by rw [hf₂.bearing]
  refine ⟨⟨?_, hidle hidle₁, ?_⟩, hagreed, hplaced, htelling⟩
  · rw [hcont]
    exact hsteady
  intro r
  by_cases hr : r ∈ c₁.refs
  · exact hheard r hr
  · intro l hl hlr
    refine absurd ?_ hr
    rw [← Conn.core_refs, ← hf₂.refs, ← hlr]
    exact List.mem_map_of_mem hl

/-! ## Leaving -/

/-- Every stream but one is as it was, and in the queues it was in. -/
structure Beside (r : Ref) (c c' : Conn D) : Prop where
  queues : c'.core.queues = c.core.queues
  continuing : c'.continuing = c.continuing
  standings : ∀ s, s.ref ≠ r → (s ∈ c'.core.standings ↔ s ∈ c.core.standings)

theorem Beside.trans {c₁ c₂ c₃ : Conn D} (h₁ : Beside r c₁ c₂) (h₂ : Beside r c₂ c₃) :
    Beside r c₁ c₃ where
  queues := h₂.queues.trans h₁.queues
  continuing := h₂.continuing.trans h₁.continuing
  standings s hs := (h₂.standings s hs).trans (h₁.standings s hs)

theorem Framed.beside {c c' : Conn D} (hf : Framed c c') : Beside r c c' where
  queues := congrArg Bearing.queues hf.bearing
  continuing := congrArg Bearing.continuing hf.bearing
  standings s _ := by rw [hf.standings]

theorem Beside.mem {c c' : Conn D} (hb : Beside r c c') {q : Ref} (hq : q ≠ r)
    (hmem : q ∈ c.refs) : q ∈ c'.refs := by
  rw [← Conn.core_refs, ← Core.standings_refs] at hmem ⊢
  obtain ⟨s, hs, rfl⟩ := List.mem_map.1 hmem
  exact List.mem_map_of_mem ((hb.standings s hq).2 hs)

theorem Beside.on {c c' : Conn D} (hb : Beside r c c') {q : Ref} (hq : q ≠ r) {P : Standing → Prop}
    (hP : c.core.On q fun l => P l.toStanding) : c'.core.On q fun l => P l.toStanding := by
  intro l hl hlq
  refine Core.On.standing hP l.toStanding ((hb.standings _ ?_).1 (List.mem_map_of_mem hl)) hlq
  rw [hlq]
  exact hq

/-- A stream that may leave the table: in no queue, and not being continued. -/
structure Conn.MayLeave (c : Conn D) (r : Ref) : Prop where
  mem : r ∈ c.refs
  loose : c.core.Loose r
  whole : c.core.On r fun l => l.phase = .headers → c.continuing ≠ some r

theorem Conn.MayLeave.framed {c c' : Conn D} (hm : c.MayLeave r) (hf : Framed c c') :
    c'.MayLeave r where
  mem := by
    rw [← Conn.core_refs, hf.refs, Conn.core_refs]
    exact hm.mem
  loose := by
    rw [Core.Loose, hf.bearing]
    exact hm.loose
  whole := by
    have : c'.continuing = c.continuing := congrArg Bearing.continuing hf.bearing
    rw [this]
    exact hf.on (P := fun s => s.phase = .headers → c.continuing ≠ some r) hm.whole

theorem Conn.core_remove {why : Cause} :
    (c.remove r why).core =
      { c.core.log (.left (c.get r).id why) with
        lines := c.core.lines.filter fun l => l.ref != r } := by
  have : (c.streams.filter fun s => s.ref != r).map (·.line) =
      (c.streams.map (·.line)).filter fun l => l.ref != r := by
    rw [List.filter_map]
    rfl
  simp only [Conn.remove, Conn.core, Core.log, this]

theorem Conn.core_destroy {s : Stream} : (c.destroy s).core = c.core := by
  rw [Conn.destroy]
  split <;> rfl

theorem Conn.trace_letGo : (c.letGo r).trace = c.trace := by
  rw [Conn.letGo, Conn.unstarve]
  split <;> rfl

theorem Conn.core_discard {why : Cause} :
    (c.discard r why).core =
      { (c.letGo r).core.log (.left ((c.letGo r).get r).id why) with
        lines := (c.letGo r).core.lines.filter fun l => l.ref != r } := by
  rw [Conn.discard, Conn.core_destroy, Conn.core_remove]

theorem letGo_framed (hn : c.refs.Nodup) : Framed c (c.letGo r) := by
  have hcalm : ReflTransGen (Calm 0) c.core (c.letGo r).core := letGo_path hn
  exact taking_path_framed (ReflTransGen.mono (fun _ _ m => Taking.calm m) _ _ hcalm)

/-- A stream that may leave is let go of. -/
theorem discard_path {why : Cause} (hn : c.refs.Nodup) (hm : c.MayLeave r)
    (hwhy : why = .refusedGoaway → nice → c.core.Beyond (c.get r).id) :
    ReflTransGen (Ending B nice) c.core (c.discard r why).core := by
  have hlet : Framed c (c.letGo r) := letGo_framed hn
  have hm' := hm.framed hlet
  have hn' : (c.letGo r).refs.Nodup := by rwa [Conn.refs_letGo]
  have hid : ((c.letGo r).get r).id = (c.get r).id :=
    Conn.get_on hm'.mem (hlet.on (P := fun s => s.id = (c.get r).id) (Conn.on_get hn rfl))
  have hcalm : ReflTransGen (Calm B) c.core (c.letGo r).core := letGo_path hn
  refine (ReflTransGen.mono (fun _ _ m => m.ending) _ _ hcalm).tail ?_
  have hleave : Plain B nice (c.letGo r).core _ := .leave r ((c.letGo r).get r).id
    why (by rw [Conn.core_refs]; exact hm'.mem) hm'.loose ?_ ?_
  · rw [Conn.core_discard]
    exact ⟨hleave, rfl, rfl⟩
  · refine Conn.on_get hn' ⟨rfl, (Conn.letGo_get hn).1, (Conn.letGo_get hn).2, ?_⟩
    exact Conn.get_on hm'.mem hm'.whole
  · intro hw hnice last hlast
    rw [hid]
    refine hwhy hw hnice last ?_
    have : (c.letGo r).core.trace = c.core.trace := Conn.trace_letGo
    rwa [this] at hlast

/-- It has left, and the others are as they were. -/
theorem discard_beside {why : Cause} (hn : c.refs.Nodup) :
    Beside r c (c.discard r why) ∧ r ∉ (c.discard r why).refs := by
  have hlet : Framed c (c.letGo r) := letGo_framed hn
  have hcore : (c.discard r why).core = _ := Conn.core_discard
  constructor
  · refine hlet.beside.trans ⟨?_, ?_, ?_⟩
    · rw [hcore]
      rfl
    · exact congrArg (·.continuing) hcore
    · intro s hs
      rw [hcore, Core.standings, Core.standings_leave, List.mem_filter]
      simp [hs]
  · rw [← Conn.core_refs, hcore]
    intro hr
    obtain ⟨l, hl, hlr⟩ := List.mem_map.1 hr
    have := (List.mem_filter.1 hl).2
    simp [hlr] at this

theorem Conn.trace_forget {why : Cause} :
    ∃ id, (c.forget r why).trace = .left id why :: c.trace := by
  have hdis : (c.discard r why).trace = .left ((c.letGo r).get r).id why :: c.trace := by
    have hcore : (c.discard r why).core = _ := Conn.core_discard
    have := congrArg (·.trace) hcore
    exact this.trans (by rw [← Conn.trace_letGo (c := c) (r := r)]; rfl)
  refine ⟨((c.letGo r).get r).id, ?_⟩
  rw [← hdis]
  show (if _ then c.discard r why else
    { c.discard r why with spare := r :: (c.discard r why).spare }).trace = _
  split <;> rfl

/-- What is left behind where a stream has left. -/
structure Left (r : Ref) (c c' : Conn D) : Prop where
  beside : Beside r c c'
  gone : r ∉ c'.refs

theorem discard_goes {why : Cause} (hm : c.MayLeave r)
    (hwhy : why = .refusedGoaway → nice → c.core.Beyond (c.get r).id) :
    (ending D B nice).Goes c (modify (·.discard r why) : M D Unit) fun _ c' => Left r c c' := by
  refine .assuming fun hk => ?_
  obtain ⟨hb, hgone⟩ : Beside r c (c.discard r why) ∧ _ := discard_beside hk.refs_nodup
  exact .change (discard_path hk.refs_nodup hm hwhy) ⟨hb, hgone⟩

theorem forget_goes {why : Cause} (hm : c.MayLeave r)
    (hwhy : why = .refusedGoaway → nice → c.core.Beyond (c.get r).id) :
    (ending D B nice).Goes c (modify (·.forget r why) : M D Unit) fun _ c' => Left r c c' := by
  refine .assuming fun hk => ?_
  obtain ⟨hb, hgone⟩ : Beside r c (c.discard r why) ∧ _ := discard_beside hk.refs_nodup
  have hpath : ReflTransGen (Ending B nice) c.core (c.discard r why).core :=
    discard_path hk.refs_nodup hm hwhy
  by_cases hfull : (decide (maxStreams ≤ (c.discard r why).spare.length) ||
      (c.discard r why).goawaySent) = true
  · have hf : c.forget r why = c.discard r why := if_pos hfull
    refine .change ?_ ?_
    · show ReflTransGen (Ending B nice) c.core (c.forget r why).core
      rwa [hf]
    · rw [hf]
      exact ⟨hb, hgone⟩
  · have hf : c.forget r why =
        { c.discard r why with spare := r :: (c.discard r why).spare } := if_neg hfull
    have hspare : (c.discard r why).core.toBearing = c.core.toBearing := by
      rw [Conn.core_discard]
      exact (letGo_framed hk.refs_nodup).bearing
    have hmem : r ∈ c.core.standings.map (·.ref) := by
      rw [Core.standings_refs, Conn.core_refs]
      exact hm.mem
    obtain ⟨s, hs, hsr⟩ := List.mem_map.1 hmem
    have hrecycle : Plain B nice (c.discard r why).core (c.forget r why).core := by
      rw [hf]
      refine .recycle r (by rwa [Conn.core_refs]) ?_ ?_
      · rw [hspare, ← hsr]
        exact hk.table.apart s hs
      · rw [hspare, ← hsr]
        exact hk.table.below s hs
    refine .change (hpath.tail ⟨hrecycle, ?_, ?_⟩) ?_
    · rw [hf]
      rfl
    · rw [hf]
      rfl
    · rw [hf]
      exact ⟨⟨hb.queues, hb.continuing, hb.standings⟩, hgone⟩

end Programs

end Nilo.Http2
