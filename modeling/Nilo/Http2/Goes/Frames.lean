import Nilo.Http2.Goes.Reading

/-!
# Where the connection's operations go: windows, settings, DATA

The handlers that change more than a stream's life, and `readFrame` over all of
them (`readFrame_goes`): from a connection between two frames to one that is
again, or to one that reads no more.

* `onWindowUpdate` opens a window, which may be past its cap until its stream is
  reset.
* `onSettings` is in between two agreements until it is acknowledged (`Applying`).
* `onData` has bytes on their way until they are the call's or the client's again
  (`Core.Takes`).
-/

namespace Nilo.Http2

open Nilo.Lib
open Relation (ReflTransGen)

variable {D : Type} {h : Host} {nice home : Prop} {B : Nat} {c : Conn D} {r : Ref} {cd : Codec D}

/-! ## Windows the client opens -/

/-- The windows have room for the increment of a frame that has been read. -/
structure Widens (k : Core D) (f : Frame) : Prop where
  conn : f.stream = 0 → k.sendWindow + incrementOf f + writtenAll k.trace ≤
    defaultWindow + increments 0 k.trace
  lines : ∀ l ∈ k.lines, l.id = f.stream →
    l.sendWindow + incrementOf f + written l.id k.trace ≤ k.peerWindow + increments l.id k.trace

theorem FlowOk.widens {k : Core D} {f : Frame} (hk : FlowOk k) (hr : k.reading = true)
    (ht : f.type = .windowUpdate) (hlen : f.len = 4) : Widens (k.log (.read f)) f := by
  have hinc (id : StreamId) (hid : f.stream = id) :
      increments id (.read f :: k.trace) = incrementOf f + increments id k.trace := by
    rw [increments_cons, Event.increment, if_pos ⟨ht, hid, hlen⟩]
  refine ⟨fun hz => ?_, fun l hl hid => ?_⟩
  · have hconn := hk.conn
    show k.sendWindow + incrementOf f + writtenAll (.read f :: k.trace) ≤
      defaultWindow + increments 0 (.read f :: k.trace)
    rw [hinc 0 hz, writtenAll_cons, show (Event.read f).dataLen = 0 from rfl]
    push_cast
    omega
  · have hline := hk.lines hr l hl
    show l.sendWindow + incrementOf f + written l.id (.read f :: k.trace) ≤
      k.peerWindow + increments l.id (.read f :: k.trace)
    rw [hinc l.id hid.symm, written_cons, show (Event.read f).dataOn l.id = 0 from rfl]
    push_cast
    omega

/-- A stream whose window went past 2^31-1 is reset. -/
theorem overflown_reader {m : M D Unit} (hm : Mid cd none (some r) [] c.core) (ha : Agreed c.trace)
    (hc : Clear c.core) (hgo : (plain D B nice).Goes c m fun _ c' => c'.core.On r (·.reset = true)) :
    (reader D B nice home).Goes c m fun _ c' => Idles cd c'.core := by
  have hkeep := hgo.keeping
    (P := fun k => Mid cd none (some r) [] k ∧ Agreed k.trace ∧ Clear k)
    (fun move hg h => ⟨move.mid hg h.1, h.2.1.keep move.trace, move.clear h.2.2⟩) ⟨hm, ha, hc⟩
  refine (hkeep.toReader hc.continuing).weaken ?_
  rintro _ c' ⟨⟨hreset, hmid, hagreed, hclear⟩, -⟩
  have hnone : Mid cd none none [] c'.core :=
    { hmid with capped := hmid.capped.done hreset }
  exact hnone.idles hagreed hclear

theorem spendCredit_goes :
    (calm D B nice).Goes c spendCredit fun _ c' => c'.core = c.core := by
  refine .get_bind (.ite (fun _ => .pure rfl) fun _ => ?_)
  exact .bind (Q := fun _ c' => c'.core = c.core) (.quiet rfl rfl) fun _ _ hc => .pure hc

/-- The connection's window grows, or is past what §6.9.1 allows. -/
theorem growConnection_goes {n : Nat} (hk : Idles cd c.core)
    (hw : c.sendWindow + n + writtenAll c.trace ≤ defaultWindow + increments 0 c.trace) :
    (reader D B nice home).Goes c
      (do modify fun c => { c with sendWindow := c.sendWindow + n }
          if (maxWindow : Int) < (← get).sendWindow then stop .flowControl : M D Unit)
      fun _ c' => Idles cd c'.core := by
  have hh : home → _ := home_of_continuing hk.clear.continuing
  by_cases hover : (maxWindow : Int) < c.sendWindow + n
  · refine .as (n := do
        modify (fun c => { c with sendWindow := c.sendWindow + n, reading := false })
        throw Stop.flowControl) ?_ ?_
    · show (if (maxWindow : Int) < c.sendWindow + n then stop .flowControl else pure () : M D Unit)
        { c with sendWindow := c.sendWindow + n } = _
      rw [if_pos hover]
      rfl
    · refine .bind (Q := fun _ c' => (reader D B nice home).Stopped c')
        (front_reader (.connOverflow n hw) ⟨rfl, hh⟩) fun _ _ hstop => .throw hstop
  · refine .bind (Q := fun _ c' => c' = { c with sendWindow := c.sendWindow + n })
      (front_reader (.connGrew n hw (Int.not_lt.1 hover)) rfl) ?_
    rintro _ _ rfl
    refine .get_bind (.ite (fun hlt => absurd hlt hover) fun _ => .pure ?_)
    have hm := hk.rest.toMid
    rw [show c.core.continuing = none from hk.clear.continuing] at hm
    have hclear := hk.clear
    refine Mid.idles ?_ hk.rest.agreed ⟨hclear.continuing, hclear.ignoring, hclear.block⟩
    exact ⟨⟨hm.half, hm.capped, hm.owing.fed, hm.owing.table⟩, hm.idle, hm.heard⟩

/-- A stream's window grows, or is past what §6.9.1 allows and the stream is reset. -/
theorem growStream_goes {n : Nat} {id : StreamId} (hr : r ∈ c.refs) (hk : Idles cd c.core)
    (hw : c.core.On r fun l => l.sendWindow + n + written l.id c.core.trace ≤
      c.core.peerWindow + increments l.id c.core.trace) :
    (reader D B nice home).Goes c
      (do update r fun s => { s with sendWindow := s.sendWindow + n }
          if (maxWindow : Int) < (← stream r).sendWindow then
            emit (.rstStream id .flowControlError)
            onReset r : M D Unit)
      fun _ c' => Idles cd c'.core := by
  refine .assuming fun hg => ?_
  have hg : Good B nice c.core := hg
  have hcore : (c.mod r fun s => { s with sendWindow := s.sendWindow + n }).core =
      c.core.edit r fun l => { l with sendWindow := l.sendWindow + n } := Conn.core_mod fun _ => rfl
  refine .bind (Q := fun _ c₁ =>
    c₁.core = c.core.edit r fun l => { l with sendWindow := l.sendWindow + n }) ?_ fun _ c₁ hc₁ => ?_
  · refine .move ?_ hcore
    show Reads B nice home c.core (c.mod r fun s => { s with sendWindow := s.sendWindow + n }).core
    rw [hcore]
    exact Front.reads (.grew r n hw) rfl
  have hr₁ : r ∈ c₁.refs := by
    rw [← Conn.core_refs, hc₁]
    exact Core.mem_edit_refs (fun _ => rfl) (by rwa [Conn.core_refs])
  have hclear : Clear c₁.core := by
    rw [hc₁]
    exact ⟨hk.clear.continuing, hk.clear.ignoring, hk.clear.block⟩
  have hagreed : Agreed c₁.core.trace := by
    rw [hc₁]
    exact hk.rest.agreed
  -- the stream's own window is the only one that may be past the cap
  have hmid : Mid cd none (some r) [] c₁.core := by
    have hm := hk.rest.toMid
    rw [show c.core.continuing = none from hk.clear.continuing] at hm
    rw [hc₁]
    refine ⟨⟨?_, ?_, hm.owing.fed, hm.owing.table⟩, ?_, ?_⟩
    · have hs : (c.core.edit r fun l => { l with sendWindow := l.sendWindow + n }).standings =
          c.core.standings := map_edit fun _ => rfl
      rw [Core.Half, hs]
      exact hm.half
    · intro l' hl' hne
      obtain ⟨l, hl, rfl⟩ := mem_edit.1 hl'
      by_cases hlr : l.ref = r
      · rw [if_pos hlr] at hne
        exact absurd (congrArg some hlr.symm) hne
      · rw [if_neg hlr]
        exact hm.capped l hl (by rintro ⟨⟩)
    · exact hm.idle.edit_same (fun _ => rfl) (fun _ => rfl) fun _ _ _ ha => ha
    · exact fun q => forall_mem_edit (hm.heard q) fun _ _ _ hl => hl
  refine .assuming fun hg₁ => ?_
  have hg₁ : Good B nice c₁.core := hg₁
  refine .get_bind (.ite (fun _ => ?_) fun hcap => .pure ?_)
  · refine overflown_reader hmid hagreed hclear ?_
    refine .calmThenPlain (emit_small rfl rfl (Nat.le_of_ble_eq_true rfl)) fun _ c₂ hf₂ => ?_
    refine (onReset_goes ?_).endingToPlain.weaken fun _ _ h => h.1
    exact (Conn.settled_of_none hr₁ hclear.continuing).framed hf₂
  · have hnone : Mid cd none none [] c₁.core := by
      refine { hmid with capped := ?_ }
      intro l hl _ hreset
      by_cases hlr : l.ref = r
      · have hle : (c₁.get r).line.sendWindow ≤ maxWindow := Int.not_lt.1 hcap
        exact Conn.on_get (P := fun l => l.sendWindow ≤ maxWindow) hg₁.refs_nodup hle l hl hlr
      · exact hmid.capped l hl (fun heq => hlr (Option.some.inj heq).symm) hreset
    exact hnone.idles hagreed hclear

theorem onWindowUpdate_goes {f : Frame} (hk : Idles cd c.core)
    (hw : f.len = 4 → Widens c.core f) :
    (reader D B nice home).Goes c (onWindowUpdate f) fun _ c' => Ended cd home c'.core := by
  have hh : home → _ := home_of_continuing hk.clear.continuing
  refine guard_reader hh fun hlen => ?_
  have hw := hw (Decidable.not_not.1 hlen)
  refine .get_bind (.bind (Q := fun _ c₁ => c₁.core = c.core) ?_ fun _ c₁ hc₁ => ?_)
  · refine .when (fun _ => ?_) fun _ => rfl
    refine .bind ((spendCredit_goes.toTaking.takingToReader hh).weaken fun _ _ h => h.1)
      fun _ c₂ hc₂ => ?_
    refine .when (fun _ => ?_) fun _ => hc₂
    rw [← hc₂] at hh ⊢
    exact control_reader hh
  rw [← hc₁] at hk hw hh
  refine Course.Goes.weaken (Q := fun _ c' => Idles cd c'.core) ?_ fun _ _ hi => hi.ended
  refine .ite (fun hz => ?_) fun _ => ?_
  · exact guard_reader hh fun _ => growConnection_goes hk (hw.conn hz)
  refine .get_bind (guard_reader hh fun _ => .get_bind ?_)
  split
  · exact .pure hk
  rename_i r hfind
  obtain ⟨hr, hid⟩ := Conn.find_some hfind
  refine .assuming fun hg => ?_
  have hg : Good B nice c₁.core := hg
  have hid := hid hg.refs_nodup
  refine .get_bind (.ite (fun _ => .pure hk) fun _ => .ite (fun _ => ?_) fun _ => ?_)
  · refine (plain_reader (Q := fun _ _ => True) hk ?_).weaken fun _ _ h => h.2
    refine .calmThenPlain (emit_small rfl rfl (Nat.le_of_ble_eq_true rfl)) fun _ c₂ hf₂ => ?_
    refine (onReset_goes ?_).endingToPlain.weaken fun _ _ _ => trivial
    exact (Conn.settled_of_none hr hk.clear.continuing).framed hf₂
  · refine growStream_goes hr hk fun l hl hlr => ?_
    have hlid : l.id = f.stream :=
      Conn.on_get (P := fun l => l.id = f.stream) hg.refs_nodup hid l hl hlr
    exact hw.lines l hl hlid

/-! ## Settings -/

/-- The windows of some streams move. -/
def Conn.shift (c : Conn D) (delta : Int) (rs : List Ref) : Conn D :=
  { c with
    streams := c.streams.map fun s =>
      if s.ref ∈ rs then { s with sendWindow := s.sendWindow + delta } else s }

theorem Conn.shift_nil {delta : Int} : c.shift delta [] = c := by
  simp [Conn.shift]

theorem Conn.shift_mod {delta : Int} {rs : List Ref} (hr : r ∉ rs) :
    (c.mod r fun s => { s with sendWindow := s.sendWindow + delta }).shift delta rs =
      c.shift delta (r :: rs) := by
  simp only [Conn.shift, Conn.mod, Lib.edit, List.map_map]
  congr 1
  refine List.map_congr_left fun s _ => ?_
  simp only [Function.comp_apply, List.mem_cons]
  by_cases hs : s.ref = r
  · rw [if_pos hs, if_neg (by rwa [hs]), if_pos (.inl hs)]
  · rw [if_neg hs]
    by_cases hmem : s.ref ∈ rs
    · rw [if_pos hmem, if_pos (.inr hmem)]
    · rw [if_neg hmem, if_neg (not_or.2 ⟨hs, hmem⟩)]

/-- All the windows move, and none is past 2^31-1; or some do, and the connection is shut. -/
theorem moveWindows_run (delta : Int) {rs : List Ref} (hn : c.refs.Nodup) (hrs : rs.Nodup)
    (hsub : ∀ r ∈ rs, r ∈ c.refs) :
    (moveWindows delta rs c = (.ok (), c.shift delta rs) ∧
      ∀ s ∈ c.streams, s.ref ∈ rs → s.sendWindow + delta ≤ maxWindow) ∨
    ∃ moved : List Ref, (∀ r ∈ moved, r ∈ rs) ∧
      moveWindows delta rs c = (.error .flowControl, { c.shift delta moved with reading := false }) := by
  induction rs generalizing c with
  | nil =>
    left
    rw [Conn.shift_nil]
    exact ⟨rfl, fun _ _ hmem => absurd hmem List.not_mem_nil⟩
  | cons r rest ih =>
    obtain ⟨hr, hrest⟩ := List.nodup_cons.1 hrs
    have hmem : r ∈ c.refs := hsub r List.mem_cons_self
    have hget : (c.mod r fun s => { s with sendWindow := s.sendWindow + delta }).get r =
        { c.get r with sendWindow := (c.get r).sendWindow + delta } :=
      Conn.get_mod (f := fun s => { s with sendWindow := s.sendWindow + delta }) hmem
        (fun _ => rfl) hn
    have hrun : moveWindows delta (r :: rest) c =
        (when ((maxWindow : Int) < (c.get r).sendWindow + delta) (stop .flowControl) >>= fun _ =>
          moveWindows delta rest) (c.mod r fun s => { s with sendWindow := s.sendWindow + delta }) := by
      show (when ((maxWindow : Int) < ((c.mod r fun s =>
        { s with sendWindow := s.sendWindow + delta }).get r).sendWindow) (stop .flowControl) >>=
          fun _ => moveWindows delta rest) _ = _
      rw [hget]
    rw [hrun]
    by_cases hover : (maxWindow : Int) < (c.get r).sendWindow + delta
    · right
      refine ⟨[r], ?_, ?_⟩
      · intro q hq
        rw [List.mem_singleton.1 hq]
        exact List.mem_cons_self
      · rw [when, if_pos hover, ← Conn.shift_mod List.not_mem_nil, Conn.shift_nil]
        rfl
    · have hrefs : (c.mod r fun s => { s with sendWindow := s.sendWindow + delta }).refs = c.refs :=
        Conn.refs_mod fun _ => rfl
      rw [when, if_neg hover]
      rcases ih (c := c.mod r fun s => { s with sendWindow := s.sendWindow + delta })
        (by rwa [hrefs]) hrest (fun q hq => by rw [hrefs]; exact hsub q (List.mem_cons_of_mem _ hq))
        with ⟨heq, hcap⟩ | ⟨moved, hmoved, heq⟩
      · left
        refine ⟨?_, fun s hs hsr => ?_⟩
        · rw [← Conn.shift_mod hr]
          exact heq
        · rcases List.mem_cons.1 hsr with heq | hin
          · rw [Conn.eq_get hn hs heq]
            exact Int.not_lt.1 hover
          · refine hcap s (mem_edit.2 ⟨s, hs, ?_⟩) hin
            rw [if_neg]
            rintro rfl
            exact hr hin
      · right
        refine ⟨r :: moved, ?_, ?_⟩
        · intro q hq
          rcases List.mem_cons.1 hq with rfl | hq
          · exact List.mem_cons_self
          · exact List.mem_cons_of_mem _ (hmoved q hq)
        · rw [← Conn.shift_mod fun hmem => hr (hmoved r hmem)]
          exact heq

/-- The values given for a setting, in order. -/
def valuesOf (which : Setting) (pairs : List (Setting × Nat)) : List Nat :=
  pairs.filterMap fun p => if p.1 = which then some p.2 else none

theorem valuesOf_concat {which id : Setting} {pairs : List (Setting × Nat)} {value init : Nat} :
    (valuesOf which (pairs ++ [(id, value)])).getLastD init =
      if id = which then value else (valuesOf which pairs).getLastD init := by
  rw [valuesOf, List.filterMap_append, valuesOf]
  by_cases hid : id = which
  · simp [hid]
  · simp [hid]

/-- A SETTINGS frame has been applied in part, up to the pairs `done`. -/
structure Applying (cd : Codec D) (t : Trace) (done : List (Setting × Nat)) (k : Core D) : Prop where
  trace : k.trace = t
  reading : k.reading = true
  window : k.peerWindow =
    ((valuesOf .initialWindowSize done).getLastD (windowTerms t).now : Nat)
  frame : k.peerMaxFrame = (valuesOf .maxFrameSize done).getLastD (frameTerms t).now
  mid : Mid cd none none [] k
  clear : Clear k

/-- A setting the windows do not see. -/
theorem Applying.pass {t : Trace} {done : List (Setting × Nat)} {k : Core D} {id : Setting}
    {value : Nat} (hk : Applying cd t done k) (hw : id ≠ .initialWindowSize)
    (hf : id ≠ .maxFrameSize) : Applying cd t (done ++ [(id, value)]) k :=
  { hk with
    window := by
      rw [valuesOf_concat, if_neg hw]
      exact hk.window
    frame := by
      rw [valuesOf_concat, if_neg hf]
      exact hk.frame }

/-- The streams as they are once their windows have moved. -/
theorem Conn.core_shift (delta : Int) (rs : List Ref) :
    (c.shift delta rs).core =
      { c.core with
        lines := c.core.lines.map fun l =>
          { l with sendWindow := if l.ref ∈ rs then l.sendWindow + delta else l.sendWindow } } := by
  simp only [Conn.core, Conn.shift, List.map_map]
  congr 1
  refine List.map_congr_left fun s _ => ?_
  show (if s.ref ∈ rs then { s with sendWindow := s.sendWindow + delta } else s).line =
    { s.line with sendWindow := if s.ref ∈ rs then s.sendWindow + delta else s.sendWindow }
  by_cases hs : s.ref ∈ rs
  · rw [if_pos hs, if_pos hs]
    rfl
  · rw [if_neg hs, if_neg hs]
    rfl

/-- The client's initial window: every stream's window moves with it. -/
theorem applyWindow_goes {t : Trace} {done : List (Setting × Nat)} {value : Nat}
    (hk : Applying cd t done c.core) (hv : value ∈ (windowTerms t).offered)
    (hcap : value ≤ maxWindow) :
    (reader D B nice home).Goes c
      (do let c ← get
          set { c with peerWindow := value }
          moveWindows (value - c.peerWindow) c.refs : M D Unit)
      fun _ c' => Applying cd t (done ++ [(.initialWindowSize, value)]) c'.core := by
  intro hg
  have hg : Good B nice c.core := hg
  have hv : value ∈ (windowTerms c.core.trace).offered := by rwa [hk.trace]
  have hh : home → _ := home_of_continuing hk.clear.continuing
  have hrun : (do let c ← get
                  set { c with peerWindow := (value : Int) }
                  moveWindows (value - c.peerWindow) c.refs : M D Unit) c =
      moveWindows (value - c.peerWindow) c.refs { c with peerWindow := value } := rfl
  rw [hrun]
  rcases moveWindows_run (c := { c with peerWindow := value }) (value - c.peerWindow)
    hg.refs_nodup hg.refs_nodup fun _ hq => hq with ⟨heq, hwin⟩ | ⟨moved, -, heq⟩
  · rw [heq]
    have hcore : (Conn.shift { c with peerWindow := (value : Int) } (value - c.peerWindow)
        c.refs).core = { c.core with
          peerWindow := value
          lines := c.core.lines.map fun l =>
            { l with sendWindow := l.sendWindow + (value - c.core.peerWindow) } } := by
      have hlines : (c.core.lines.map fun l : Line =>
          { l with sendWindow :=
              if l.ref ∈ c.refs then l.sendWindow + (value - c.peerWindow) else l.sendWindow }) =
          c.core.lines.map fun l =>
            { l with sendWindow := l.sendWindow + (value - c.core.peerWindow) } := by
        refine List.map_congr_left fun l hl => ?_
        have hmem : l.ref ∈ c.refs := by
          rw [← Conn.core_refs]
          exact List.mem_map_of_mem hl
        rw [if_pos hmem]
        rfl
      rw [Conn.core_shift]
      exact congrArg (fun ls => ({ c.core with peerWindow := value, lines := ls } : Core D)) hlines
    refine ⟨.single ?_, (by rintro _ ⟨⟩), fun _ _ => ?_⟩
    · show Reads B nice home c.core (Conn.shift _ _ _).core
      rw [hcore]
      exact Front.reads (.shifted value hk.reading hv hcap) rfl
    · show Applying cd t _ (Conn.shift _ _ _).core
      have hm := hk.mid
      rw [hcore]
      refine ⟨hk.trace, hk.reading, ?_, ?_, ⟨⟨?_, ?_, hm.owing.fed, hm.owing.table⟩, ?_, ?_⟩,
        ⟨hk.clear.continuing, hk.clear.ignoring, hk.clear.block⟩⟩
      · rw [valuesOf_concat, if_pos rfl]
      · rw [valuesOf_concat, if_neg (by rintro ⟨⟩)]
        exact hk.frame
      · intro s' hs'
        rw [Core.standings, List.map_map] at hs'
        exact hm.half s' hs'
      · intro l' hl' _ _
        obtain ⟨l, hl, rfl⟩ := List.mem_map.1 hl'
        obtain ⟨s, hs, rfl⟩ := List.mem_map.1 hl
        exact hwin s hs (List.mem_map_of_mem hs)
      · intro l' hl' ha
        obtain ⟨l, hl, rfl⟩ := List.mem_map.1 hl'
        exact hm.idle l hl ha
      · intro q l' hl' hlr
        obtain ⟨l, hl, rfl⟩ := List.mem_map.1 hl'
        exact hm.heard q l hl hlr
  · rw [heq]
    refine ⟨.single ?_, fun _ _ => ⟨rfl, fun _ => Core.home_of_none hk.clear.continuing⟩,
      (by rintro _ ⟨⟩)⟩
    have hcore := Conn.core_shift (c := { c with peerWindow := (value : Int) })
      (value - c.peerWindow) moved
    have hshut : ({ Conn.shift { c with peerWindow := (value : Int) } (value - c.peerWindow) moved with
        reading := false } : Conn D).core = { c.core with
          peerWindow := value
          lines := c.core.lines.map fun l => { l with
            sendWindow := if l.ref ∈ moved then l.sendWindow + (value - c.peerWindow)
              else l.sendWindow }
          reading := false } :=
      congrArg (fun k : Core D => { k with reading := false }) hcore
    show Reads B nice home c.core (Conn.core _)
    rw [hshut]
    refine Front.reads (.shiftRefused value _ hk.reading hv hcap fun l _ => ?_) rfl
    show (if l.ref ∈ moved then l.sendWindow + (value - c.peerWindow) else l.sendWindow) ≤
      max l.sendWindow (l.sendWindow + (value - c.peerWindow))
    split
    · exact le_max_right _ _
    · exact le_max_left _ _

theorem applySetting_goes {t : Trace} {done : List (Setting × Nat)} {id : Setting} {value : Nat}
    (hk : Applying cd t done c.core)
    (hw : id = .initialWindowSize → value ∈ (windowTerms t).offered)
    (hf : id = .maxFrameSize → value ∈ (frameTerms t).offered) :
    (reader D B nice home).Goes c (applySetting id value)
      fun _ c' => Applying cd t (done ++ [(id, value)]) c'.core := by
  have hh : home → _ := home_of_continuing hk.clear.continuing
  cases id with
  | initialWindowSize =>
    exact guard_reader hh fun hcap => applyWindow_goes hk (hw rfl) (Nat.le_of_not_lt hcap)
  | maxFrameSize =>
    refine guard_reader hh fun hbound => ?_
    have hleast : defaultMaxFrame ≤ value := Nat.le_of_not_lt fun hlt => hbound (.inl hlt)
    refine front_reader (.framed value ?_ hleast) ?_
    · rw [hk.trace]
      exact hf rfl
    · have hm := hk.mid
      refine ⟨hk.trace, hk.reading, ?_, ?_, ⟨⟨hm.half, hm.capped, hm.owing.fed, hm.owing.table⟩,
        hm.idle, hm.heard⟩, ⟨hk.clear.continuing, hk.clear.ignoring, hk.clear.block⟩⟩
      · rw [valuesOf_concat, if_neg nofun]
        exact hk.window
      · rw [valuesOf_concat, if_pos rfl]
        rfl
  | enablePush =>
    exact .ite (fun _ => stop_reader hh) fun _ => .pure (hk.pass nofun nofun)
  | _ => exact .pure (hk.pass nofun nofun)

/-- The pairs that are left, one after the other. -/
theorem applySettings_goes {t : Trace} {done : List (Setting × Nat)} (rest : List (Setting × Nat))
    (hk : Applying cd t done c.core)
    (hw : ∀ v, (Setting.initialWindowSize, v) ∈ rest → v ∈ (windowTerms t).offered)
    (hf : ∀ v, (Setting.maxFrameSize, v) ∈ rest → v ∈ (frameTerms t).offered) :
    (reader D B nice home).Goes c (applySettings rest)
      fun _ c' => Applying cd t (done ++ rest) c'.core := by
  induction rest generalizing c done with
  | nil =>
    refine .pure ?_
    rwa [List.append_nil]
  | cons p rest ih =>
    obtain ⟨id, value⟩ := p
    refine .bind (applySetting_goes hk ?_ ?_) fun _ c₁ hk₁ => ?_
    · rintro rfl
      exact hw value List.mem_cons_self
    · rintro rfl
      exact hf value List.mem_cons_self
    · refine (ih hk₁ (fun v hv => hw v (List.mem_cons_of_mem _ hv))
        fun v hv => hf v (List.mem_cons_of_mem _ hv)).weaken fun _ _ hk₂ => ?_
      rwa [List.append_assoc, List.singleton_append] at hk₂

/-- A frame that gives settings offers the values of its pairs. -/
theorem offers_eq (which : Setting) {f : Frame} (ht : f.type = .settings) (hs : f.stream = 0)
    (ha : f.has Flags.ack = false) (hlen : f.len % 6 = 0) :
    offers which f = valuesOf which (settingPairs (f.len / 6) f.payload) := by
  rw [offers, if_pos ⟨ht, hs, ha, hlen⟩]
  rfl

theorem mem_valuesOf {which : Setting} {v : Nat} {pairs : List (Setting × Nat)}
    (h : (which, v) ∈ pairs) : v ∈ valuesOf which pairs :=
  List.mem_filterMap.2 ⟨(which, v), h, if_pos rfl⟩

theorem onSettings_goes {f : Frame} {k : Core D} (hk : Idles cd k) (hflow : FlowOk k)
    (hread : k.reading = true) (ht : f.type = .settings) (hc : c.core = k.log (.read f)) :
    (reader D B nice home).Goes c (onSettings cd f) fun _ c' => Ended cd home c'.core := by
  have hplain : f.plain := by
    rw [Frame.plain, ht]
    exact ⟨(by rintro ⟨⟩), (by rintro ⟨⟩)⟩
  have hnone : c.continuing = none := (congrArg (·.continuing) hc).trans hk.clear.continuing
  have hh : home → _ := home_of_continuing hnone
  have hm := hk.rest.toMid
  rw [hk.clear.continuing] at hm
  have hclear := hk.clear.read_plain hplain
  obtain ⟨hwin, hfra⟩ := hk.rest.agreed
  refine Course.Goes.weaken (Q := fun _ c' => Idles cd c'.core) ?_ fun _ _ hi => hi.ended
  refine guard_reader hh fun hs => .ite (fun hack => ?_) fun hack => ?_
  · -- the client has taken this side's settings
    refine guard_reader hh fun _ => ?_
    refine .change (.head (b := c.core.log .allowed) (Front.reads .allowed rfl)
      (.single (Front.reads (.decoded (cd.allow c.decoder 0)) rfl))) ?_
    have hd : c.decoder = k.decoder := congrArg (·.decoder) hc
    have hcore : ({ c.log .allowed with decoder := cd.allow c.decoder 0 } : Conn D).core =
        { (k.log (.read f)).log .allowed with decoder := cd.allow k.decoder 0 } := by
      rw [← hc, ← hd]
      rfl
    rw [hcore]
    refine Mid.idles ⟨⟨hm.half, hm.capped, ?_, ?_⟩, hm.idle, hm.heard⟩ ?_
      ⟨hclear.continuing, hclear.ignoring, hclear.block⟩
    · show fedBlocks k.trace ++ [] = ((assembly k.trace).take f).blocks
      rw [Assembly.take_plain hplain]
      exact hm.owing.fed
    · show (heardDecoder cd k.trace).bind (fun d => cd.hear (assembly k.trace) d f) = _
      have htable : heardDecoder cd k.trace = some k.decoder := hm.owing.table
      rw [htable, Option.bind_some, Codec.hear, if_pos ht, if_pos hack]
      rfl
    · refine Agreed.aside rfl (hk.rest.agreed.read fun which => ?_)
      rw [offers, if_neg]
      rintro ⟨-, -, hno, -⟩
      rw [hack] at hno
      cases hno
  · have hack : f.has Flags.ack = false := by simpa using hack
    have hs : f.stream = 0 := Decidable.not_not.1 hs
    refine guard_reader hh fun hlen => ?_
    have hlen : f.len % 6 = 0 := Decidable.not_not.1 hlen
    have hoffers (which : Setting) := offers_eq which ht hs hack hlen
    refine .bind (control_reader hh) fun _ c₁ hc₁ => ?_
    rw [hc] at hc₁
    have hwt : windowTerms (.read f :: k.trace) = ⟨(windowTerms k.trace).now,
        valuesOf .initialWindowSize (settingPairs (f.len / 6) f.payload)⟩ := by
      show Terms.mk (windowTerms k.trace).now
        ((windowTerms k.trace).offered ++ offers .initialWindowSize f) = _
      rw [hwin, hoffers, List.nil_append]
    have hft : frameTerms (.read f :: k.trace) = ⟨(frameTerms k.trace).now,
        valuesOf .maxFrameSize (settingPairs (f.len / 6) f.payload)⟩ := by
      show Terms.mk (frameTerms k.trace).now
        ((frameTerms k.trace).offered ++ offers .maxFrameSize f) = _
      rw [hfra, hoffers, List.nil_append]
    have howe := hm.owing.read_plain hplain (.inr hack)
    have happly : Applying cd (.read f :: k.trace) [] c₁.core := by
      rw [hc₁]
      refine ⟨rfl, hread, ?_, ?_, hm.log howe, hclear⟩
      · rw [hwt]
        exact hflow.windowNow hread hwin
      · rw [hft]
        exact hflow.frameNow hread hfra
    refine .bind (applySettings_goes (settingPairs (f.len / 6) f.payload) happly ?_ ?_)
      fun _ c₂ hk₂ => ?_
    · intro v hv
      rw [hwt]
      exact mem_valuesOf hv
    · intro v hv
      rw [hft]
      exact mem_valuesOf hv
    rw [List.nil_append] at hk₂
    intro _
    rcases emit_run (f := .settingsAck) (c := c₂) with ⟨c₃, heq, hw⟩ | heq
    · rw [heq]
      refine ⟨.single ?_, (by rintro _ ⟨⟩), fun _ _ => ?_⟩
      · show Reads B nice home c₂.core c₃.core
        rw [hw.core]
        refine Front.reads (.acknowledged hk₂.reading ?_ ?_) rfl
        · rw [hk₂.trace, hk₂.window, hwt]
        · rw [hk₂.trace, hk₂.frame, hft]
      · show Idles cd c₃.core
        have hm₂ := hk₂.mid
        have hclear₂ := hk₂.clear
        rw [hw.core]
        refine Mid.idles ⟨⟨hm₂.half, hm₂.capped, hm₂.owing.fed, hm₂.owing.table⟩, hm₂.idle,
          hm₂.heard⟩ ⟨rfl, rfl⟩ ⟨hclear₂.continuing, hclear₂.ignoring, hclear₂.block⟩
    · rw [heq]
      refine ⟨.single (Front.reads (.plain (.calm .shut)) rfl), fun _ _ => ⟨rfl, fun _ => ?_⟩,
        (by rintro _ ⟨⟩)⟩
      exact Core.home_of_none hk₂.clear.continuing

/-! ## DATA -/

/-- What holds while the bytes of a DATA frame are on their way. -/
structure Aside (cd : Codec D) (k : Core D) : Prop where
  steady : Steady cd none none [] k
  heard : ∀ q, k.Heard False q
  agreed : Agreed k.trace
  clear : Clear k

theorem Idles.aside {k : Core D} (hk : Idles cd k) : Aside cd k where
  steady := by
    have hm := hk.rest.toSteady
    rwa [hk.clear.continuing] at hm
  heard := hk.rest.heard
  agreed := hk.rest.agreed
  clear := hk.clear

theorem Aside.idles {k : Core D} (hk : Aside cd k) (hi : k.Idle) : Idles cd k :=
  Mid.idles { hk.steady with idle := hi, heard := hk.heard } hk.agreed hk.clear

theorem Taking.aside {k k' : Core D} (hm : Taking B k k') (hk : Aside cd k) : Aside cd k' where
  steady := hm.steady hk.steady
  heard q := hm.heard (hk.heard q)
  agreed := hk.agreed.keep hm.trace
  clear := hm.clear hk.clear

theorem Plain.aside {k k' : Core D} (hm : Plain B nice k k') (hg : Good B nice k)
    (hk : Aside cd k) : Aside cd k' where
  steady := hm.steady hk.steady
  heard q := hm.heard hg (hk.heard q)
  agreed := hk.agreed.keep hm.trace
  clear := hm.clear hk.clear

/-- Bytes move where no block is open. -/
theorem taking_reader {α : Type} {m : M D α} {Q : α → Conn D → Prop} (hk : Aside cd c.core)
    (hm : (taking D B nice).Goes c m Q) :
    (reader D B nice home).Goes c m fun a c' => Q a c' ∧ Framed c c' ∧ Aside cd c'.core := by
  have hkeep := hm.keeping (P := fun k => Aside cd k) (fun move _ h => move.aside h) hk
  refine (hkeep.takingToReader (home_of_continuing hk.clear.continuing)).weaken ?_
  exact fun _ _ h => ⟨h.1.1, h.2.1, h.1.2⟩

/-- A stream that takes no more bytes has none on the way, whatever was. -/
theorem settling_reader {m : M D Unit} {n : Nat} (hk : Aside cd c.core)
    (ht : c.core.Takes fun q => if q = r then n else 0)
    (hm : (plain D B nice).Goes c m fun _ c' => c'.core.On r fun l => ¬l.active) :
    (reader D B nice home).Goes c m fun _ c' => Idles cd c'.core := by
  have hkeep := hm.keeping
    (P := fun k => Aside cd k ∧ k.Takes fun q => if q = r then n else 0)
    (fun move hg h => ⟨move.aside hg h.1, move.takes h.2⟩) ⟨hk, ht⟩
  refine (hkeep.toReader hk.clear.continuing).weaken ?_
  rintro _ c' ⟨⟨hshut, haside, htakes⟩, -⟩
  exact haside.idles (htakes.closed hshut)

/-- What the calls do while the bytes of a frame are read is accounting. -/
theorem callOps_path {ps : List (Ref × CallOp)} (hk : Good B nice c.core)
    (hp : ∀ p ∈ ps, c.core.On p.1 (·.phase ≠ .headers)) :
    ReflTransGen (Calm B) c.core (ps.foldl (fun c p => c.callStep p.1 p.2) c).core := by
  induction ps generalizing c with
  | nil => exact .refl
  | cons p rest ih =>
    have hstep := callStep_path p.2 hk (hp p List.mem_cons_self)
    refine hstep.trans (ih (calm_path_good hstep hk) fun q hq => ?_)
    exact calm_path_begun hstep (hp q (List.mem_cons_of_mem _ hq))

theorem meanwhile_goes : (calm D B nice).Goes c meanwhile fun _ _ => True := by
  refine .assuming fun hk => .change (callOps_path hk fun p hp => ?_) trivial
  have hin : p.1 ∈ c.inHand := by simpa using (List.mem_filter.1 hp).2
  have hq : p.1 ∈ c.core.queues := List.mem_append_left _ (List.mem_append_right _ hin)
  intro l hl hlr hp
  cases ((hk.queued hq).2 l hl hlr).symm.trans hp

/-- A pipe that collects goes on collecting. -/
theorem Calm.collects {k k' : Core D} (hm : Calm B k k') (hk : k.On r (·.collecting = true)) :
    k'.On r (·.collecting = true) := by
  cases hm with
  | settled p =>
    intro l' hl'
    obtain ⟨l, hl, rfl⟩ := List.mem_map.1 hl'
    split <;> exact hk l hl
  | whole => exact forall_mem_edit hk fun _ _ _ _ _ => rfl
  | data | hold | giveBack | starve | unstarve | topped | gathered | pulled | wants | stained
  | markReset => exact forall_mem_edit hk fun _ _ _ hl => hl
  | _ => exact hk

theorem Inbox.begin_keep {x : Inbox} {n : Nat} :
    (x.begin n).keep ≤ n ∧ (x.collecting = false → (x.begin n).keep = n) := by
  simp only [Inbox.begin]
  split
  · rename_i hc
    exact ⟨Nat.min_le_left _ _, fun hno => absurd (hc.symm.trans hno) nofun⟩
  · exact ⟨le_refl _, fun _ => rfl⟩

theorem Inbox.stays_le {x : Inbox} {n : Nat} :
    x.stays n ≤ n ∧ (x.collecting = false → x.stays n = n) := by
  rw [Inbox.stays]
  split
  · rename_i hc
    exact ⟨Nat.min_le_left _ _, fun hno => absurd (hc.symm.trans hno) nofun⟩
  · exact ⟨le_refl _, fun _ => rfl⟩

/-- A stream of the table whose call is running and whose client has more to send. -/
structure Conn.Receives (c : Conn D) (r : Ref) : Prop extends c.Runs r where
  isOpen : c.core.On r (·.isOpen = true)

theorem Conn.Receives.framed {c c' : Conn D} (hr : c.Receives r) (hf : Framed c c') :
    c'.Receives r where
  toRuns := hr.toRuns.framed hf
  isOpen := hf.on (P := fun s => s.isOpen = true) hr.isOpen

/-- The bytes on the way to a call that receives are those its stream counts. -/
theorem Conn.Receives.taking {t : Ref → Nat} (hr : c.Receives r) (ht : c.core.Takes t) :
    (c.get r).taking = t r := by
  have hmem : (c.get r).line ∈ c.core.lines := List.mem_map_of_mem (Conn.get_mem hr.mem).1
  have hactive : (c.get r).line.active :=
    .inr ⟨Conn.get_on hr.mem hr.running, Conn.get_on hr.mem hr.isOpen⟩
  have := ht _ hmem hactive
  rwa [show (c.get r).line.ref = r from Conn.get_ref] at this

/-- The bytes a stream has on the way, with those of the others done with. -/
def Core.TakesOn (k : Core D) (r : Ref) (n : Nat) : Prop := k.Takes fun q => if q = r then n else 0

/-- Bytes are being put in the pipe of a call, which collected when room was made for them if
`p` holds. -/
structure Filling (r : Ref) (n : Nat) (p : Prop) (c : Conn D) : Prop where
  receives : c.Receives r
  takes : c.core.TakesOn r n
  collects : p → c.core.On r (·.collecting = true)

theorem Filling.along {n : Nat} {p : Prop} {c c' : Conn D} (hf : Filling r n p c)
    (path : ReflTransGen (Calm B) c.core c'.core) : Filling r n p c' where
  receives := hf.receives.framed
    (taking_path_framed (ReflTransGen.mono (fun _ _ m => Taking.calm m) _ _ path))
  takes := Course.preserved (P := fun k => k.TakesOn r n) path (fun m h => m.takes h) hf.takes
  collects hp := Course.preserved (P := fun k => k.On r (·.collecting = true)) path
    (fun m h => m.collects h) (hf.collects hp)

/-- Accounting on the way. -/
theorem Filling.goes {n : Nat} {p : Prop} {m : M D Unit} {Q : Unit → Conn D → Prop}
    (hf : Filling r n p c) (hm : (calm D B nice).Goes c m Q) :
    (taking D B nice).Goes c m fun a c' => Q a c' ∧ Filling r n p c' :=
  (hm.traced.weaken fun _ _ h => ⟨h.1, hf.along h.2⟩).toTaking

/-- The stream after `commit`. -/
def Stream.committed (s : Stream) (kept : Bytes) (dropped : Nat) (done : Inbox.Committed) : Stream :=
  { s with
    inbox := (s.inbox.commit kept dropped).2
    taking := if done.collecting then s.taking else s.taking - done.kept }

/-- What the pipe keeps is unread, and on the way no more unless its stream collects. -/
theorem commit_goes {n m : Nat} {p : Prop} {kept : Bytes} {dropped : Nat} (hf : Filling r n p c)
    (hfull : (c.get r).inbox.collecting = false → kept.length = m) (hm : m ≤ n)
    {done : Inbox.Committed} (hdone : ((c.get r).inbox.commit kept dropped).1 = done) :
    (taking D B nice).Goes c (update r (·.committed kept dropped done)) fun _ c' =>
      r ∈ c'.refs ∧ c'.core.TakesOn r (if done.collecting then n else n - m) ∧
      ∀ {x : Nat}, c.core.On r (x ≤ ·.held) → c'.core.On r fun l =>
        x ≤ l.held ∧ l.collecting = done.collecting := by
  refine .assuming fun hk => ?_
  have hn := hk.refs_nodup
  obtain ⟨s, hs⟩ : ∃ s, c.get r = s := ⟨_, rfl⟩
  obtain ⟨hle, hall⟩ := Inbox.stays_le (x := s.inbox) (n := kept.length)
  rw [hs] at hfull hdone
  obtain rfl : done = ⟨s.inbox.stays kept.length, s.inbox.collecting⟩ := hdone.symm
  obtain ⟨stays, hstays⟩ : ∃ x, s.inbox.stays kept.length = x := ⟨_, rfl⟩
  rw [hstays] at hle hall ⊢
  have hm' : s.inbox.collecting = false → stays = m := fun hno => (hall hno).trans (hfull hno)
  have hcore : (c.mod r (·.committed kept dropped ⟨stays, s.inbox.collecting⟩)).core =
      c.core.edit r fun l => { l with
        unread := l.unread + stays
        taking := if l.collecting then l.taking else l.taking - stays } := by
    refine Conn.core_mod_of fun s' hs' hsr => ?_
    rw [Conn.eq_get hn hs' hsr, hs]
    have hbuf : (s.inbox.buf ++ kept.take stays).length = s.inbox.buf.length + stays := by
      rw [List.length_append, List.length_take, Nat.min_eq_left hle]
    simp only [Stream.committed, Stream.line, Inbox.commit, hstays, hbuf, Inbox.wanted]
    rfl
  have htaking : s.taking = n := by
    have := hf.receives.taking hf.takes
    rwa [hs, if_pos rfl] at this
  have hcoll : c.core.On r (·.collecting = s.inbox.collecting) := Conn.on_get hn (by rw [hs]; rfl)
  refine .move ?_ ⟨?_, ?_, fun {x} hheld => ?_⟩
  · show Taking B c.core (Conn.core _)
    rw [hcore]
    refine .committed r stays (Conn.on_get hn ⟨?_, fun hno => ?_⟩)
    · have hrun : (c.get r).line.phase = .running := Conn.get_on hf.receives.mem hf.receives.running
      rw [hrun]
      rintro ⟨⟩
    · rw [hs] at hno ⊢
      show stays ≤ s.taking
      rw [htaking, hm' hno]
      exact hm
  · exact Conn.mem_mod (fun _ => rfl) hf.receives.mem
  · rw [hcore]
    refine Core.Takes.edit hf.takes (fun q hq => by rw [if_neg hq, if_neg hq]) (fun _ => rfl) ?_
    intro l hl hlr ha
    refine ⟨ha, fun hz => ?_⟩
    rw [if_pos rfl] at hz ⊢
    show (if l.collecting then l.taking else l.taking - stays) = _
    rw [hcoll l hl hlr, hz]
    split
    · rfl
    · rw [hm' (by simpa using ‹¬s.inbox.collecting = true›)]
  · rw [hcore]
    exact Core.On.edit fun l hl hlr => ⟨hheld l hl hlr, hcoll l hl hlr⟩

/-- The connection learns that the stream collects. -/
theorem gather_goes {b : Bool} {n : Nat} (hb : c.core.On r (·.collecting = b))
    (ht : c.core.TakesOn r n) :
    (taking D B nice).Goes c (update r fun s => { s with collecting := b })
      fun _ c' => c'.core.TakesOn r n := by
  have hcore : (c.mod r fun s => { s with collecting := b }).core =
      c.core.edit r fun l => { l with gathering := l.collecting } := by
    refine Conn.core_mod_of fun s hs hsr => ?_
    show ({ s.line with gathering := b } : Line) = { s.line with gathering := s.line.collecting }
    rw [hb s.line (List.mem_map_of_mem hs) hsr]
  refine .move ?_ ?_
  · show Taking B c.core (Conn.core _)
    rw [hcore]
    exact .calm (.gathered r)
  · rw [hcore]
    exact Core.Takes.edit_same ht (fun _ => rfl) (fun _ => rfl) fun _ _ _ ha => ha

/-- The bytes of a frame go into the pipe: those a reader will count are no longer on the
way, and those of a collecting stream still are, to be given back at once. -/
theorem takeBytes_goes {content : Bytes} {n : Nat} (hr : c.Receives r) (ht : c.core.TakesOn r n)
    (hlen : content.length ≤ n) :
    (taking D B nice).Goes c (takeBytes content r) fun collecting c' =>
      c'.core.TakesOn r (if collecting then n else n - content.length) := by
  refine .assuming fun hk => .get_bind ?_
  obtain ⟨hkeep, hall⟩ := Inbox.begin_keep (x := (c.get r).inbox) (n := content.length)
  obtain ⟨slot, hslot⟩ : ∃ slot, (c.get r).inbox.begin content.length = slot := ⟨_, rfl⟩
  rw [hslot] at hkeep hall ⊢
  have hfill : Filling r n ((c.get r).inbox.collecting = true) c :=
    ⟨hr, ht, fun hc => Conn.on_get hk.refs_nodup hc⟩
  refine .bind (hfill.goes meanwhile_goes) fun _ c₁ ⟨_, hfill₁⟩ => ?_
  have hover : (calm D B nice).Goes c₁
      (when (0 < slot.drop) (update r fun s => { s with overLimit := true })) fun _ _ => True :=
    .when (fun _ => update_quiet rfl (fun _ => rfl) trivial) fun _ => trivial
  refine .bind (hfill₁.goes hover) fun _ c₂ ⟨_, hfill₂⟩ => ?_
  have hhold : (calm D B nice).Goes c₂ (modify (·.hold r slot.keep) : M D Unit)
      fun _ c₃ => c₃.core.On r (slot.keep ≤ ·.held) := by
    refine .change (hold_path hfill₂.receives.mem) ?_
    rw [Conn.core_hold]
    exact Core.On.edit (k := c₂.core) (f := fun l => { l with held := l.held + slot.keep })
      fun l _ _ => Nat.le_add_left _ _
  refine .bind (hfill₂.goes hhold) fun _ c₃ ⟨hheld₃, hfill₃⟩ => .get_bind ?_
  have hkept : (content.take slot.keep).length = slot.keep := by
    rw [List.length_take, Nat.min_eq_left hkeep]
  -- a stream that does not collect now did not when room was made, and keeps everything
  have hfull : (c₃.get r).inbox.collecting = false →
      (content.take slot.keep).length = content.length := by
    intro hno
    rw [hkept]
    refine hall (Bool.eq_false_iff.2 fun hyes => ?_)
    have hcoll : (c₃.get r).line.collecting = true :=
      Conn.get_on hfill₃.receives.mem (hfill₃.collects hyes)
    exact absurd (hno.symm.trans hcoll) nofun
  obtain ⟨done, hdone⟩ :
      ∃ done, ((c₃.get r).inbox.commit (content.take slot.keep) slot.drop).1 = done := ⟨_, rfl⟩
  rw [hdone]
  refine .bind (commit_goes hfill₃ hfull hlen hdone) fun _ c₄ ⟨hr₄, ht₄, hon₄⟩ => ?_
  have hon₄ := hon₄ hheld₃
  refine .bind (Q := fun _ c₅ => c₅.core.On r (·.collecting = done.collecting) ∧
    c₅.core.TakesOn r (if done.collecting then n else n - content.length))
    (.when (fun _ => ?_) fun _ => ⟨fun l hl hlr => (hon₄ l hl hlr).2, ht₄⟩)
    fun _ c₅ ⟨hon₅, ht₅⟩ => .bind (gather_goes hon₅ ht₅) fun _ _ h => .pure h
  -- what did not stay leaves the budget again
  refine .assuming fun hk₄ => ?_
  have hheld : slot.keep ≤ (c₄.get r).held := (Conn.get_on hr₄ hon₄).1
  have hback : slot.keep - done.kept ≤ (c₄.get r).held := le_trans (Nat.sub_le _ _) hheld
  have hpath := giveBack_path (B := B) hk₄.refs_nodup hback
  refine .bind (Q := fun _ c₅ => c₅ = c₄.giveBack r (slot.keep - done.kept))
    (Course.Goes.toTaking (.change hpath rfl)) ?_
  rintro _ _ rfl
  have hmark : (taking D B nice).Goes (c₄.giveBack r (slot.keep - done.kept))
      (update r fun s => { s with overLimit := true })
      fun _ c₅ => c₅.core = (c₄.giveBack r (slot.keep - done.kept)).core :=
    update_same rfl fun _ => rfl
  refine hmark.weaken fun _ c₅ hc₅ => ⟨?_, ?_⟩
  · rw [hc₅, Conn.core_giveBack hback]
    exact Core.On.edit (k := c₄.core)
      (f := fun l => { l with held := l.held - (slot.keep - done.kept) })
      fun l hl hlr => (hon₄ l hl hlr).2
  · rw [hc₅]
    exact Course.preserved
      (P := fun k => k.TakesOn r (if done.collecting then n else n - content.length)) hpath
      (fun m h => m.takes h) ht₄

/-- A call whose bytes have been put in its pipe. -/
theorem takeData_goes {f : Frame} {content : Bytes} (hk : Aside cd c.core) (hr : c.Receives r)
    (ht : c.core.TakesOn r f.len) (hlen : content.length ≤ f.len) :
    (reader D (Conn.budget h) nice home).Goes c (takeData h f content r)
      fun _ c' => Idles cd c'.core := by
  refine .bind (taking_reader hk (takeBytes_goes hr ht hlen)) fun collecting c₁ h₁ => ?_
  obtain ⟨ht₁, hf₁, hk₁⟩ := h₁
  have hr₁ := hr.framed hf₁
  have htaking := hr₁.taking ht₁
  rw [if_pos rfl] at htaking
  -- what is credited is all that was still on the way
  have credited {n : Nat} (hn : (if collecting then f.len else f.len - content.length) = n) :
      (reader D (Conn.budget h) nice home).Goes c₁ (credit h r n) fun _ c' => Idles cd c'.core := by
    rw [hn] at ht₁ htaking
    refine (taking_reader hk₁ (credit_goes hr₁.mem (le_of_eq htaking.symm))).weaken ?_
    rintro _ c₂ ⟨hcredit, -, hk₂⟩
    refine hk₂.idles ((hcredit _ ht₁).of_eq fun q => ?_)
    show (if q = r then n else 0) - (if q = r then n else 0) = 0
    exact Nat.sub_self _
  refine .get_bind (.ite (fun _ => ?_) fun _ => .ite (fun _ => ?_) fun _ => ?_)
  · exact settling_reader hk₁ ht₁ (lengthMismatch_goes hr₁.settled).endingToPlain
  · exact settling_reader hk₁ ht₁ (endInbound_goes hr₁.toRuns)
  refine .ite (fun hcoll => credited (if_pos hcoll)) fun hcoll => ?_
  refine .ite (fun _ => credited (if_neg hcoll)) fun hall => .pure ?_
  refine hk₁.idles (ht₁.of_eq fun q => ?_)
  have hzero : (if collecting then f.len else f.len - content.length) = 0 := by
    rw [if_neg hcoll]
    omega
  show (if q = r then if collecting then f.len else f.len - content.length else 0) = 0
  rw [hzero, ite_self]

/-- The stream's window pays for a frame, or the connection is shut. -/
theorem arrived_reader {n : Nat} {m : M D Unit} {Q : Unit → Conn D → Prop} (hn : c.refs.Nodup)
    (hr : r ∈ c.refs) (hh : home → c.core.Home)
    (hm : ∀ c₁ : Conn D, Taking B c.core c₁.core →
      c₁.core = c.core.edit r (fun l =>
        { l with recvWindow := l.recvWindow - n, taking := l.taking + n }) →
      (reader D B nice home).Goes c₁ m Q) :
    (reader D B nice home).Goes c
      (do update r fun s => { s with recvWindow := s.recvWindow - n, taking := s.taking + n }
          when ((← stream r).recvWindow < 0) (stop .flowControl)
          m) Q := by
  have hcore : (c.mod r fun s =>
      { s with recvWindow := s.recvWindow - n, taking := s.taking + n }).core =
      c.core.edit r fun l => { l with recvWindow := l.recvWindow - n, taking := l.taking + n } :=
    Conn.core_mod fun _ => rfl
  have hget : ((c.mod r fun s =>
      { s with recvWindow := s.recvWindow - n, taking := s.taking + n }).get r).recvWindow =
      (c.get r).recvWindow - n := by
    rw [Conn.get_mod (f := fun s =>
      { s with recvWindow := s.recvWindow - n, taking := s.taking + n }) hr (fun _ => rfl) hn]
  by_cases hover : (c.get r).recvWindow - n < 0
  · refine .as (n := do
        modify fun c => { c.mod r (fun s =>
          { s with recvWindow := s.recvWindow - n, taking := s.taking + n }) with reading := false }
        throw Stop.flowControl) ?_ ?_
    · show (when (((c.mod r fun s =>
        { s with recvWindow := s.recvWindow - n, taking := s.taking + n }).get r).recvWindow < 0)
          (stop .flowControl) >>= fun _ => m) _ = _
      rw [hget, when, if_pos hover]
      rfl
    · have hshut : ({ c.mod r (fun s =>
          { s with recvWindow := s.recvWindow - n, taking := s.taking + n }) with
          reading := false } : Conn D).core =
          { c.core.edit r (fun l =>
              { l with recvWindow := l.recvWindow - n, taking := l.taking + n }) with
            reading := false } :=
        congrArg (fun k : Core D => { k with reading := false }) hcore
      have hmove : Taking B c.core ({ c.mod r (fun s =>
          { s with recvWindow := s.recvWindow - n, taking := s.taking + n }) with
          reading := false } : Conn D).core := by
        rw [hshut]
        exact .overran r n
      refine .bind (Q := fun _ c' => (reader D B nice home).Stopped c')
        (.move (Hearing.taking hmove).reads ⟨rfl, fun hy => hmove.home (hh hy)⟩) fun _ _ hstop => .throw hstop
  · have hmove : Taking B c.core (c.mod r fun s =>
        { s with recvWindow := s.recvWindow - n, taking := s.taking + n }).core := by
      rw [hcore]
      refine .arrived r n (Conn.on_get hn ?_)
      show (n : Int) ≤ (c.get r).recvWindow
      omega
    refine .bind (Q := fun _ c₁ => c₁ = c.mod r fun s =>
      { s with recvWindow := s.recvWindow - n, taking := s.taking + n })
      (.move (Hearing.taking hmove).reads rfl) ?_
    rintro _ _ rfl
    refine .get_bind ?_
    rw [hget]
    refine .bind (Q := fun _ c₂ => c₂ = c.mod r fun s =>
      { s with recvWindow := s.recvWindow - n, taking := s.taking + n })
      (.when (fun hy => absurd hy hover) fun _ => rfl) ?_
    rintro _ _ rfl
    exact hm _ hmove hcore

theorem onOpenData_goes {f : Frame} {content : Bytes} (hk : Idles cd c.core) (hr : r ∈ c.refs)
    (hon : c.core.On r fun l => l.phase ≠ .headers ∧ l.isOpen = true)
    (hlen : content.length ≤ f.len) :
    (reader D (Conn.budget h) nice home).Goes c (onOpenData h f content r)
      fun _ c' => Idles cd c'.core := by
  have hh : home → _ := home_of_continuing hk.clear.continuing
  refine .assuming fun hg => ?_
  have hg : Good (Conn.budget h) nice c.core := hg
  refine arrived_reader hg.refs_nodup hr hh fun c₁ hmove hc₁ => ?_
  have hk₁ : Aside cd c₁.core := hmove.aside hk.aside
  have ht₁ : c₁.core.TakesOn r f.len := by
    rw [hc₁]
    refine Core.Takes.edit hk.rest.idle (fun q hq => if_neg hq) (fun _ => rfl) ?_
    intro l _ _ ha
    refine ⟨ha, fun hz => ?_⟩
    show l.taking + f.len = if r = r then f.len else 0
    rw [hz, if_pos rfl, Nat.zero_add]
  have hf₁ : Framed c c₁ := taking_path_framed (.single hmove)
  refine .bind (update_same rfl fun _ => rfl) fun _ c₂ hc₂ => ?_
  have hf₂ : Framed c c₂ := hf₁.trans ⟨by rw [hc₂], by rw [hc₂]⟩
  have hon₂ := hf₂.on (P := fun s => s.phase ≠ .headers ∧ s.isOpen = true) hon
  have hr₂ := hf₂.mem hr
  rw [← hc₂] at hk₁ ht₁
  refine .assuming fun hg₂ => .get_bind (.ite (fun hwrite => ?_) fun hwrite => ?_)
  · -- nothing reads what arrives for a call that is answered
    have hphase : c₂.core.On r (·.phase = .writing) :=
      Conn.on_get (Good.refs_nodup hg₂) hwrite
    have hclosed : c₂.core.On r fun l => ¬l.active := by
      intro l hl hlr ha
      rcases ha with hp | ⟨hp, -⟩
      · cases (hphase l hl hlr).symm.trans hp
      · cases (hphase l hl hlr).symm.trans hp
    refine settling_reader hk₁ ht₁ (.ite (fun _ => ?_) fun _ => .pure hclosed)
    have hclose : (plain D (Conn.budget h) nice).Goes c₂
        (update r fun s => { s with isOpen := false }) fun _ _ => True :=
      update_goes rfl (Plain.closeIn r) (fun _ => rfl) trivial
    exact (hclose.keeping (P := fun k => k.On r fun l => ¬l.active)
      (fun move _ h => move.inactive h) hclosed).weaken fun _ _ h => h.2
  · have hrun : c₂.core.On r (·.phase = .running) := by
      refine Conn.on_get (Good.refs_nodup hg₂) ?_
      show (c₂.get r).phase = .running
      cases hp : (c₂.get r).phase with
      | headers => exact absurd hp (Conn.get_on hr₂ hon₂).1
      | running => rfl
      | writing => exact absurd hp hwrite
    exact takeData_goes hk₁ ⟨⟨hr₂, hrun⟩, fun l hl hlr => (hon₂ l hl hlr).2⟩ ht₁ hlen

theorem onStreamData_goes {f : Frame} {content : Bytes} (hk : Idles cd c.core) (hr : r ∈ c.refs)
    (hlen : content.length ≤ f.len) :
    (reader D (Conn.budget h) nice home).Goes c (onStreamData h f content r)
      fun _ c' => Idles cd c'.core := by
  have hh : home → _ := home_of_continuing hk.clear.continuing
  refine .assuming fun hg => ?_
  have hg : Good (Conn.budget h) nice c.core := hg
  refine .get_bind (guard_reader hh fun hphase => .ite (fun _ => ?_) fun _ => ?_)
  · refine .when (fun _ => (control_reader hh).weaken fun _ c' hc' => ?_) fun _ => hk
    rwa [hc']
  refine .ite (fun _ => ?_) fun hopen => ?_
  · refine (plain_reader (Q := fun _ _ => True) hk ?_).weaken fun _ _ h => h.2
    refine .calmThenPlain (emit_small rfl rfl (Nat.le_of_ble_eq_true rfl)) fun _ c₂ hf₂ => ?_
    refine (onReset_goes ?_).endingToPlain.weaken fun _ _ _ => trivial
    exact (Conn.settled_of_none hr hk.clear.continuing).framed hf₂
  have hopen : (c.get r).isOpen = true := by simpa using hopen
  refine .bind (Q := fun _ c₁ => c₁.core = c.core)
    (.when (fun _ => control_reader hh) fun _ => rfl) fun _ c₁ hc₁ => ?_
  refine onOpenData_goes ?_ ?_ ?_ hlen
  · rwa [hc₁]
  · rw [← Conn.core_refs, hc₁, Conn.core_refs]
    exact hr
  · rw [hc₁]
    exact Conn.on_get hg.refs_nodup ⟨hphase, hopen⟩

theorem unpad_length {f : Frame} {content : Bytes} (hu : unpad f = some content) :
    content.length ≤ f.len := by
  rw [unpad] at hu
  split at hu
  · cases hu
    exact le_refl _
  · split at hu
    · cases hu
    · rename_i pad rest hpay
      split at hu
      · cases hu
      · cases hu
        rw [Frame.len, hpay, List.length_take, List.length_cons]
        omega

theorem onData_goes {f : Frame} (hk : Idles cd c.core) :
    (reader D (Conn.budget h) nice home).Goes c (onData h f) fun _ c' => Ended cd home c'.core := by
  have hh : home → _ := home_of_continuing hk.clear.continuing
  refine Course.Goes.weaken (Q := fun _ c' => Idles cd c'.core) ?_ fun _ _ hi => hi.ended
  refine guard_reader hh fun _ => ?_
  refine .bind (plain_reader hk (Course.Goes.toPlain payConnection_goes)) fun _ c₁ ⟨_, hk₁⟩ => ?_
  have hh₁ : home → _ := home_of_continuing hk₁.clear.continuing
  split
  · exact stop_reader hh₁
  · rename_i content hu
    refine .get_bind ?_
    split
    · rename_i r hfind
      exact onStreamData_goes hk₁ (Conn.find_some hfind).1 (unpad_length hu)
    · refine .get_bind (guard_reader hh₁ fun _ => ?_)
      refine .when (fun _ => (control_reader hh₁).weaken fun _ c' hc' => ?_) fun _ => hk₁
      rwa [hc']

/-! ## One frame -/

theorem Assembly.add_blocks {a : Assembly} {id : StreamId} {block : Bytes} {last : Bool} :
    (a.add id block last).blocks = a.blocks ++ if last then [block] else [] := by
  cases last with
  | true => rfl
  | false => exact (List.append_nil _).symm

theorem Assembly.add_openBlock {a : Assembly} {id : StreamId} {block : Bytes} {last : Bool} :
    (a.add id block last).openBlock = if last then none else some (id, block) := by
  cases last <;> rfl

theorem Assembly.take_headers {a : Assembly} {f : Frame} {fragment : Bytes} {d : Bool}
    (ht : f.type = .headers) (hf : headersFragment f = some (fragment, d)) :
    a.take f = a.add f.stream fragment (f.has Flags.endHeaders) := by
  rw [Assembly.take, ht, hf]

theorem Assembly.take_continuation {a : Assembly} {f : Frame} {id : StreamId} {block : Bytes}
    (ht : f.type = .continuation) (ha : a.openBlock = some (id, block)) (hs : f.stream = id) :
    a.take f = a.add id (block ++ f.payload) (f.has Flags.endHeaders) := by
  rw [Assembly.take, ht, ha]
  exact if_pos hs

/-- The frame is one that may come next: no block is open, or it goes on with the one that is. -/
structure Passes (c : Conn D) (f : Frame) : Prop where
  continuing : ∀ r, c.continuing = some r →
    r ∈ c.refs ∧ f.type = .continuation ∧ f.stream = (c.get r).id
  ignoring : c.ignoring ≠ 0 → f.type = .continuation ∧ f.stream = c.ignoring

/-- A frame that is no CONTINUATION comes when no block is open. -/
theorem Passes.clear {f : Frame} (hp : Passes c f) (hk : Placed c.core)
    (ht : f.type ≠ .continuation) : Clear c.core := by
  refine hk.clear ?_ ?_
  · show c.continuing = none
    by_contra hne
    obtain ⟨r, hr⟩ := Option.ne_none_iff_exists'.1 hne
    exact ht (hp.continuing r hr).2.1
  · show c.ignoring = 0
    by_contra hne
    exact ht (hp.ignoring hne).1

theorem Idles.read_plain {k : Core D} {f : Frame} (hk : Idles cd k) (hf : f.plain)
    (hs : f.type ≠ .settings) : Idles cd (k.log (.read f)) := by
  have hm := hk.rest.toMid
  rw [hk.clear.continuing] at hm
  refine (hm.log (hm.owing.read_plain hf (.inl hs))).idles ?_ (hk.clear.read_plain hf)
  exact hk.rest.agreed.read fun _ => offers_of_type hs

theorem Rest.fragment {f : Frame} {k : Core D} {fragment : Bytes} {d : Bool} (hk : Rest cd k)
    (hc : Clear k) (hr : k.reading = true) (ht : f.type = .headers)
    (hf : headersFragment f = some (fragment, d)) (hcore : c.core = k.log (.read f)) :
    Fragment cd c f fragment := by
  have htake : assembly c.core.trace =
      (assembly k.trace).add f.stream fragment (f.has Flags.endHeaders) := by
    rw [hcore]
    exact Assembly.take_headers ht hf
  have hns : f.type ≠ .settings := by
    rw [ht]
    nofun
  refine ⟨?_, ?_, ?_, ?_, ?_, ?_⟩
  · exact (congrArg (·.reading) hcore).trans hr
  · show Agreed c.core.trace
    rw [hcore]
    exact hk.agreed.read fun _ => offers_of_type hns
  · exact (congrArg (·.continuing) hcore).trans hc.continuing
  · exact (congrArg (·.ignoring) hcore).trans hc.ignoring
  · have hm := hk.toMid
    rw [hc.continuing] at hm
    rw [hcore]
    refine hm.log (hm.owing.read hns ?_)
    rw [Assembly.take_headers ht hf, Assembly.add_blocks]
  · show (assembly c.core.trace).openBlock = _
    rw [htake, Assembly.add_openBlock]

theorem Rest.ignores {f : Frame} {k : Core D} (hk : Rest cd k) (hi : k.ignoring ≠ 0)
    (ht : f.type = .continuation) (hs : f.stream = k.ignoring) :
    Ignores cd (k.log (.read f)) f := by
  have hnone : k.continuing = none := by
    by_contra hne
    obtain ⟨r, hr⟩ := Option.ne_none_iff_exists'.1 hne
    exact hi (hk.placed.here r hr).1
  have hopen := hk.placed.ignored hnone
  rw [if_neg hi] at hopen
  have htake := Assembly.take_continuation ht hopen hs
  have hns : f.type ≠ .settings := by
    rw [ht]
    nofun
  refine ⟨hk.agreed.read fun _ => offers_of_type hns, hnone, hi, ?_, ?_⟩
  · have hm := hk.toMid
    rw [hnone] at hm
    refine hm.log (hm.owing.read hns ?_)
    rw [htake, Assembly.add_blocks]
    rfl
  · show ((assembly k.trace).take f).openBlock = _
    rw [htake, Assembly.add_openBlock]
    rfl

theorem Rest.continues {f : Frame} (hk : Rest cd c.core) (hn : c.refs.Nodup)
    (hread : c.reading = true) (hr : c.continuing = some r) (hmem : r ∈ c.refs)
    (ht : f.type = .continuation) (hs : f.stream = (c.get r).id) :
    Continues cd (c.core.log (.read f)) f r (c.core.arrived (c.get r).line.toStanding) := by
  obtain ⟨hign, hhere⟩ := hk.placed.here r hr
  have hopen : (assembly c.core.trace).openBlock =
      some ((c.get r).id, c.core.arrived (c.get r).line.toStanding) := Conn.get_on hmem hhere
  have htake := Assembly.take_continuation ht hopen hs
  have hns : f.type ≠ .settings := by
    rw [ht]
    nofun
  have hcont : c.core.continuing = some r := hr
  refine ⟨?_, hread, hk.agreed.read fun _ => offers_of_type hns, hr, hign, hk.telling r hr, ?_, ?_,
    ?_⟩
  · show r ∈ c.core.refs
    rwa [Conn.core_refs]
  · exact Conn.on_get (P := fun l => c.core.arrived l.toStanding = _) hn rfl
  · have hm := hk.toMid
    rw [hcont] at hm
    refine hm.log (hm.owing.read hns ?_)
    rw [htake, Assembly.add_blocks]
  · have hid : c.core.On r fun l => (c.get r).id = l.id :=
      Conn.on_get (P := fun l => (c.get r).id = l.id) hn rfl
    intro l hl hlr
    show ((assembly c.core.trace).take f).openBlock = _
    rw [htake, Assembly.add_openBlock, hid l hl hlr]

/-- The code goes into a stream that is not in the table: nowhere `continuing` should point. -/
theorem goAstray_goes {Q : Unit → Conn D → Prop} (hh : ¬home) :
    (reader D B nice home).Goes c goAstray Q := by
  refine .as (n := do
    modify fun c => { c with astray := true, reading := false }
    throw Stop.stray) rfl ?_
  exact .bind (Q := fun _ c' => (reader D B nice home).Stopped c')
    (.move ⟨.front .strayed, fun hy => absurd hy hh, fun _ hr => hr⟩ ⟨rfl, fun hy => absurd hy hh⟩)
    fun _ _ hstop => .throw hstop

theorem checkContinuing_goes {f : Frame} (hh : home → c.core.Home) :
    (reader D B nice home).Goes c (checkContinuing f) fun _ c' => c' = c ∧ ∀ r,
      c.continuing = some r → r ∈ c.refs ∧ f.type = .continuation ∧ f.stream = (c.get r).id := by
  refine .get_bind ?_
  split
  · rename_i hnone
    refine .pure ⟨rfl, fun r hr => ?_⟩
    rw [hnone] at hr
    cases hr
  rename_i r hcont
  refine .get_bind (.ite (fun hmem => ?_) fun hmem => ?_)
  · refine .get_bind (.ite (fun _ => stop_reader hh) fun hok => .pure ⟨rfl, fun q hq => ?_⟩)
    obtain rfl : r = q := Option.some.inj (hcont.symm.trans hq)
    rw [not_or, not_not, not_not] at hok
    exact ⟨hmem, hok.1, hok.2⟩
  have hno : ¬home := by
    intro hy
    refine hmem ?_
    rw [← Conn.core_refs]
    exact (hh hy r hcont).1
  refine .get_bind (.ite (fun _ => guard_reader hh fun _ => ?_) fun _ => goAstray_goes hno)
  refine .bind (Q := fun _ _ => True) ?_ fun _ _ _ => goAstray_goes hno
  exact .when (fun _ => front_reader (.noted f.payload) trivial) fun _ => trivial

theorem checkIgnoring_goes {f : Frame} (hh : home → c.core.Home) :
    (reader D B nice home).Goes c (checkIgnoring f) fun _ c' => c' = c ∧
      (c.ignoring ≠ 0 → f.type = .continuation ∧ f.stream = c.ignoring) := by
  refine .get_bind (.when (fun _ => stop_reader hh) fun hok => ⟨rfl, fun hne => ?_⟩)
  by_contra hno
  rw [not_and_or] at hno
  exact hok ⟨hne, hno⟩

theorem readOne_goes {f : Frame} (hk : Rest cd c.core) (hread : c.reading = true)
    (hh : home → c.core.Home) :
    (reader D (Conn.budget h) nice home).Goes c (readOne h cd f)
      fun _ c' => Ended cd home c'.core := by
  refine .assuming fun hg => ?_
  have hg : Good (Conn.budget h) nice c.core := hg
  have hn := hg.refs_nodup
  refine .bind (Q := fun _ c₁ => c₁.streams = c.streams ∧ c₁.core = c.core.log (.read f))
    (front_reader (.read f) ⟨rfl, rfl⟩) ?_
  rintro _ c₁ ⟨hst, hc₁⟩
  have hh₁ : home → c₁.core.Home := by
    rw [hc₁]
    exact fun hy => (hh hy).log
  refine guard_reader hh₁ fun _ => ?_
  refine .bind (checkContinuing_goes hh₁) ?_
  rintro _ c₂ ⟨hc₂, hcont⟩
  rw [hc₂]
  refine .bind (checkIgnoring_goes hh₁) ?_
  rintro _ c₃ ⟨hc₃, hign⟩
  rw [hc₃]
  have hpass : Passes c f := by
    have hce : c₁.continuing = c.continuing := congrArg (·.continuing) hc₁
    have hie : c₁.ignoring = c.ignoring := congrArg (·.ignoring) hc₁
    have hre : c₁.refs = c.refs := by rw [Conn.refs, hst, Conn.refs]
    refine ⟨fun r hr => ?_, fun hne => ?_⟩
    · have := hcont r (hce.trans hr)
      rwa [hre, Conn.get, hst] at this
    · rw [hie] at hign
      exact hign hne
  have hclear (ht : f.type ≠ .continuation) : Clear c.core := hpass.clear hk.placed ht
  have hidles (hf : f.plain ∧ f.type ≠ .settings) : Idles cd c₁.core := by
    rw [hc₁]
    exact Idles.read_plain ⟨hk, hclear hf.1.2⟩ hf.1 hf.2
  -- a handler that only moves the lives of streams
  have lives {m : M D Unit} (hf : f.plain ∧ f.type ≠ .settings)
      (hm : c₁.continuing = none → (plain D (Conn.budget h) nice).Goes c₁ m fun _ _ => True) :
      (reader D (Conn.budget h) nice home).Goes c₁ m fun _ c' => Ended cd home c'.core :=
    (plain_reader (hidles hf) (hm (hidles hf).clear.continuing)).weaken
      fun _ _ h => h.2.ended
  have others {t : FrameType} (ht : f.type = t)
      (hother : (t ≠ .headers ∧ t ≠ .continuation) ∧ t ≠ .settings) :
      f.plain ∧ f.type ≠ .settings := by
    rw [Frame.plain, ht]
    exact hother
  split
  · rename_i ht
    exact onData_goes (hidles (others ht (by decide)))
  · rename_i ht
    have hclear := hclear (by rw [ht]; rintro ⟨⟩)
    refine onHeaders_goes (fun fragment d hfrag => ?_) ?_
    · exact hk.fragment hclear hread ht hfrag hc₁
    · exact (congrArg (·.continuing) hc₁).trans hclear.continuing
  · rename_i ht
    refine onContinuation_goes (fun hne => ?_)
      (fun r hr _ => ⟨c.core.arrived (c.get r).line.toStanding, ?_⟩) hh₁
    · have hie : c₁.ignoring = c.ignoring := congrArg (·.ignoring) hc₁
      rw [hie] at hne
      rw [hc₁]
      exact hk.ignores hne ht (hpass.ignoring hne).2
    · have hce : c₁.continuing = c.continuing := congrArg (·.continuing) hc₁
      rw [hce] at hr
      obtain ⟨hmem, -, hid⟩ := hpass.continuing r hr
      rw [hc₁]
      exact hk.continues hn hread hr hmem ht hid
  · rename_i ht
    have hclear := hclear (by rw [ht]; rintro ⟨⟩)
    exact onSettings_goes ⟨hk, hclear⟩ hg.flow hread ht hc₁
  · rename_i ht
    exact lives (others ht (by decide)) fun _ => onPing_goes
  · rename_i ht
    refine onWindowUpdate_goes (hidles (others ht (by decide))) fun hlen => ?_
    rw [hc₁]
    exact hg.flow.widens hread ht hlen
  · rename_i ht
    exact lives (others ht (by decide)) onRstStream_goes
  · rename_i ht
    exact lives (others ht (by decide)) onPriority_goes
  · rename_i ht
    exact lives (others ht (by decide)) fun _ => onGoaway_goes
  · exact stop_reader hh₁
  · rename_i ht
    refine lives (others ht ⟨⟨by rintro ⟨⟩, by rintro ⟨⟩⟩, by rintro ⟨⟩⟩) fun _ => ?_
    exact (Course.Goes.toPlain control_goes).weaken fun _ _ _ => trivial

/-- One frame, and then what the calls have said: between two frames again, or done reading. -/
theorem readFrame_goes {f : Frame} (hk : Rest cd c.core) (hread : c.reading = true)
    (hh : home → c.core.Home) :
    (reader D (Conn.budget h) nice home).Goes c (readFrame h cd f)
      fun _ c' => Ended cd home c'.core := by
  refine .bind (readOne_goes hk hread hh) fun _ c₁ hk₁ => ?_
  refine .bind ((service_goes cd).hearingToReader hk₁.home) fun _ c₂ ⟨⟨_, hrest₂⟩, hh₂⟩ => ?_
  have hroom : (calm D (Conn.budget h) nice).Goes c₂ (admitCalls h) fun _ c₃ => Rest cd c₃.core :=
    (admitCalls_goes.keeping (P := fun k => Rest cd k)
      (fun move hg h => (Plain.calm move).rest hg h) (hrest₂ hk₁.rest)).weaken fun _ _ h => h.2
  exact (hroom.toTaking.takingToReader hh₂).weaken fun _ _ h => ⟨h.1, h.2.2⟩

end Nilo.Http2
