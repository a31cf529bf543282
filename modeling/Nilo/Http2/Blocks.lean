import Nilo.Http2.Goes.Machine

/-!
# Header blocks

Where `continuing` points, and what the HPACK decoder is fed.

* `Tracked` — the header block that is open is the one the connection puts
  together, on the stream it was opened for; and the trailers of a stream whose
  answer is out, or which was reset, end the connection only for what ends any
  (`Stop.ofLimits`).
* `InStep` — every whole block has been through the decoder, once and in order.

**Neither holds of every run.** A stream can leave the table while its trailers
are half received: nothing clears `continuing` when it does, and the next frame is
read through a pointer to a recycled stream. `Act.KeepsOpen` and `Act.Stays` say
which steps do not get there.
-/

namespace Nilo.Http2

open Nilo.Lib Nilo.Text
open Nilo.Lib.Prog (Ends)

variable {D : Type} {h : Host} {cd : Codec D} {c : Conn D} {r : Ref}

/-! ## A connection to try things on -/

/-- Four fields of the static table, one indexed byte each. -/
def sampleField : UInt8 → Option Field
  | 0x82 => some ⟨ascii ":method", ascii "GET", true⟩
  | 0x83 => some ⟨ascii ":method", ascii "POST", true⟩
  | 0x84 => some ⟨ascii ":path", ascii "/", true⟩
  | 0x86 => some ⟨ascii ":scheme", ascii "http", true⟩
  | _ => none

/-- The decoder of a client that uses the static table only. -/
def sampleCodec : Codec Unit where
  init := ()
  allow _ _ := ()
  decode _ block _ := (block.mapM sampleField).map fun fields => ((), fields, false)

def sampleHost : Host where
  maxBody := 65535
  ceiling := 65530
  bodyLimit _ _ := 65535
  routes _ := true
  runsInline _ _ := false
  httpHead _ _ := []
  trailersOnly _ _ := []

/-- The state a connection is in after some steps. -/
def sampleAfter (acts : List Act) : Conn Unit :=
  steps sampleHost sampleCodec (acts.map fun a => { act := a }) (opened sampleCodec 0 0 none)

/-- A POST, and the first half of its trailers. -/
def halfTrailers : List Act :=
  [.frame ⟨.headers, Flags.endHeaders, 1, [0x83, 0x84, 0x86]⟩,
    .frame ⟨.headers, Flags.endStream, 1, []⟩]

/-- Its call ends and its answer is written before the other half comes. -/
def answeredFirst : List Act :=
  halfTrailers ++ [.finish 0 { noTrailers := true }, .writeReady]

/-! ## Late trailers -/

/-- What any frame can end a connection for: its size, a flood, a block that does not decode. -/
def Stop.ofLimits (e : Stop) : Prop := e = .frameSize ∨ e = .calm ∨ e = .compression

/-- The stream's call has been answered, or was reset; it may have left the table. -/
def Conn.Past (c : Conn D) (id : StreamId) : Prop :=
  id ≤ c.lastStream ∧ ∀ s ∈ c.streams, s.id = id →
    s.phase ≠ .headers ∧ (s.reset = true ∨ s.phase = .writing ∧ s.isOpen = true)

/-- A frame of the trailers of such a stream. -/
def Conn.Late (c : Conn D) (f : Frame) : Prop :=
  c.Past f.stream ∧
    (f.type = .headers ∧ f.has Flags.endStream = true ∧ f.stream % 2 = 1 ∧
        (headersFragment f).isSome = true ∧ (assembly c.trace).openBlock = none ∨
      f.type = .continuation ∧ ∃ block, (assembly c.trace).openBlock = some (f.stream, block))

theorem stop_ends {α : Type} {e : Stop} {Q : α → Conn D → Prop} (he : e.ofLimits) :
    Ends Stop.ofLimits c (stop e : M D α) Q := by
  refine ⟨?_, ?_⟩
  · intro e' he'
    cases he'
    exact he
  · intro a ha
    cases ha

theorem control_ends : Ends Stop.ofLimits c control fun _ c' => c'.streams = c.streams := by
  refine .bind (Q := fun _ c' => c'.streams = c.streams) (.change rfl) fun _ c₁ hc₁ => ?_
  exact .get_bind (.when (fun _ => stop_ends (.inr (.inl rfl))) fun _ => hc₁)

theorem feed_ends {block : Bytes} :
    Ends Stop.ofLimits c (feed cd block) fun _ c' => c'.streams = c.streams := by
  refine .bind (Q := fun _ c' => c'.streams = c.streams) (.change rfl) fun _ c₁ hc₁ => ?_
  refine .get_bind ?_
  split
  · exact stop_ends (.inr (.inr rfl))
  · refine .bind (Q := fun _ c' => c'.streams = c.streams) (.change hc₁) fun _ c₂ hc₂ => ?_
    exact .pure hc₂

/-- Nothing is left to do for the call of a stream that is reset or being answered. -/
def Stream.Idles (s : Stream) : Prop := s.reset = true ∨ s.phase = .writing

theorem trailersDone_ends (hr : r ∈ c.refs) (hn : c.refs.Nodup) (hs : (c.get r).Idles) :
    Ends Stop.ofLimits c (trailersDone h cd r) fun _ _ => True := by
  have hs₁ : ((c.mod r fun s => { s with trailing := false }).get r).Idles := by
    rw [Conn.get_mod (f := fun s => { s with trailing := false }) hr (fun _ => rfl) hn]
    exact hs
  refine .bind (Q := fun _ c' => (c'.get r).Idles) (.change hs₁) fun _ c₁ hc₁ => ?_
  refine .get_bind (.bind feed_ends fun _ c₂ hc₂ => ?_)
  have hs₂ : (c₂.get r).Idles := by
    rw [Conn.get, hc₂]
    exact hc₁
  refine .bind (Q := fun _ c' => (c'.get r).Idles) (.change hs₂) fun _ c₃ hc₃ => ?_
  refine .get_bind (.ite (fun _ => .pure trivial) fun hreset => ?_)
  refine .ite (fun _ => .change trivial) fun hphase => ?_
  rcases hc₃ with h | h
  · exact absurd h hreset
  · exact absurd h hphase

theorem headersDone_ends (hr : r ∈ c.refs) (hn : c.refs.Nodup) (ht : (c.get r).trailing = true)
    (hs : (c.get r).Idles) : Ends Stop.ofLimits c (headersDone h cd r) fun _ _ => True := by
  refine .bind (Q := fun _ c' => c'.streams = c.streams) (.change rfl) fun _ c₁ hc₁ => ?_
  have hget : c₁.get r = c.get r := by rw [Conn.get, hc₁, Conn.get]
  have hrefs : c₁.refs = c.refs := by rw [Conn.refs, hc₁, Conn.refs]
  refine .get_bind (.ite (fun _ => ?_) fun hno => ?_)
  · refine trailersDone_ends ?_ ?_ ?_
    · rwa [hrefs]
    · rwa [hrefs]
    · rwa [hget]
  · rw [hget] at hno
    exact absurd ht hno

theorem appendBlockBytes_ends {bytes : Bytes} (ht : (c.get r).trailing = true) :
    Ends Stop.ofLimits c (appendBlockBytes r bytes) fun _ c' => c'.streams = c.streams := by
  refine .get_bind (.ite (fun _ => ?_) fun hno => absurd ht hno)
  refine .get_bind (.bind (Q := fun _ c' => c'.streams = c.streams)
    (.when (fun _ => stop_ends (.inr (.inl rfl))) fun _ => rfl) fun _ c₁ hc₁ => ?_)
  exact .change hc₁

theorem endIgnored_ends : Ends Stop.ofLimits c (endIgnored cd) fun _ _ => True := by
  refine .bind (Q := fun _ _ => True) (.change trivial) fun _ c₁ _ => ?_
  exact .get_bind (.bind feed_ends fun _ _ _ => .change trivial)

theorem ignoreBlock_ends {f : Frame} :
    Ends Stop.ofLimits c (ignoreBlock cd f) fun _ _ => True := by
  refine .bind (Q := fun _ _ => True)
    (.when (fun _ => control_ends.weaken fun _ _ _ => trivial) fun _ => trivial) fun _ _ _ => ?_
  refine .get_bind (.bind (Q := fun _ _ => True)
    (.when (fun _ => stop_ends (.inr (.inl rfl))) fun _ => trivial) fun _ _ _ => ?_)
  refine .bind (Q := fun _ _ => True) (.change trivial) fun _ _ _ => ?_
  exact .when (fun _ => endIgnored_ends) fun _ => trivial

theorem onTrailers_ends {f : Frame} {fragment : Bytes} (hr : r ∈ c.refs) (hn : c.refs.Nodup)
    (he : f.has Flags.endStream = true) (hp : (c.get r).phase ≠ .headers)
    (hs : (c.get r).reset = true ∨ (c.get r).phase = .writing ∧ (c.get r).isOpen = true) :
    Ends Stop.ofLimits c (onTrailers h cd f fragment r) fun _ _ => True := by
  have hidle : (c.get r).Idles := hs.imp_right fun hw => hw.1
  refine .get_bind (.bind (Q := fun _ c' => c' = c) (.when (fun hno => ?_) fun _ => rfl) ?_)
  · rcases hno with hno | ⟨hshut, hlive⟩
    · exact absurd hno hp
    · rcases hs with hs | ⟨-, hs⟩
      · simp [hs] at hlive
      · simp [hs] at hshut
  intro _ c₀ hc₀
  rw [hc₀]
  refine .bind (Q := fun _ c' => c' = c) (.when (fun hno => ?_) fun _ => rfl) ?_
  · simp [he] at hno
  intro _ c₀ hc₀
  rw [hc₀]
  refine .bind (Q := fun _ c' => c'.streams = c.streams) (.change rfl) fun _ c₁ hc₁ => ?_
  have hget : c₁.get r = c.get r := by rw [Conn.get, hc₁, Conn.get]
  have hrefs : c₁.refs = c.refs := by rw [Conn.refs, hc₁, Conn.refs]
  have hmod : (c₁.mod r fun s => { s with trailing := true }).get r =
      { c.get r with trailing := true } := by
    rw [Conn.get_mod (f := fun s => { s with trailing := true }) (by rwa [hrefs]) (fun _ => rfl)
      (by rwa [hrefs]), hget]
  refine .bind (Q := fun _ c' => c' = c₁.mod r fun s => { s with trailing := true }) (.change rfl) ?_
  rintro _ _ rfl
  refine .bind (appendBlockBytes_ends (by rw [hmod])) fun _ c₃ hc₃ => ?_
  have hrefs₃ : c₃.refs = c.refs := by
    rw [Conn.refs, hc₃, ← hrefs]
    exact Conn.refs_mod (f := fun s => { s with trailing := true }) fun _ => rfl
  refine .ite (fun _ => headersDone_ends ?_ ?_ ?_ ?_) fun _ => .change trivial
  · rwa [hrefs₃]
  · rwa [hrefs₃]
  · rw [Conn.get, hc₃, ← Conn.get, hmod]
  · rw [Conn.get, hc₃, ← Conn.get, hmod]
    exact hidle

theorem onLateTrailers_ends {f : Frame} {fragment : Bytes} (he : f.has Flags.endStream = true) :
    Ends Stop.ofLimits c (onLateTrailers h cd f fragment) fun _ _ => True := by
  refine .bind (Q := fun _ _ => True) (.when (fun hno => ?_) fun _ => trivial) fun _ _ _ => ?_
  · simp [he] at hno
  refine .bind control_ends fun _ _ _ => ?_
  refine .bind (Q := fun _ _ => True) (.change trivial) fun _ _ _ => ?_
  exact .when (fun _ => endIgnored_ends) fun _ => trivial

theorem onHeaders_ends {f : Frame} (hp : c.Past f.stream) (hn : c.refs.Nodup)
    (he : f.has Flags.endStream = true) (hodd : f.stream % 2 = 1)
    (hfrag : (headersFragment f).isSome = true) :
    Ends Stop.ofLimits c (onHeaders h cd f) fun _ _ => True := by
  refine .bind (Q := fun _ c' => c' = c) (.when (fun hno => ?_) fun _ => rfl) ?_
  · have : f.stream % 2 = 0 := by
      rcases hno with hzero | heven
      · rw [hzero]
      · exact heven
    rw [hodd] at this
    cases this
  intro _ c₀ hc₀
  rw [hc₀]
  split
  · rename_i hnone
    rw [hnone] at hfrag
    cases hfrag
  · refine .get_bind ?_
    split
    · rename_i r hfind
      obtain ⟨hr, hid⟩ := Conn.find_some hfind
      obtain ⟨hphase, hs⟩ := hp.2 (c.get r) (Conn.get_mem hr).1 (hid hn)
      exact onTrailers_ends hr hn he hphase hs
    · refine .get_bind (.ite (fun _ => onLateTrailers_ends he) fun hnew => ?_)
      exact absurd hp.1 hnew

theorem onContinuation_ends {f : Frame} (hn : c.refs.Nodup)
    (hc : c.ignoring ≠ 0 ∨ ∃ r ∈ c.refs, c.continuing = some r ∧ (c.get r).trailing = true ∧
      (c.get r).Idles) :
    Ends Stop.ofLimits c (onContinuation h cd f) fun _ _ => True := by
  refine .get_bind (.ite (fun _ => ignoreBlock_ends) fun hzero => .get_bind ?_)
  obtain ⟨r, hr, hcont, ht, hs⟩ := hc.resolve_left hzero
  rw [hcont]
  refine .bind (Q := fun _ c' => c'.streams = c.streams)
    (.when (fun _ => control_ends) fun _ => rfl) fun _ c₁ hc₁ => ?_
  have hget : c₁.get r = c.get r := by rw [Conn.get, hc₁, Conn.get]
  refine .bind (appendBlockBytes_ends (by rw [hget, ht])) fun _ c₂ hc₂ => ?_
  have hget₂ : c₂.get r = c.get r := by rw [Conn.get, hc₂, ← Conn.get, hget]
  have hrefs₂ : c₂.refs = c.refs := by rw [Conn.refs, hc₂, hc₁, Conn.refs]
  refine .when (fun _ => headersDone_ends ?_ ?_ ?_ ?_) fun _ => trivial
  · rwa [hrefs₂]
  · rwa [hrefs₂]
  · rwa [hget₂]
  · rwa [hget₂]

/-- With `continuing` where it should be, late trailers are taken in their turn. -/
theorem readOne_late {f : Frame} (hk : Rest cd c.core) (hn : c.refs.Nodup) (hh : c.core.Home)
    (hlate : c.Late f) : Ends Stop.ofLimits c (readOne h cd f) fun _ _ => True := by
  obtain ⟨hpast, hkind⟩ := hlate
  -- the block that is open is at a stream of the table, or it is dropped as it comes
  have hopen : (∃ r ∈ c.refs, c.continuing = some r ∧ c.ignoring = 0 ∧
      (assembly c.trace).openBlock =
        some ((c.get r).id, c.core.arrived (c.get r).line.toStanding)) ∨
      c.continuing = none ∧ (assembly c.trace).openBlock =
        if c.ignoring = 0 then none else some (c.ignoring, c.trailerBlock) := by
    cases hcont : c.continuing with
    | none => exact .inr ⟨rfl, hk.placed.ignored hcont⟩
    | some r =>
      have hr : r ∈ c.refs := by
        rw [← Conn.core_refs]
        exact (hh r hcont).1
      obtain ⟨hzero, hon⟩ := hk.placed.here r hcont
      exact .inl ⟨r, hr, rfl, hzero, Conn.get_on hr hon⟩
  refine .bind (Q := fun _ c' => c'.streams = c.streams ∧ c'.continuing = c.continuing ∧
    c'.ignoring = c.ignoring ∧ c'.lastStream = c.lastStream) (.change ⟨rfl, rfl, rfl, rfl⟩)
    fun _ c₁ ⟨hst, hcont₁, hign₁, hlast₁⟩ => ?_
  have hget (r : Ref) : c₁.get r = c.get r := by rw [Conn.get, hst, Conn.get]
  have hrefs : c₁.refs = c.refs := by rw [Conn.refs, hst, Conn.refs]
  refine .bind (Q := fun _ c' => c' = c₁)
    (.when (fun _ => stop_ends (.inl rfl)) fun _ => rfl) fun _ c₂ hc₂ => ?_
  rw [hc₂]
  rcases hkind with ⟨ht, he, hodd, hfrag, hnone⟩ | ⟨ht, block, hblock⟩
  · -- no block is open
    have hclear : c.continuing = none ∧ c.ignoring = 0 := by
      rcases hopen with ⟨r, -, -, -, hsome⟩ | ⟨hcont, hsome⟩
      · rw [hnone] at hsome
        cases hsome
      · refine ⟨hcont, ?_⟩
        by_contra hne
        rw [hnone, if_neg hne] at hsome
        cases hsome
    refine .bind (Q := fun _ c' => c' = c₁) ?_ fun _ c₃ hc₃ => ?_
    · refine .get_bind ?_
      rw [hcont₁, hclear.1]
      exact .pure rfl
    rw [hc₃]
    refine .bind (Q := fun _ c' => c' = c₁) ?_ fun _ c₄ hc₄ => ?_
    · refine .get_bind (.when (fun hno => ?_) fun _ => rfl)
      rw [hign₁] at hno
      exact absurd hclear.2 hno.1
    rw [hc₄, ht]
    refine onHeaders_ends ⟨?_, ?_⟩ (by rwa [hrefs]) he hodd hfrag
    · rw [hlast₁]
      exact hpast.1
    · rw [hst]
      exact hpast.2
  · -- the frame goes on with it
    rcases hopen with ⟨r, hr, hcont, hzero, hsome⟩ | ⟨hcont, hsome⟩
    · have hid : (c.get r).id = f.stream := by
        rw [hblock] at hsome
        exact (congrArg Prod.fst (Option.some.inj hsome)).symm
      obtain ⟨hphase, hs⟩ := hpast.2 (c.get r) (Conn.get_mem hr).1 hid
      have htrail : (c.get r).trailing = true := by
        have htell := Conn.get_on hr (hk.telling r hcont)
        refine Bool.eq_true_of_not_eq_false fun hno => ?_
        exact hphase (htell.1 hno)
      refine .bind (Q := fun _ c' => c' = c₁) ?_ fun _ c₃ hc₃ => ?_
      · refine .get_bind ?_
        rw [hcont₁, hcont]
        refine .get_bind (.ite (fun _ => .get_bind (.ite (fun hno => ?_) fun _ => .pure rfl))
          fun hno => absurd ?_ hno)
        · rw [hget, hid] at hno
          exact absurd ht (hno.resolve_right fun h => h rfl)
        · rwa [hrefs]
      rw [hc₃]
      refine .bind (Q := fun _ c' => c' = c₁) ?_ fun _ c₄ hc₄ => ?_
      · refine .get_bind (.when (fun hno => ?_) fun _ => rfl)
        rw [hign₁] at hno
        exact absurd hzero hno.1
      rw [hc₄, ht]
      refine onContinuation_ends (by rwa [hrefs]) (.inr ⟨r, by rwa [hrefs], ?_, ?_, ?_⟩)
      · rw [hcont₁, hcont]
      · rw [hget, htrail]
      · rw [hget]
        exact hs.imp_right fun hw => hw.1
    · have hne : c.ignoring ≠ 0 := by
        intro hzero
        rw [hblock, if_pos hzero] at hsome
        cases hsome
      have hid : c.ignoring = f.stream := by
        rw [hblock, if_neg hne] at hsome
        exact (congrArg Prod.fst (Option.some.inj hsome)).symm
      refine .bind (Q := fun _ c' => c' = c₁) ?_ fun _ c₃ hc₃ => ?_
      · refine .get_bind ?_
        rw [hcont₁, hcont]
        exact .pure rfl
      rw [hc₃]
      refine .bind (Q := fun _ c' => c' = c₁) ?_ fun _ c₄ hc₄ => ?_
      · refine .get_bind (.when (fun hno => ?_) fun _ => rfl)
        rw [hign₁, hid] at hno
        exact absurd ht (hno.2.resolve_right fun h => h rfl)
      rw [hc₄, ht]
      exact onContinuation_ends (by rwa [hrefs]) (.inl (by rwa [hign₁]))

/-! ## Where `continuing` points -/

/-- The header block that is open is the one the connection puts together. -/
structure Tracked (h : Host) (cd : Codec D) (c : Conn D) : Prop where
  /-- `continuing` points at a stream of the table, the one the block was opened on. -/
  here : ∀ r, c.continuing = some r → ∃ s ∈ c.streams, s.ref = r ∧ Opened s.id c.trace
  /-- What has been put together there is what the client has sent of the block. -/
  block : c.reading = true → ∀ r, c.continuing = some r → (assembly c.trace).openBlock =
    some ((c.get r).id, if (c.get r).trailing then c.trailerBlock else (c.get r).block)
  /-- With `continuing` null, the block that is open belongs to a stream that is forgotten. -/
  ignored : c.reading = true → c.continuing = none → (assembly c.trace).openBlock =
    if c.ignoring = 0 then none else some (c.ignoring, c.trailerBlock)
  /-- The trailers of a stream that was answered or reset do not end the connection. -/
  late : c.reading = true → ∀ f, c.Late f → ∀ e, (readOne h cd f c).1 = .error e → e.ofLimits

theorem Sound.tracked {nice : Prop} (hs : Sound h cd nice True c) : Tracked h cd c where
  here r hr := by
    obtain ⟨hmem, hon⟩ := hs.home trivial r hr
    obtain ⟨l, hl, hlr⟩ := List.mem_map.1 hmem
    obtain ⟨s, hs, rfl⟩ := List.mem_map.1 hl
    exact ⟨s, hs, hlr, hon s.line hl hlr⟩
  block hread r hr := by
    have hmem : r ∈ c.refs := by
      rw [← Conn.core_refs]
      exact (hs.home trivial r hr).1
    exact Conn.get_on hmem ((hs.rest hread).placed.here r hr).2
  ignored hread hnone := (hs.rest hread).placed.ignored hnone
  late hread f hlate :=
    (readOne_late (hs.rest hread) hs.good.refs_nodup (hs.home trivial) hlate).1

/-- In every run whose steps keep the stream `continuing` points at, the open header block is
tracked. -/
theorem run_tracked (hrun : Run h cd (fun c op => op.act.KeepsOpen c) c) : Tracked h cd c := by
  have hs : Sound h cd False True c := Run.sound hrun False.elim fun _ _ _ hok => hok
  exact hs.tracked

theorem run_tracked_halfTrailers :
    Tracked sampleHost sampleCodec (sampleAfter halfTrailers) ∧
      (sampleAfter halfTrailers).continuing = some 0 := by
  refine ⟨run_tracked (.steps (.opened 0 0 none) ?_), by decide +kernel⟩
  refine ⟨?_, trivial, ?_, trivial, trivial⟩
  · decide +kernel
  · decide +kernel

/-- The answer is written while the trailers are half received: `continuing` is left at a
stream that has been recycled. -/
theorem tracked_fails_answeredFirst :
    ¬∀ c, Reachable sampleHost sampleCodec c → Tracked sampleHost sampleCodec c := by
  intro hall
  have hrun : Reachable sampleHost sampleCodec (sampleAfter answeredFirst) := by
    refine .steps (.opened 0 0 none) ?_
    decide +kernel
  have hcont : (sampleAfter answeredFirst).continuing = some 0 := by decide +kernel
  have hnone : (sampleAfter answeredFirst).streams = [] := by decide +kernel
  obtain ⟨s, hs, -⟩ := (hall _ hrun).here 0 hcont
  rw [hnone] at hs
  cases hs

/-! ## What the decoder is fed -/

/-- Every whole block of the client has been through the decoder once, in order, and its table
is the one a decoder fed all of them has. -/
structure InStep (cd : Codec D) (c : Conn D) : Prop where
  fed : fedBlocks c.trace = (assembly c.trace).blocks
  table : heardDecoder cd c.trace = some c.decoder

/-- A frame is not read through a `continuing` that points at no stream of the table, or it is
refused at once. -/
def Act.Stays (c : Conn D) : Act → Prop
  | .frame f => f.len ≤ defaultMaxFrame → ∀ r, c.continuing = some r → r ∉ c.refs →
      r ∈ c.spare ∧ ¬(f.type = .continuation ∧ f.stream = 0)
  | _ => True

/-- With `continuing` at a stream of the table, or null, a frame is read where it belongs. -/
theorem readFrame_astray {f : Frame} (hs : Sound h cd False False c) (hread : c.reading = true)
    (hmem : ∀ r, c.continuing = some r → r ∈ c.refs) :
    (readFrame h cd f c).2.astray = c.astray := by
  have hhome : c.core.Home := by
    intro r hr
    rw [Conn.core_refs]
    refine ⟨hmem r hr, fun l hl hlr => ?_⟩
    exact ⟨c.trace, List.suffix_refl _, _, ((hs.rest hread).placed.here r hr).2 l hl hlr⟩
  have hgo : (reader D (Conn.budget h) False True).Goes c (readFrame h cd f) _ :=
    readFrame_goes (hs.rest hread) hread fun _ => hhome
  exact hgo.along (P := fun k => k.astray = c.core.astray) hs.good
    (fun move _ hk => (move.astray trivial).trans hk) rfl

/-- A recycled stream has the id 0: any frame but a CONTINUATION on stream 0 is refused. -/
theorem readFrame_recycled {f : Frame} (hr : c.continuing = some r) (hmem : r ∉ c.refs)
    (hf : f.len ≤ defaultMaxFrame → r ∈ c.spare ∧ ¬(f.type = .continuation ∧ f.stream = 0)) :
    (readFrame h cd f c).2.astray = c.astray := by
  obtain ⟨c₁, hc₁⟩ : ∃ c₁, c₁ = ({ c.log (.read f) with
      lastReadNs := if c.env.waited || c.lastReadNs == 0 then c.now else c.lastReadNs } : Conn D) :=
    ⟨_, rfl⟩
  obtain ⟨handled, hrun⟩ : ∃ handled : M D Unit, readOne h cd f c = (do
      when (defaultMaxFrame < f.len) (stop .frameSize)
      checkContinuing f
      handled : M D Unit) c₁ := by
    rw [hc₁]
    exact ⟨_, rfl⟩
  have hstop : ∃ e, readOne h cd f c = (.error e, { c₁ with reading := false }) := by
    rw [hrun]
    by_cases hlen : defaultMaxFrame < f.len
    · refine ⟨.frameSize, ?_⟩
      rw [Prog.bind_run, when, if_pos hlen]
      rfl
    · obtain ⟨hspare, hother⟩ := hf (Nat.le_of_not_lt hlen)
      have hcheck : checkContinuing f c₁ = (stop .protocol : M D Unit) c₁ := by
        have hmem₁ : r ∉ c₁.refs := by rwa [hc₁]
        have hspare₁ : r ∈ c₁.spare := by rwa [hc₁]
        have hcont₁ : c₁.continuing = some r := by rwa [hc₁]
        rw [not_and_or] at hother
        rw [checkContinuing]
        have hget : (get : M D (Conn D)) c₁ = (.ok c₁, c₁) := rfl
        rw [Prog.bind_run, hget]
        dsimp only
        rw [hcont₁]
        show (if r ∈ c₁.refs then _ else _ : M D Unit) c₁ = _
        rw [if_neg hmem₁]
        show (if r ∈ c₁.spare then _ else _ : M D Unit) c₁ = _
        rw [if_pos hspare₁, Prog.bind_run, when, if_pos hother]
        rfl
      refine ⟨.protocol, ?_⟩
      rw [Prog.bind_run, when, if_neg hlen]
      show (checkContinuing f >>= fun _ => _ : M D Unit) c₁ = _
      rw [Prog.bind_run, hcheck]
      rfl
  obtain ⟨e, hstop⟩ := hstop
  rw [readFrame, Prog.bind_run, hstop, hc₁]
  rfl

theorem step_astray {op : Op} (hs : Sound h cd False False c) (hen : op.act.enabled c)
    (hstays : op.act.Stays c) : (step h cd op c).astray = c.astray := by
  have hs' : Sound h cd False False ({ c with env := op.env } : Conn D) :=
    ⟨hs.good, hs.rest, hs.home⟩
  refine hs.stepAlong (P := fun k => k.astray = c.core.astray) hen
    (fun move hk => move.blocks.2.2.2.2.trans hk) (fun move hk => ?_) (fun f hf => ?_)
    (fun r x _ => congrArg (·.astray) (Conn.core_finishCall hs'.good.awake)) rfl
  · cases move with
    | taking move => rwa [move.bearing]
    | listened => exact hk
  · rw [hf] at hen hstays
    by_cases hmem : ∀ r, c.continuing = some r → r ∈ c.refs
    · exact readFrame_astray hs' hen hmem
    · rw [not_forall] at hmem
      obtain ⟨r, hmem⟩ := hmem
      rw [Classical.not_imp] at hmem
      exact readFrame_recycled (c := { c with env := op.env }) hmem.1 hmem.2 fun hlen =>
        hstays hlen r hmem.1 hmem.2

theorem Run.astray (hrun : Run h cd (fun c op => op.act.Stays c) c) :
    Sound h cd False False c ∧ c.astray = false := by
  induction hrun with
  | opened callsLeft now wire => exact ⟨.opened, rfl⟩
  | step _ hen hok ih =>
    exact ⟨ih.1.step hen False.elim False.elim, (step_astray ih.1 hen hok).trans ih.2⟩

/-- In every run whose frames are read where they belong, the decoder is in step with the
client as long as the connection goes on. -/
theorem run_inStep (hrun : Run h cd (fun c op => op.act.Stays c) c)
    (hon : c.reading = true ∨ c.astray = true) : InStep cd c := by
  obtain ⟨hs, hastray⟩ := hrun.astray
  have hread : c.reading = true := hon.resolve_right (by rw [hastray]; nofun)
  obtain ⟨hfed, htable⟩ := (hs.rest hread).owing
  rw [List.append_nil] at hfed
  exact ⟨hfed, htable⟩

theorem run_inStep_halfTrailers :
    InStep sampleCodec (sampleAfter halfTrailers) ∧
      fedBlocks (sampleAfter halfTrailers).trace = [[0x83, 0x84, 0x86]] := by
  refine ⟨run_inStep (.steps (.opened 0 0 none) ⟨?_, ?_, ?_, ?_, trivial⟩) (.inl ?_), ?_⟩
  · decide +kernel
  · intro _ r hr
    cases hr
  · decide +kernel
  · intro _ r hr
    have hnone : (sampleAfter (halfTrailers.take 1)).continuing = none := by decide +kernel
    cases hnone.symm.trans hr
  · decide +kernel
  · decide +kernel

/-- A CONTINUATION on stream 0 is taken for the rest of a block that nobody sent. -/
theorem inStep_fails_answeredFirst :
    ¬∀ c, Reachable sampleHost sampleCodec c → c.reading = true ∨ c.astray = true →
      InStep sampleCodec c := by
  intro hall
  have hrun : Reachable sampleHost sampleCodec
      (sampleAfter (answeredFirst ++ [.frame ⟨.continuation, Flags.endHeaders, 0, []⟩])) := by
    refine .steps (.opened 0 0 none) ?_
    decide +kernel
  have hfed := (hall _ hrun (.inr (by decide +kernel))).fed
  revert hfed
  decide +kernel

end Nilo.Http2
