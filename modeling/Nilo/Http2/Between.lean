import Nilo.Http2.Promise

/-!
# Between two frames

`Good` holds at every point of every function. What is said here holds only
where the connection is between two frames and still reads (`Rest`): while a
frame is handled, a header block may be whole and not yet decoded, a SETTINGS
may be applied in part, bytes may be on their way into a pipe.

* `Core.Half` — a request without its headers is the one being continued.
* `Core.Telling` — the one being continued has its headers when it sends trailers.
* `Core.Capped` — no window of a stream that is not reset is past 2^31-1.
* `Core.Agreed` — every SETTINGS read has been acknowledged.
* `Core.Heard` — a call that waits for room has been heard, or will be.
* `Owing` — every whole block has been through the decoder, in order.
* `Placed` — the block being put together is the one the client is sending.

None of them is touched by accounting or by a step of a stream's life
(`Plain.rest`); the frame reader's own moves break and mend them.
-/

namespace Nilo.Http2

open Nilo.Lib

variable {D : Type} {B : Nat} {nice : Prop} {k k' : Core D}

/-! ## What lives leave alone -/

/-- An event that brings no frame, no block and no agreement. -/
def Event.aside : Event → Bool
  | .read _ | .fed _ | .wrote .settingsAck => false
  | _ => true

theorem Event.aside_of_routine {e : Event} (h : e.routine = true) : e.aside = true := by
  cases e with
  | wrote f =>
    cases f with
    | settingsAck => cases h
    | _ => rfl
  | topped | admitted => rfl
  | _ => cases h

theorem terms_aside {e : Event} (h : e.aside = true) (which : Setting) (init : Nat) (t : Trace) :
    terms which init (e :: t) = terms which init t := by
  cases e with
  | read | fed => cases h
  | wrote f =>
    refine terms_wrote ?_
    rintro rfl
    cases h
  | _ => rfl

theorem assembly_aside {e : Event} (h : e.aside = true) (t : Trace) :
    assembly (e :: t) = assembly t := by
  cases e with
  | read => cases h
  | _ => rfl

theorem fedBlocks_aside {e : Event} (h : e.aside = true) (t : Trace) :
    fedBlocks (e :: t) = fedBlocks t := by
  cases e with
  | fed => cases h
  | _ => rfl

theorem heardDecoder_aside {e : Event} (h : e.aside = true) (cd : Codec D) (t : Trace) :
    heardDecoder cd (e :: t) = heardDecoder cd t := by
  cases e with
  | read => cases h
  | _ => rfl

theorem Calm.trace_aside (h : Calm B k k') :
    k'.trace = k.trace ∨ ∃ e : Event, e.aside = true ∧ k'.trace = e :: k.trace := by
  rcases h.trace with ht | ⟨e, he, ht⟩
  · exact .inl ht
  · exact .inr ⟨e, Event.aside_of_routine he, ht⟩

theorem Plain.trace (h : Plain B nice k k') :
    k'.trace = k.trace ∨ ∃ e : Event, e.aside = true ∧ k'.trace = e :: k.trace := by
  cases h with
  | calm h => exact h.trace_aside
  | started r id _ _ => exact .inr ⟨.started id, rfl, rfl⟩
  | leave r id why _ _ _ _ => exact .inr ⟨.left id why, rfl, rfl⟩
  | refuse id _ => exact .inr ⟨.wrote (.rstStream id .refusedStream), rfl, rfl⟩
  | goaway code _ _ => exact .inr ⟨.wrote (.goaway k.lastStream code), rfl, rfl⟩
  | _ => exact .inl rfl

theorem Plain.reading (h : Plain B nice k k') (hr : k'.reading = true) : k.reading = true := by
  cases h with
  | calm h => exact h.reading hr
  | goawayLost => cases hr
  | _ => exact hr

/-- The header block being read, and what is done with it, are the frame reader's. -/
theorem Plain.blocks (h : Plain B nice k k') :
    k'.continuing = k.continuing ∧ k'.trailerBlock = k.trailerBlock ∧ k'.ignoring = k.ignoring ∧
      k'.decoder = k.decoder ∧ k'.astray = k.astray := by
  cases h with
  | calm h =>
    rw [h.bearing]
    exact ⟨rfl, rfl, rfl, rfl, rfl⟩
  | _ => exact ⟨rfl, rfl, rfl, rfl, rfl⟩

/-- A stream as it was, as far as its header block goes. -/
structure Standing.Same (s s' : Standing) : Prop where
  ref : s'.ref = s.ref
  id : s'.id = s.id
  trailing : s'.trailing = s.trailing
  block : s'.block = s.block
  headers : s'.phase = .headers → s.phase = .headers

theorem Standing.Same.refl (s : Standing) : s.Same s := ⟨rfl, rfl, rfl, rfl, fun h => h⟩

/-- The streams of a changed table, by those they were. -/
theorem Core.standings_from {r : Ref} {f : Line → Line}
    (hf : ∀ l : Line, l.toStanding.Same (f l).toStanding) :
    ∀ s' ∈ (k.edit r f).standings, ∃ s ∈ k.standings, s.Same s' := by
  intro s' hs'
  obtain ⟨l', hl', rfl⟩ := List.mem_map.1 hs'
  obtain ⟨l, hl, rfl⟩ := mem_edit.1 hl'
  refine ⟨l.toStanding, List.mem_map_of_mem hl, ?_⟩
  split
  · exact hf l
  · exact .refl _

/-- No stream is new, and none goes back to its headers. -/
theorem Plain.standings (h : Plain B nice k k') :
    ∀ s' ∈ k'.standings, ∃ s ∈ k.standings, s.Same s' := by
  cases h with
  | calm h =>
    rw [h.standings]
    exact fun s hs => ⟨s, hs, .refl s⟩
  | launch | answering =>
    exact Core.standings_from fun _ => ⟨rfl, rfl, rfl, rfl, nofun⟩
  | classify | defer | holdFor | undefer | unhold | closeIn | failEvents =>
    exact Core.standings_from fun _ => ⟨rfl, rfl, rfl, rfl, fun h => h⟩
  | leave r id why _ _ _ _ =>
    intro s hs
    obtain ⟨l, hl, rfl⟩ := List.mem_map.1 hs
    exact ⟨l.toStanding, List.mem_map_of_mem (List.mem_of_mem_filter hl), .refl _⟩
  | _ => exact fun s hs => ⟨s, hs, .refl s⟩

/-- What is said of the stream under a reference for good stays said. -/
theorem Plain.on_standing (h : Plain B nice k k') {r : Ref} {P : Standing → Prop}
    (hP : ∀ {s s'}, s.Same s' → P s → P s') (hk : k.On r fun l => P l.toStanding) :
    k'.On r fun l => P l.toStanding := by
  intro l' hl' hr
  obtain ⟨s, hs, hsame⟩ := h.standings _ (List.mem_map_of_mem hl')
  obtain ⟨l, hl, rfl⟩ := List.mem_map.1 hs
  exact hP hsame (hk l hl (hsame.ref.symm.trans hr))

/-- Past its headers, a stream stays there. -/
theorem Plain.begun (h : Plain B nice k k') {r : Ref} (hk : k.On r (·.phase ≠ .headers)) :
    k'.On r (·.phase ≠ .headers) :=
  h.on_standing (P := fun s => s.phase ≠ .headers) (fun hs hn hp => hn (hs.headers hp)) hk

/-! ## Requests without their headers -/

/-- A request without its headers is the one under `x`. -/
def Core.Half (x : Option Ref) (k : Core D) : Prop :=
  ∀ s ∈ k.standings, s.phase = .headers → x = some s.ref

theorem Plain.half (h : Plain B nice k k') {x : Option Ref} (hk : k.Half x) : k'.Half x := by
  intro s' hs' hp
  obtain ⟨s, hs, hsame⟩ := h.standings s' hs'
  rw [hsame.ref]
  exact hk s hs (hsame.headers hp)

theorem Taking.half (h : Taking B k k') {x : Option Ref} (hk : k.Half x) : k'.Half x := by
  rwa [Core.Half, h.standings]

/-- The last request without its headers has them. -/
theorem Core.Half.done {r : Ref} (h : k.Half (some r)) (hr : k.On r (·.phase ≠ .headers)) :
    k.Half none := by
  intro s hs hp
  obtain ⟨l, hl, rfl⟩ := List.mem_map.1 hs
  have hlr : l.ref = r := (Option.some.inj (h _ hs hp)).symm
  exact absurd hp (hr l hl hlr)

theorem Core.Half.of_none (h : k.Half none) (x : Option Ref) : k.Half x := by
  intro s hs hp
  cases h s hs hp

/-- The stream being continued is without its headers, unless it is sending its trailers. -/
def Core.Telling (k : Core D) : Prop :=
  ∀ r, k.continuing = some r → k.On r fun l => l.trailing = false ↔ l.phase = .headers

theorem Taking.telling (h : Taking B k k') (hk : k.Telling) : k'.Telling := by
  intro r hr l hl hlr
  rw [h.bearing] at hr
  have hls : l.toStanding ∈ k.standings := h.standings ▸ List.mem_map_of_mem hl
  exact Core.On.standing (P := fun s => s.trailing = false ↔ s.phase = .headers) (hk r hr)
    l.toStanding hls hlr

/-- A request that is being continued stays without its headers. -/
theorem Plain.telling (h : Plain B nice k k') (hk : k.Telling) : k'.Telling := by
  have edits {q : Ref} {f : Line → Line} (hr : ∀ l, (f l).ref = l.ref)
      (hf : ∀ l ∈ k.lines, l.ref = q → k.continuing = some q →
        (l.trailing = false ↔ l.phase = .headers) → ((f l).trailing = false ↔ (f l).phase = .headers)) :
      ∀ r, k.continuing = some r → ∀ l ∈ Lib.edit (·.ref) q f k.lines, l.ref = r →
        (l.trailing = false ↔ l.phase = .headers) := by
    intro r hcont
    refine forall_mem_edit (hk r hcont) ?_
    intro l hl hlq hsame hlr
    rw [hr] at hlr
    refine hf l hl hlq ?_ (hsame hlr)
    rw [hcont, ← hlr, hlq]
  cases h with
  | calm h =>
    exact (Taking.calm h).telling hk
  | launch q hon =>
    refine edits (fun _ => rfl) fun l hl hlq hcont hsame => ?_
    rcases hon l hl hlq with hrun | ⟨-, -, -, hne⟩
    · rw [hrun] at hsame
      exact hsame
    · exact absurd hcont hne
  | answering q _ hon =>
    refine edits (fun _ => rfl) fun l hl hlq hcont hsame => ?_
    constructor
    · intro ht
      exact absurd hcont ((hon l hl hlq).2.2 (hsame.1 ht)).2.2
    · exact nofun
  | classify | defer | holdFor | undefer | unhold | closeIn | failEvents =>
    exact edits (fun _ => rfl) fun _ _ _ _ hsame => hsame
  | leave q id why _ _ _ _ => exact fun r hr l hl => hk r hr l (List.mem_of_mem_filter hl)
  | _ => exact hk

/-! ## Send windows -/

/-- No stream's window is past 2^31-1, but for those reset and the one under `x`. -/
def Core.Capped (x : Option Ref) (k : Core D) : Prop :=
  ∀ l ∈ k.lines, x ≠ some l.ref → l.reset = false → l.sendWindow ≤ maxWindow

theorem Core.Capped.edit {x : Option Ref} (hk : k.Capped x) {r : Ref} {f : Line → Line}
    (hr : ∀ l, (f l).ref = l.ref) (hz : ∀ l, (f l).reset = false → l.reset = false)
    (hw : ∀ l, (f l).sendWindow ≤ l.sendWindow) :
    ∀ l ∈ Lib.edit (·.ref) r f k.lines, x ≠ some l.ref → l.reset = false →
      l.sendWindow ≤ maxWindow := by
  refine forall_mem_edit hk ?_
  intro l _ _ hcap hx hreset
  exact le_trans (hw l) (hcap (hr l ▸ hx) (hz l hreset))

theorem Calm.capped (h : Calm B k k') {x : Option Ref} (hk : k.Capped x) : k'.Capped x := by
  cases h with
  | data r id payload e _ _ _ _ =>
    refine hk.edit (fun _ => rfl) (fun _ h => h) fun l => ?_
    show l.sendWindow - payload.length ≤ l.sendWindow
    omega
  | markReset r =>
    refine hk.edit (fun _ => rfl) ?_ fun _ => le_refl _
    intro l hreset
    cases hreset
  | hold | giveBack | starve | unstarve | topped | gathered | pulled | whole | wants | stained =>
    exact hk.edit (fun _ => rfl) (fun _ h => h) fun _ => le_refl _
  | settled p =>
    intro l' hl'
    obtain ⟨l, hl, rfl⟩ := List.mem_map.1 hl'
    split <;> exact hk l hl
  | _ => exact hk

theorem Taking.capped (h : Taking B k k') {x : Option Ref} (hk : k.Capped x) : k'.Capped x := by
  cases h with
  | calm h => exact h.capped hk
  | _ => exact hk.edit (fun _ => rfl) (fun _ h => h) fun _ => le_refl _

theorem Plain.capped (h : Plain B nice k k') {x : Option Ref} (hk : k.Capped x) : k'.Capped x := by
  cases h with
  | calm h => exact h.capped hk
  | classify | launch | answering | defer | holdFor | undefer | unhold | closeIn | failEvents =>
    exact hk.edit (fun _ => rfl) (fun _ h => h) fun _ => le_refl _
  | leave r id why _ _ _ _ => exact fun l hl => hk l (List.mem_of_mem_filter hl)
  | _ => exact hk

/-- A stream that is reset stays so. -/
theorem Plain.resets (h : Plain B nice k k') {r : Ref} (hk : k.On r (·.reset = true)) :
    k'.On r (·.reset = true) := by
  have edits {q : Ref} {f : Line → Line} (hr : ∀ l, (f l).ref = l.ref)
      (hz : ∀ l, l.reset = true → (f l).reset = true) :
      ∀ l ∈ Lib.edit (·.ref) q f k.lines, l.ref = r → l.reset = true :=
    forall_mem_edit hk fun l _ _ hl hlr => hz l (hl (hr l ▸ hlr))
  cases h with
  | calm h =>
    cases h with
    | markReset => exact edits (fun _ => rfl) fun _ _ => rfl
    | settled p =>
      intro l' hl'
      obtain ⟨l, hl, rfl⟩ := List.mem_map.1 hl'
      split <;> exact hk l hl
    | data | hold | giveBack | starve | unstarve | topped | gathered | pulled | whole | wants
    | stained => exact edits (fun _ => rfl) fun _ => id
    | _ => exact hk
  | classify | launch | answering | defer | holdFor | undefer | unhold | closeIn | failEvents =>
    exact edits (fun _ => rfl) fun _ => id
  | leave r id why _ _ _ _ => exact fun l hl => hk l (List.mem_of_mem_filter hl)
  | _ => exact hk

/-- The one window that may be past the cap is that of a stream that is reset. -/
theorem Core.Capped.done {r : Ref} (h : k.Capped (some r)) (hr : k.On r (·.reset = true)) :
    k.Capped none := by
  intro l hl _ hreset
  by_cases hlr : l.ref = r
  · rw [hr l hl hlr] at hreset
    cases hreset
  · exact h l hl (fun heq => hlr (Option.some.inj heq).symm) hreset

/-! ## Calls that wait for room -/

/-- The call under a reference that waits for room has been heard, or will be. -/
def Core.Heard (w : Prop) (k : Core D) (r : Ref) : Prop :=
  k.On r fun l => l.phase = .running → l.wanted ≠ 0 →
    k.attention = true ∨ k.reserving = true ∨ w

theorem Calm.heard (h : Calm B k k') {w : Prop} {r : Ref} (hk : k.Heard w r) : k'.Heard w r := by
  cases h with
  | wants => exact fun _ _ _ _ _ => .inl rfl
  | poked => exact fun _ _ _ _ _ => .inl rfl
  | reserve => exact fun _ _ _ _ _ => .inr (.inl rfl)
  | unreserve hnone => exact fun l hl _ hrun hwant => absurd (hnone l hl hrun) hwant
  | settled p =>
    intro l' hl'
    obtain ⟨l, hl, rfl⟩ := List.mem_map.1 hl'
    split
    · exact fun _ _ hwant => absurd rfl hwant
    · exact hk l hl
  | data | hold | giveBack | starve | unstarve | topped | gathered | pulled | whole | stained
  | markReset =>
    exact forall_mem_edit hk fun _ _ _ hl => hl
  | _ => exact hk

theorem Taking.heard (h : Taking B k k') {w : Prop} {r : Ref} (hk : k.Heard w r) :
    k'.Heard w r := by
  cases h with
  | calm h => exact h.heard hk
  | _ => exact forall_mem_edit hk fun _ _ _ hl => hl

theorem Plain.heard (h : Plain B nice k k') (hg : Good B nice k) {w : Prop} {r : Ref}
    (hk : k.Heard w r) : k'.Heard w r := by
  cases h with
  | calm h => exact h.heard hk
  | launch q hon =>
    refine forall_mem_edit hk ?_
    intro l hl hlq hheard hlr _ hwant
    rcases hon l hl hlq with hrun | ⟨hhead, -⟩
    · exact hheard hlr hrun hwant
    · -- a request without its headers waits for nothing
      exact absurd ((hg.ledger.lines l hl).fresh hhead).2.1 hwant
  | answering => exact forall_mem_edit hk fun _ _ _ _ _ => nofun
  | classify | defer | holdFor | undefer | unhold | closeIn | failEvents =>
    exact forall_mem_edit hk fun _ _ _ hl => hl
  | leave r id why _ _ _ _ => exact fun l hl => hk l (List.mem_of_mem_filter hl)
  | _ => exact hk

/-! ## Settings -/

/-- Every SETTINGS of the client has been acknowledged. -/
def Agreed (t : Trace) : Prop := (windowTerms t).offered = [] ∧ (frameTerms t).offered = []

theorem Agreed.aside {e : Event} {t : Trace} (he : e.aside = true) (h : Agreed t) :
    Agreed (e :: t) := by
  rw [Agreed, windowTerms, frameTerms, terms_aside he, terms_aside he]
  exact h

/-! ## Header blocks -/

theorem assembly_keep (ht : k'.trace = k.trace ∨ ∃ e : Event, e.aside = true ∧
    k'.trace = e :: k.trace) : assembly k'.trace = assembly k.trace := by
  rcases ht with ht | ⟨e, he, ht⟩
  · rw [ht]
  · rw [ht, assembly_aside he]

/-- Every whole block has been through the decoder, in order, but for those of `bs`. -/
structure Owing (cd : Codec D) (bs : List Bytes) (k : Core D) : Prop where
  fed : fedBlocks k.trace ++ bs = (assembly k.trace).blocks
  table : heardDecoder cd k.trace = bs.foldlM cd.feed k.decoder

theorem Owing.keep {cd : Codec D} {bs : List Bytes} (h : Owing cd bs k)
    (ht : k'.trace = k.trace ∨ ∃ e : Event, e.aside = true ∧ k'.trace = e :: k.trace)
    (hd : k'.decoder = k.decoder) : Owing cd bs k' := by
  refine ⟨?_, ?_⟩
  · rw [assembly_keep ht, ← h.fed]
    rcases ht with ht | ⟨e, he, ht⟩
    · rw [ht]
    · rw [ht, fedBlocks_aside he]
  · rw [hd, ← h.table]
    rcases ht with ht | ⟨e, he, ht⟩
    · rw [ht]
    · rw [ht, heardDecoder_aside he]

/-- The bytes of the block arriving on a stream. -/
def Core.arrived (k : Core D) (s : Standing) : Bytes :=
  if s.trailing then k.trailerBlock else s.block

/-- The block being put together is the one the client is sending. -/
structure Placed (k : Core D) : Prop where
  here : ∀ r, k.continuing = some r → k.ignoring = 0 ∧
    k.On r fun l => (assembly k.trace).openBlock = some (l.id, k.arrived l.toStanding)
  ignored : k.continuing = none →
    (assembly k.trace).openBlock = if k.ignoring = 0 then none else some (k.ignoring, k.trailerBlock)

theorem Placed.keep (h : Placed k)
    (ht : k'.trace = k.trace ∨ ∃ e : Event, e.aside = true ∧ k'.trace = e :: k.trace)
    (hc : k'.continuing = k.continuing) (hb : k'.trailerBlock = k.trailerBlock)
    (hi : k'.ignoring = k.ignoring)
    (hs : ∀ s' ∈ k'.standings, ∃ s ∈ k.standings, s.Same s') : Placed k' := by
  refine ⟨?_, ?_⟩
  · intro r hr
    rw [hc] at hr
    rw [hi, assembly_keep ht]
    refine ⟨(h.here r hr).1, ?_⟩
    intro l' hl' hlr
    obtain ⟨s, hs, hsame⟩ := hs _ (List.mem_map_of_mem hl')
    obtain ⟨l, hl, rfl⟩ := List.mem_map.1 hs
    have := (h.here r hr).2 l hl (hsame.ref.symm.trans hlr)
    rw [this, Core.arrived, Core.arrived, hb, hsame.id, hsame.trailing, hsame.block]
  · rw [hc, assembly_keep ht, hi, hb]
    exact h.ignored

/-- No header block is open. -/
structure Clear (k : Core D) : Prop where
  continuing : k.continuing = none
  ignoring : k.ignoring = 0
  block : (assembly k.trace).openBlock = none

theorem Clear.placed (h : Clear k) : Placed k where
  here r hr := by
    rw [h.continuing] at hr
    cases hr
  ignored _ := by rw [h.block, h.ignoring, if_pos rfl]

theorem Placed.clear (h : Placed k) (hc : k.continuing = none) (hi : k.ignoring = 0) : Clear k where
  continuing := hc
  ignoring := hi
  block := by rw [h.ignored hc, hi, if_pos rfl]

theorem Plain.clear (h : Plain B nice k k') (hk : Clear k) : Clear k' := by
  obtain ⟨hc, -, hi, -, -⟩ := h.blocks
  exact ⟨hc.trans hk.continuing, hi.trans hk.ignoring, by rw [assembly_keep h.trace, hk.block]⟩

theorem Taking.trace (h : Taking B k k') :
    k'.trace = k.trace ∨ ∃ e : Event, e.aside = true ∧ k'.trace = e :: k.trace := by
  cases h with
  | calm h => exact h.trace_aside
  | _ => exact .inl rfl

theorem Taking.clear (h : Taking B k k') (hk : Clear k) : Clear k' where
  continuing := by
    rw [h.bearing]
    exact hk.continuing
  ignoring := by
    rw [h.bearing]
    exact hk.ignoring
  block := by rw [assembly_keep h.trace, hk.block]

/-! ## The whole -/

/-- What the bytes of DATA frames and the words of calls leave alone: the request being read
is the one under `x`, the window being opened that of the stream under `y`, and the blocks
still to be decoded are `bs`. -/
structure Steady (cd : Codec D) (x y : Option Ref) (bs : List Bytes) (k : Core D) : Prop where
  half : k.Half x
  capped : k.Capped y
  owing : Owing cd bs k

/-- What holds of a connection that is handling a frame. -/
structure Mid (cd : Codec D) (x y : Option Ref) (bs : List Bytes) (k : Core D) : Prop
    extends Steady cd x y bs k where
  idle : k.Idle
  heard : ∀ r, k.Heard False r

/-- What holds of a connection that is between two frames. -/
structure Rest (cd : Codec D) (k : Core D) : Prop extends Mid cd k.continuing none [] k where
  agreed : Agreed k.trace
  placed : Placed k
  telling : k.Telling

theorem Agreed.keep (h : Agreed k.trace)
    (ht : k'.trace = k.trace ∨ ∃ e : Event, e.aside = true ∧ k'.trace = e :: k.trace) :
    Agreed k'.trace := by
  rcases ht with ht | ⟨e, he, ht⟩
  · rwa [ht]
  · rw [ht]
    exact h.aside he

theorem Plain.steady {cd : Codec D} {x y : Option Ref} {bs : List Bytes} (h : Plain B nice k k')
    (hk : Steady cd x y bs k) : Steady cd x y bs k' where
  half := h.half hk.half
  capped := h.capped hk.capped
  owing := hk.owing.keep h.trace h.blocks.2.2.2.1

theorem Plain.mid {cd : Codec D} {x y : Option Ref} {bs : List Bytes} (h : Plain B nice k k')
    (hg : Good B nice k) (hk : Mid cd x y bs k) : Mid cd x y bs k' where
  toSteady := h.steady hk.toSteady
  idle := h.takes hk.idle
  heard r := h.heard hg (hk.heard r)

theorem Plain.rest {cd : Codec D} (h : Plain B nice k k') (hg : Good B nice k) (hk : Rest cd k) :
    Rest cd k' where
  toMid := by
    rw [h.blocks.1]
    exact h.mid hg hk.toMid
  agreed := hk.agreed.keep h.trace
  placed := by
    obtain ⟨hc, hb, hi, -, -⟩ := h.blocks
    exact hk.placed.keep h.trace hc hb hi h.standings
  telling := h.telling hk.telling

theorem Taking.steady {cd : Codec D} {x y : Option Ref} {bs : List Bytes} (h : Taking B k k')
    (hk : Steady cd x y bs k) : Steady cd x y bs k' where
  half := h.half hk.half
  capped := h.capped hk.capped
  owing := hk.owing.keep h.trace (by rw [h.bearing])

theorem Taking.placed (h : Taking B k k') (hk : Placed k) : Placed k' := by
  refine hk.keep h.trace (by rw [h.bearing]) (by rw [h.bearing]) (by rw [h.bearing]) ?_
  rw [h.standings]
  exact fun s hs => ⟨s, hs, .refl s⟩

/-! ## A frame is read -/

theorem Mid.log {cd : Codec D} {x y : Option Ref} {bs bs' : List Bytes} {e : Event}
    (h : Mid cd x y bs k) (ho : Owing cd bs' (k.log e)) : Mid cd x y bs' (k.log e) where
  half := h.half
  capped := h.capped
  owing := ho
  idle := h.idle
  heard := h.heard

/-- A block that has been decoded is owed no more. -/
theorem Owing.feed {cd : Codec D} {b : Bytes} {bs : List Bytes} (h : Owing cd (b :: bs) k) {d : D}
    {fields : List Field} {overLimit : Bool}
    (hd : cd.decode k.decoder b maxHeaderList = some (d, fields, overLimit)) :
    Owing cd bs { k.log (.fed b) with decoder := d } := by
  refine ⟨?_, ?_⟩
  · show (fedBlocks k.trace ++ [b]) ++ bs = (assembly k.trace).blocks
    rw [List.append_assoc, List.singleton_append]
    exact h.fed
  · show heardDecoder cd k.trace = bs.foldlM cd.feed d
    rw [h.table, List.foldlM_cons, Codec.feed, hd]
    rfl

/-- A frame that carries no part of a header block. -/
def Frame.plain (f : Frame) : Prop := f.type ≠ .headers ∧ f.type ≠ .continuation

theorem Assembly.take_plain {a : Assembly} {f : Frame} (hf : f.plain) : a.take f = a := by
  rw [Assembly.take]
  split
  · exact absurd ‹_› hf.1
  · exact absurd ‹_› hf.2
  · rfl

theorem Codec.hear_plain {cd : Codec D} {a : Assembly} {d : D} {f : Frame} (hf : f.plain)
    (hs : f.type ≠ .settings ∨ f.has Flags.ack = false) : cd.hear a d f = some d := by
  rw [Codec.hear]
  by_cases ht : f.type = .settings
  · rw [if_pos ht, if_neg]
    simpa [ht] using hs
  · rw [if_neg ht, Assembly.take_plain hf, List.drop_length]
    rfl

theorem Owing.read_plain {cd : Codec D} (h : Owing cd [] k) {f : Frame} (hf : f.plain)
    (hs : f.type ≠ .settings ∨ f.has Flags.ack = false) : Owing cd [] (k.log (.read f)) := by
  refine ⟨?_, ?_⟩
  · show fedBlocks k.trace ++ [] = ((assembly k.trace).take f).blocks
    rw [Assembly.take_plain hf]
    exact h.fed
  · show (heardDecoder cd k.trace).bind (fun d => cd.hear (assembly k.trace) d f) = some k.decoder
    rw [h.table]
    exact Codec.hear_plain hf hs

theorem Clear.read_plain (h : Clear k) {f : Frame} (hf : f.plain) : Clear (k.log (.read f)) where
  continuing := h.continuing
  ignoring := h.ignoring
  block := by
    show ((assembly k.trace).take f).openBlock = none
    rw [Assembly.take_plain hf]
    exact h.block

theorem offers_of_type {which : Setting} {f : Frame} (hf : f.type ≠ .settings) :
    offers which f = [] := by
  rw [offers, if_neg fun h => hf h.1]

theorem Agreed.read {t : Trace} (h : Agreed t) {f : Frame}
    (hf : ∀ which, offers which f = []) : Agreed (.read f :: t) := by
  refine ⟨?_, ?_⟩
  · show (windowTerms t).offered ++ offers .initialWindowSize f = []
    rw [h.1, hf]
    rfl
  · show (frameTerms t).offered ++ offers .maxFrameSize f = []
    rw [h.2, hf]
    rfl

theorem Codec.hear_block {cd : Codec D} {a : Assembly} {d : D} {f : Frame} {bs : List Bytes}
    (hf : f.type ≠ .settings) (hb : (a.take f).blocks = a.blocks ++ bs) :
    cd.hear a d f = bs.foldlM cd.feed d := by
  rw [Codec.hear, if_neg hf, hb, List.drop_left]

/-- A frame that carries part of a header block: the blocks it completes are owed. -/
theorem Owing.read {cd : Codec D} (h : Owing cd [] k) {f : Frame} {bs : List Bytes}
    (hf : f.type ≠ .settings)
    (hb : ((assembly k.trace).take f).blocks = (assembly k.trace).blocks ++ bs) :
    Owing cd bs (k.log (.read f)) := by
  refine ⟨?_, ?_⟩
  · show fedBlocks k.trace ++ bs = ((assembly k.trace).take f).blocks
    rw [hb, ← h.fed, List.append_nil]
  · show (heardDecoder cd k.trace).bind (fun d => cd.hear (assembly k.trace) d f) =
      bs.foldlM cd.feed k.decoder
    rw [h.table]
    exact Codec.hear_block hf hb

/-! ## Where `continuing` points -/

/-- A header block was opened on a stream. -/
def Opened (id : StreamId) (t : Trace) : Prop :=
  ∃ t', t' <:+ t ∧ ∃ block, (assembly t').openBlock = some (id, block)

theorem Opened.mono {id : StreamId} {t t' : Trace} (h : Opened id t) (ht : t <:+ t') :
    Opened id t' := by
  obtain ⟨u, hu, hblock⟩ := h
  exact ⟨u, hu.trans ht, hblock⟩

/-- `continuing` points at a stream of the table, and at the one of the HEADERS frame that
opened the block. -/
def Core.Home (k : Core D) : Prop :=
  ∀ r, k.continuing = some r → r ∈ k.refs ∧ k.On r fun l => Opened l.id k.trace

theorem Core.home_of_none (h : k.continuing = none) : k.Home := by
  intro r hr
  rw [h] at hr
  cases hr

theorem suffix_keep (ht : k'.trace = k.trace ∨ ∃ e : Event, e.aside = true ∧
    k'.trace = e :: k.trace) : k.trace <:+ k'.trace := by
  rcases ht with ht | ⟨e, -, ht⟩
  · exact ⟨[], ht.symm⟩
  · rw [ht]
    exact List.suffix_cons _ _

theorem Taking.home (h : Taking B k k') (hk : k.Home) : k'.Home := by
  intro r hr
  rw [h.bearing] at hr
  obtain ⟨hmem, hon⟩ := hk r hr
  refine ⟨?_, ?_⟩
  · rw [← Core.standings_refs, h.standings, Core.standings_refs]
    exact hmem
  · intro l hl hlr
    have hls : l.toStanding ∈ k.standings := h.standings ▸ List.mem_map_of_mem hl
    have := Core.On.standing (P := fun s => Opened s.id k.trace) hon l.toStanding hls hlr
    exact this.mono (suffix_keep h.trace)

theorem Core.Home.log {e : Event} (hk : k.Home) : (k.log e).Home := by
  intro r hr
  obtain ⟨hmem, hon⟩ := hk r hr
  exact ⟨hmem, fun l hl hlr => (hon l hl hlr).mono (List.suffix_cons _ _)⟩

end Nilo.Http2
