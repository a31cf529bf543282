import Mathlib.Algebra.Order.Ring.Int
import Nilo.Http2.Lives

/-!
# Send windows and frame sizes

`FlowOk` ties the windows the connection keeps to what its client has said: a
stream's window, and the DATA already written on it, are covered by the initial
window and the increments read for it. **While a SETTINGS frame is being applied
two values may count**, the one in force and the one offered; a frame that is
refused half way leaves the connection there, reading no more, and what it still
writes is covered by the larger (`Terms.most`).
-/

namespace Nilo.Http2

open Nilo.Lib

variable {D : Type} {B : Nat} {nice : Prop}

/-! ## Reading a history -/

theorem Sent.dataOn_le (f : Sent) (id : StreamId) : f.dataOn id ≤ f.dataLen := by
  cases f with
  | data s b e =>
    rw [Sent.dataOn, Sent.dataLen]
    split
    · exact le_refl _
    · exact Nat.zero_le _
  | _ => exact le_refl _

theorem increments_cons (id : StreamId) (e : Event) (t : Trace) :
    increments id (e :: t) = e.increment id + increments id t := by
  rw [increments, List.map_cons, List.sum_cons, increments]

theorem written_cons (id : StreamId) (e : Event) (t : Trace) :
    written id (e :: t) = e.dataOn id + written id t := by
  rw [written, List.map_cons, List.sum_cons, written]

theorem writtenAll_cons (e : Event) (t : Trace) :
    writtenAll (e :: t) = e.dataLen + writtenAll t := by
  rw [writtenAll, List.map_cons, List.sum_cons, writtenAll]

theorem terms_wrote {which : Setting} {init : Nat} {f : Sent} {t : Trace} (hf : f ≠ .settingsAck) :
    terms which init (.wrote f :: t) = terms which init t := by
  cases f with
  | settingsAck => exact absurd rfl hf
  | _ => rfl

theorem Terms.now_le_most (x : Terms) : x.now ≤ x.most := by
  rw [Terms.most]
  induction x.offered with
  | nil => exact le_refl _
  | cons v vs ih => exact le_trans ih (le_max_right _ _)

theorem Terms.offered_le_most {x : Terms} {v : Nat} (hv : v ∈ x.offered) : v ≤ x.most := by
  rw [Terms.most]
  generalize x.offered = vs at hv
  induction vs with
  | nil => cases hv
  | cons w ws ih =>
    rcases List.mem_cons.1 hv with rfl | hv
    · exact le_max_left _ _
    · exact le_trans (ih hv) (le_max_right _ _)

/-- More values offered are no less to be ready for. -/
theorem Terms.most_mono (x : Terms) (vs : List Nat) :
    x.most ≤ Terms.most ⟨x.now, x.offered ++ vs⟩ := by
  rw [Terms.most, Terms.most, List.foldr_append]
  induction x.offered with
  | nil => exact Terms.now_le_most ⟨x.now, vs⟩
  | cons w ws ih => exact max_le_max (le_refl _) ih

/-- An event that neither opens a window, nor moves a setting, nor carries DATA. -/
structure Event.Still (e : Event) : Prop where
  increment : ∀ id, e.increment id = 0
  dataOn : ∀ id, e.dataOn id = 0
  dataLen : e.dataLen = 0
  terms : ∀ which init t, Nilo.Http2.terms which init (e :: t) = Nilo.Http2.terms which init t

theorem Event.still_wrote {f : Sent} (hf : f ≠ .settingsAck) (hd : f.dataLen = 0) :
    (Event.wrote f).Still where
  increment _ := rfl
  dataOn id := Nat.le_zero.1 (hd ▸ f.dataOn_le id)
  dataLen := hd
  terms _ _ _ := terms_wrote hf

/-! ## The invariant -/

structure FlowOk (k : Core D) : Prop where
  lines : k.reading = true → ∀ l ∈ k.lines,
    l.sendWindow + written l.id k.trace ≤ k.peerWindow + increments l.id k.trace
  most : ∀ l ∈ k.lines,
    l.sendWindow + written l.id k.trace ≤ (windowTerms k.trace).most + increments l.id k.trace
  conn : k.sendWindow + writtenAll k.trace ≤ defaultWindow + increments 0 k.trace
  connCap : k.reading = true → k.sendWindow ≤ maxWindow
  peerCap : k.peerWindow ≤ maxWindow
  peerMost : k.peerWindow ≤ (windowTerms k.trace).most
  frameMost : k.peerMaxFrame ≤ (frameTerms k.trace).most
  frameLeast : defaultMaxFrame ≤ k.peerMaxFrame
  windowNow : k.reading = true → (windowTerms k.trace).offered = [] →
    k.peerWindow = (windowTerms k.trace).now
  frameNow : k.reading = true → (frameTerms k.trace).offered = [] →
    k.peerMaxFrame = (frameTerms k.trace).now
  idle : ∀ id, k.lastStream < id → written id k.trace = 0
  within : Within k.trace

namespace FlowOk

variable {k : Core D}

/-- A change of lines that keeps ids and windows. -/
theorem relined (hk : FlowOk k) {k' : Core D} (hb : k'.toBearing = k.toBearing)
    (hs : k'.sendWindow = k.sendWindow) (hr : k'.reading = true → k.reading = true)
    (ht : k'.trace = k.trace)
    (hl : ∀ l' ∈ k'.lines, ∃ l ∈ k.lines, l'.id = l.id ∧ l'.sendWindow = l.sendWindow) :
    FlowOk k' := by
  obtain ⟨h1, h2, h3, h4, h5, h6, h7, h8, h9, h10, h11, h12⟩ := hk
  refine ⟨?_, ?_, ?_, ?_, ?_, ?_, ?_, ?_, ?_, ?_, ?_, ?_⟩
  · intro hread l' hl'
    obtain ⟨l, hmem, hid, hw⟩ := hl l' hl'
    rw [hid, hw, ht, hb]
    exact h1 (hr hread) l hmem
  · intro l' hl'
    obtain ⟨l, hmem, hid, hw⟩ := hl l' hl'
    rw [hid, hw, ht]
    exact h2 l hmem
  · rwa [hs, ht]
  · exact fun hread => hs ▸ h4 (hr hread)
  · rwa [hb]
  · rwa [hb, ht]
  · rwa [hb, ht]
  · rwa [hb]
  · rw [hb, ht]
    exact fun hread => h9 (hr hread)
  · rw [hb, ht]
    exact fun hread => h10 (hr hread)
  · rwa [hb, ht]
  · rwa [ht]

theorem edit_same (hk : FlowOk k) {r : Ref} {f : Line → Line} (hi : ∀ l, (f l).id = l.id)
    (hw : ∀ l, (f l).sendWindow = l.sendWindow) : FlowOk (k.edit r f) := by
  refine hk.relined rfl rfl id rfl ?_
  intro l' hl'
  obtain ⟨l, hl, rfl⟩ := mem_edit.1 hl'
  refine ⟨l, hl, ?_, ?_⟩
  · split
    · exact hi l
    · rfl
  · split
    · exact hw l
    · rfl

/-- An event the windows do not see, written within the peer's frame size if it is a frame. -/
theorem log (hk : FlowOk k) {e : Event} (he : e.Still) (hw : Within (e :: k.trace)) :
    FlowOk (k.log e) := by
  have hinc (id : StreamId) : increments id (e :: k.trace) = increments id k.trace := by
    rw [increments_cons, he.increment, Nat.zero_add]
  have hwr (id : StreamId) : written id (e :: k.trace) = written id k.trace := by
    rw [written_cons, he.dataOn, Nat.zero_add]
  have hall : writtenAll (e :: k.trace) = writtenAll k.trace := by
    rw [writtenAll_cons, he.dataLen, Nat.zero_add]
  have hwt : windowTerms (e :: k.trace) = windowTerms k.trace := he.terms _ _ _
  have hft : frameTerms (e :: k.trace) = frameTerms k.trace := he.terms _ _ _
  obtain ⟨h1, h2, h3, h4, h5, h6, h7, h8, h9, h10, h11, h12⟩ := hk
  refine ⟨?_, ?_, ?_, h4, h5, ?_, ?_, h8, ?_, ?_, ?_, hw⟩
  · intro hread l hl
    simp only [Core.log, hinc, hwr]
    exact h1 hread l hl
  · intro l hl
    simp only [Core.log, hinc, hwr, hwt]
    exact h2 l hl
  · simp only [Core.log, hinc, hall]
    exact h3
  · simp only [Core.log, hwt]
    exact h6
  · simp only [Core.log, hft]
    exact h7
  · simp only [Core.log, hwt]
    exact h9
  · simp only [Core.log, hft]
    exact h10
  · simp only [Core.log, hwr]
    exact h11

/-- A frame without DATA, within the peer's frame size. -/
theorem within_wrote (hk : FlowOk k) {f : Sent} (hd : f.dataLen = 0) (hlen : f.len ≤ k.peerMaxFrame) :
    Within (.wrote f :: k.trace) := by
  have hon (id : StreamId) : f.dataOn id = 0 := Nat.le_zero.1 (hd ▸ f.dataOn_le id)
  refine ⟨⟨le_trans hlen hk.frameMost, ?_, ?_⟩, hk.within⟩
  · intro id hpos
    exact absurd (hon id) (Nat.pos_iff_ne_zero.1 hpos)
  · intro hpos
    exact absurd hd (Nat.pos_iff_ne_zero.1 hpos)

theorem log_wrote (hk : FlowOk k) {f : Sent} (hf : f ≠ .settingsAck) (hd : f.dataLen = 0)
    (hlen : f.len ≤ k.peerMaxFrame) : FlowOk (k.log (.wrote f)) :=
  hk.log (Event.still_wrote hf hd) (hk.within_wrote hd hlen)

/-- One DATA frame, off both windows. -/
theorem data (hk : FlowOk k) (ht : TableOk k.toBearing k.standings) {r : Ref} {id : StreamId}
    {payload : Bytes} {e : Bool} (hr : r ∈ k.refs)
    (hon : k.On r fun l => l.id = id ∧ payload.length ≤ l.sendWindow)
    (hconn : payload.length ≤ k.sendWindow) (hlen : payload.length ≤ k.peerMaxFrame) :
    FlowOk { (k.edit r fun l => { l with sendWindow := l.sendWindow - payload.length }).log
        (.wrote (.data id payload e)) with sendWindow := k.sendWindow - payload.length } := by
  obtain ⟨l₀, hl₀, hr₀⟩ := List.mem_map.1 hr
  obtain ⟨hid₀, hw₀⟩ := hon l₀ hl₀ hr₀
  -- the stream of the frame is the only one with its id
  have honly : ∀ l ∈ k.lines, l.id = id → l.ref = r := by
    intro l hl hid
    have hmem : ∀ {l}, l ∈ k.lines → l.toStanding ∈ k.standings := List.mem_map_of_mem
    have hinj : (k.standings.map (·.id)).Nodup :=
      (List.pairwise_map.2 ht.ids).imp fun h => ne_of_lt h
    have := eq_of_key hinj (hmem hl) (hmem hl₀) (hid.trans hid₀.symm)
    exact (congrArg Standing.ref this).trans hr₀
  have hdo (i : StreamId) : (Event.wrote (.data id payload e)).dataOn i =
      if id = i then payload.length else 0 := rfl
  have hmost := hk.most l₀ hl₀
  rw [hid₀] at hmost
  obtain ⟨h1, h2, h3, h4, h5, h6, h7, h8, h9, h10, h11, h12⟩ := hk
  have hinc (i : StreamId) : increments i (.wrote (.data id payload e) :: k.trace) =
      increments i k.trace := by
    rw [increments_cons]
    exact Nat.zero_add _
  -- what the frame adds to a stream's DATA, its window pays
  have hpaid : ∀ {bound : Int}, ∀ l ∈ k.lines, l.sendWindow + written l.id k.trace ≤ bound →
      (if l.ref = r then { l with sendWindow := l.sendWindow - payload.length } else l).sendWindow +
        written (if l.ref = r then { l with sendWindow := l.sendWindow - payload.length } else l).id
          (.wrote (.data id payload e) :: k.trace) ≤ bound := by
    intro bound l hl hb
    rw [written_cons, hdo]
    by_cases hlr : l.ref = r
    · have hid := (hon l hl hlr).1
      simp only [if_pos hlr, hid, if_true] at hb ⊢
      push_cast
      omega
    · have hne : id ≠ l.id := fun h => hlr (honly l hl h.symm)
      simp only [if_neg hlr, if_neg hne, Nat.zero_add]
      exact hb
  refine ⟨?_, ?_, ?_, ?_, h5, h6, h7, h8, h9, h10, ?_, ?_⟩
  · intro hread l' hl'
    obtain ⟨l, hl, rfl⟩ := mem_edit.1 hl'
    refine hpaid l hl (le_trans (h1 hread l hl) (le_of_eq ?_))
    simp only [Core.log, Core.edit, hinc]
    split <;> rfl
  · intro l' hl'
    obtain ⟨l, hl, rfl⟩ := mem_edit.1 hl'
    refine hpaid l hl (le_trans (h2 l hl) (le_of_eq ?_))
    simp only [Core.log, Core.edit, hinc]
    rw [show windowTerms (.wrote (.data id payload e) :: k.trace) = windowTerms k.trace from rfl]
    split <;> rfl
  · simp only [Core.log, Core.edit, hinc, writtenAll_cons]
    rw [show (Event.wrote (.data id payload e)).dataLen = payload.length from rfl]
    push_cast
    omega
  · intro hread
    have : k.sendWindow ≤ maxWindow := h4 hread
    dsimp only
    omega
  · intro i hi
    have hlast := ht.last l₀.toStanding (List.mem_map_of_mem hl₀)
    have hne : id ≠ i := by
      rintro rfl
      exact absurd (lt_of_lt_of_le hi (hid₀ ▸ hlast)) (lt_irrefl _)
    simp only [Core.log, Core.edit] at hi ⊢
    rw [written_cons, hdo, if_neg hne, Nat.zero_add]
    exact h11 i hi
  · have hstream : written id k.trace + payload.length ≤
        (windowTerms k.trace).most + increments id k.trace := by omega
    have hall : writtenAll k.trace + payload.length ≤ defaultWindow + increments 0 k.trace := by
      omega
    refine ⟨⟨le_trans hlen h7, ?_, fun _ => hall⟩, h12⟩
    intro i hpos
    rw [show (Sent.data id payload e).dataOn i = if id = i then payload.length else 0 from rfl]
      at hpos ⊢
    by_cases hi : id = i
    · subst hi
      rw [if_pos rfl]
      exact hstream
    · rw [if_neg hi] at hpos
      exact absurd hpos (lt_irrefl _)

end FlowOk

theorem Sent.routine_ne_ack {f : Sent} (h : f.routine = true) : f ≠ .settingsAck := by
  rintro rfl
  cases h

theorem Calm.flowOk {k k' : Core D} (h : Calm B k k') (ht : TableOk k.toBearing k.standings)
    (hk : FlowOk k) : FlowOk k' := by
  have same {l : Line} (hl : l ∈ k.lines) :
      ∃ l' ∈ k.lines, l.id = l'.id ∧ l.sendWindow = l'.sendWindow := ⟨l, hl, rfl, rfl⟩
  have edited (r : Ref) (f : Line → Line) (hi : ∀ l, (f l).id = l.id)
      (hw : ∀ l, (f l).sendWindow = l.sendWindow) :
      ∀ l' ∈ Lib.edit (·.ref) r f k.lines,
        ∃ l ∈ k.lines, l'.id = l.id ∧ l'.sendWindow = l.sendWindow := by
    intro l' hl'
    obtain ⟨l, hl, rfl⟩ := mem_edit.1 hl'
    refine ⟨l, hl, ?_, ?_⟩ <;> split
    · exact hi l
    · rfl
    · exact hw l
    · rfl
  cases h with
  | wrote f hf hd hlen => exact hk.log_wrote (Sent.routine_ne_ack hf) hd hlen
  | data r id payload e hr hon hconn hlen => exact hk.data ht hr hon hconn hlen
  | shut => exact hk.relined rfl rfl nofun rfl fun _ => same
  | paid | repaid | poked | reserve | unreserve =>
    exact hk.relined rfl rfl id rfl fun _ => same
  | overpaid n => exact hk.relined rfl rfl nofun rfl fun _ => same
  | hold | giveBack | starve | unstarve | wants =>
    exact hk.relined rfl rfl id rfl (edited _ _ (fun _ => rfl) fun _ => rfl)
  | settled p =>
    refine hk.relined rfl rfl id rfl ?_
    intro l' hl'
    obtain ⟨l, hl, rfl⟩ := List.mem_map.1 hl'
    refine ⟨l, hl, ?_, ?_⟩ <;> split <;> rfl
  | granted id table _ =>
    exact hk.log ⟨fun _ => rfl, fun _ => rfl, rfl, fun _ _ _ => rfl⟩ hk.within
  | admitted id room table _ =>
    exact hk.log ⟨fun _ => rfl, fun _ => rfl, rfl, fun _ _ _ => rfl⟩ hk.within
  | _ => exact hk.edit_same (fun _ => rfl) fun _ => rfl

theorem Taking.flowOk {k k' : Core D} (h : Taking B k k') (ht : TableOk k.toBearing k.standings)
    (hk : FlowOk k) : FlowOk k' := by
  cases h with
  | calm h => exact h.flowOk ht hk
  | overran r n =>
    have := hk.edit_same (r := r)
      (f := fun l => { l with recvWindow := l.recvWindow - n, taking := l.taking + n })
      (fun _ => rfl) fun _ => rfl
    exact this.relined rfl rfl nofun rfl fun l hl => ⟨l, hl, rfl, rfl⟩
  | _ => exact hk.edit_same (fun _ => rfl) fun _ => rfl

/-- The connection's own frames are small. -/
theorem FlowOk.frame_small {k : Core D} (hk : FlowOk k) (n : Nat) (hn : n ≤ defaultMaxFrame) :
    n ≤ k.peerMaxFrame := le_trans hn hk.frameLeast

theorem Plain.flowOk {k k' : Core D} (h : Plain B nice k k')
    (ht : TableOk k.toBearing k.standings) (hk : FlowOk k) : FlowOk k' := by
  have still {e : Event} (he : e.increment = fun _ => 0) (hd : e.dataOn = fun _ => 0)
      (hl : e.dataLen = 0)
      (htm : ∀ which init t, terms which init (e :: t) = terms which init t)
      (hw : Within (e :: k.trace)) : FlowOk (k.log e) :=
    hk.log ⟨fun id => congrFun he id, fun id => congrFun hd id, hl, htm⟩ hw
  cases h with
  | calm h => exact h.flowOk ht hk
  | started r id _ _ => exact still rfl rfl rfl (fun _ _ _ => rfl) hk.within
  | refuse id _ => exact hk.log_wrote nofun rfl (hk.frame_small 4 (by decide))
  | goaway code _ _ =>
    have h := hk.log_wrote (f := .goaway k.lastStream code) nofun rfl
      (hk.frame_small 8 (by decide))
    exact ⟨h.1, h.2, h.3, h.4, h.5, h.6, h.7, h.8, h.9, h.10, h.11, h.12⟩
  | goawayLost =>
    exact ⟨nofun, hk.2, hk.3, nofun, hk.5, hk.6, hk.7, hk.8, nofun, nofun, hk.11, hk.12⟩
  | leave r id why _ _ _ _ =>
    have h := still (e := .left id why) rfl rfl rfl (fun _ _ _ => rfl) hk.within
    exact h.relined rfl rfl (fun h => h) rfl
      fun l hl => ⟨l, List.mem_of_mem_filter hl, rfl, rfl⟩
  | classify | launch | answering | defer | holdFor | undefer | unhold | closeIn | failEvents =>
    exact hk.edit_same (fun _ => rfl) fun _ => rfl
  | _ => exact ⟨hk.1, hk.2, hk.3, hk.4, hk.5, hk.6, hk.7, hk.8, hk.9, hk.10, hk.11, hk.12⟩

/-! ## The client's settings and windows -/

namespace FlowOk

variable {k : Core D}

/-- A frame of the client brings increments and offers, and takes nothing away. -/
theorem read (hk : FlowOk k) (f : Frame) : FlowOk (k.log (.read f)) := by
  have hinc (id : StreamId) : increments id k.trace ≤ increments id (.read f :: k.trace) := by
    rw [increments_cons]
    exact Nat.le_add_left _ _
  have hwr (id : StreamId) : written id (.read f :: k.trace) = written id k.trace := by
    rw [written_cons]
    exact Nat.zero_add _
  have hall : writtenAll (.read f :: k.trace) = writtenAll k.trace := by
    rw [writtenAll_cons]
    exact Nat.zero_add _
  have hmost (which : Setting) (init : Nat) :
      (terms which init k.trace).most ≤ (terms which init (.read f :: k.trace)).most :=
    Terms.most_mono _ _
  have hnow {which : Setting} {init : Nat}
      (h : (terms which init (.read f :: k.trace)).offered = []) :
      (terms which init k.trace).offered = [] := (List.append_eq_nil_iff.1 h).1
  obtain ⟨h1, h2, h3, h4, h5, h6, h7, h8, h9, h10, h11, h12⟩ := hk
  refine ⟨?_, ?_, ?_, h4, h5, ?_, ?_, h8, ?_, ?_, ?_, h12⟩
  · intro hread l hl
    have := h1 hread l hl
    have := hinc l.id
    simp only [Core.log, hwr]
    omega
  · intro l hl
    have := h2 l hl
    have := hinc l.id
    have : (windowTerms k.trace).most ≤ (windowTerms (.read f :: k.trace)).most := hmost _ _
    simp only [Core.log, hwr]
    omega
  · have := hinc 0
    simp only [Core.log, hall]
    omega
  · have : (windowTerms k.trace).most ≤ (windowTerms (.read f :: k.trace)).most := hmost _ _
    simp only [Core.log]
    omega
  · exact le_trans h7 (hmost .maxFrameSize defaultMaxFrame)
  · exact fun hread h => h9 hread (hnow h)
  · exact fun hread h => h10 hread (hnow h)
  · intro id hid
    simp only [Core.log, hwr]
    exact h11 id hid

/-- The values of a SETTINGS frame are in force once it is acknowledged. -/
theorem acknowledged (hk : FlowOk k) (hread : k.reading = true)
    (hwin : k.peerWindow = ((windowTerms k.trace).offered.getLastD (windowTerms k.trace).now : Nat))
    (hframe : k.peerMaxFrame = (frameTerms k.trace).offered.getLastD (frameTerms k.trace).now) :
    FlowOk (k.log (.wrote .settingsAck)) := by
  have hinc (id : StreamId) : increments id (.wrote .settingsAck :: k.trace) =
      increments id k.trace := by
    rw [increments_cons]
    exact Nat.zero_add _
  have hwr (id : StreamId) : written id (.wrote .settingsAck :: k.trace) = written id k.trace := by
    rw [written_cons]
    exact Nat.zero_add _
  have hall : writtenAll (.wrote .settingsAck :: k.trace) = writtenAll k.trace := by
    rw [writtenAll_cons]
    exact Nat.zero_add _
  have hwmost : ((windowTerms (.wrote .settingsAck :: k.trace)).most : Int) = k.peerWindow :=
    hwin.symm
  have hfmost : (frameTerms (.wrote .settingsAck :: k.trace)).most = k.peerMaxFrame := hframe.symm
  have hsmall := hk.within_wrote (f := .settingsAck) rfl (Nat.zero_le _)
  obtain ⟨h1, h2, h3, h4, h5, h6, h7, h8, h9, h10, h11, h12⟩ := hk
  refine ⟨?_, ?_, ?_, h4, h5, ?_, ?_, h8, ?_, ?_, ?_, hsmall⟩
  · intro _ l hl
    simp only [Core.log, hinc, hwr]
    exact h1 hread l hl
  · intro l hl
    simp only [Core.log, hinc, hwr, hwmost]
    exact h1 hread l hl
  · simp only [Core.log, hinc, hall]
    exact h3
  · simp only [Core.log, hwmost, le_refl]
  · simp only [Core.log, hfmost, le_refl]
  · exact fun _ _ => hwin
  · exact fun _ _ => hframe
  · simp only [Core.log, hwr]
    exact h11

/-- A new stream starts with the peer's window, and nothing has been written on it. -/
theorem append (hk : FlowOk k) {r : Ref} {id : StreamId} {spare : List Ref} {nextRef : Ref}
    (hid : k.lastStream < id) :
    FlowOk { k with
      lines := k.lines ++ [.opened r id k.peerWindow], lastStream := id, spare, nextRef } := by
  obtain ⟨h1, h2, h3, h4, h5, h6, h7, h8, h9, h10, h11, h12⟩ := hk
  have hnone : written id k.trace = 0 := h11 id hid
  refine ⟨?_, ?_, h3, h4, h5, h6, h7, h8, h9, h10, ?_, h12⟩
  · intro hread l hl
    rcases List.mem_append.1 hl with hl | hl
    · exact h1 hread l hl
    · rw [List.mem_singleton.1 hl]
      simp only [Line.opened, hnone]
      omega
  · intro l hl
    rcases List.mem_append.1 hl with hl | hl
    · exact h2 l hl
    · rw [List.mem_singleton.1 hl]
      simp only [Line.opened, hnone]
      omega
  · exact fun i hi => h11 i (lt_trans hid hi)

end FlowOk

theorem Front.flowOk {k k' : Core D} (h : Front B nice k k')
    (ht : TableOk k.toBearing k.standings) (hk : FlowOk k) : FlowOk k' := by
  cases h with
  | plain h => exact h.flowOk ht hk
  | read f => exact hk.read f
  | noted b => exact hk.log ⟨fun _ => rfl, fun _ => rfl, rfl, fun _ _ _ => rfl⟩ hk.within
  | allowed => exact hk.log ⟨fun _ => rfl, fun _ => rfl, rfl, fun _ _ _ => rfl⟩ hk.within
  | acknowledged hread hwin hframe => exact hk.acknowledged hread hwin hframe
  | append r id spare nextRef _ hid _ => exact hk.append hid
  | trail | extend => exact hk.edit_same (fun _ => rfl) fun _ => rfl
  | strayed =>
    exact ⟨nofun, hk.2, hk.3, nofun, hk.5, hk.6, hk.7, hk.8, nofun, nofun, hk.11, hk.12⟩
  | grew r n hon =>
    obtain ⟨h1, h2, h3, h4, h5, h6, h7, h8, h9, h10, h11, h12⟩ := hk
    refine ⟨?_, ?_, h3, h4, h5, h6, h7, h8, h9, h10, h11, h12⟩
    · intro hread
      exact forall_mem_edit (h1 hread) fun l hl hr _ => hon l hl hr
    · refine forall_mem_edit h2 ?_
      intro l hl hr _
      have hline := hon l hl hr
      have hpeer : k.peerWindow ≤ (windowTerms k.trace).most := h6
      have : l.sendWindow + n + written l.id k.trace ≤
          (windowTerms k.trace).most + increments l.id k.trace := by omega
      exact this
  | connGrew n hn hcap =>
    exact ⟨hk.1, hk.2, hn, fun _ => hcap, hk.5, hk.6, hk.7, hk.8, hk.9, hk.10, hk.11, hk.12⟩
  | connOverflow n hn =>
    exact ⟨nofun, hk.2, hn, nofun, hk.5, hk.6, hk.7, hk.8, nofun, nofun, hk.11, hk.12⟩
  | shifted v hread hv hcap =>
    obtain ⟨h1, h2, h3, h4, h5, h6, h7, h8, h9, h10, h11, h12⟩ := hk
    have hmost : v ≤ (windowTerms k.trace).most := Terms.offered_le_most hv
    have hmoved : ∀ l ∈ k.lines, l.sendWindow + (v - k.peerWindow) + written l.id k.trace ≤
        v + increments l.id k.trace := by
      intro l hl
      have := h1 hread l hl
      omega
    refine ⟨?_, ?_, h3, h4, ?_, ?_, h7, h8, ?_, h10, h11, h12⟩
    · intro _ l' hl'
      obtain ⟨l, hl, rfl⟩ := List.mem_map.1 hl'
      exact hmoved l hl
    · intro l' hl'
      obtain ⟨l, hl, rfl⟩ := List.mem_map.1 hl'
      have hline := hmoved l hl
      have : l.sendWindow + (v - k.peerWindow) + written l.id k.trace ≤
          (windowTerms k.trace).most + increments l.id k.trace := by omega
      exact this
    · exact Int.ofNat_le.2 hcap
    · exact Int.ofNat_le.2 hmost
    · intro _ hnone
      rw [show (windowTerms k.trace).offered = [] from hnone] at hv
      cases hv
  | shiftRefused v w hread hv hcap hw =>
    obtain ⟨h1, h2, h3, h4, h5, h6, h7, h8, h9, h10, h11, h12⟩ := hk
    have hmost : v ≤ (windowTerms k.trace).most := Terms.offered_le_most hv
    refine ⟨nofun, ?_, h3, nofun, ?_, ?_, h7, h8, nofun, nofun, h11, h12⟩
    · intro l' hl'
      obtain ⟨l, hl, rfl⟩ := List.mem_map.1 hl'
      have hold := h1 hread l hl
      have hnew := hw l hl
      have hpeer : k.peerWindow ≤ (windowTerms k.trace).most := h6
      have : w l + written l.id k.trace ≤
          (windowTerms k.trace).most + increments l.id k.trace := by omega
      exact this
    · exact Int.ofNat_le.2 hcap
    · exact Int.ofNat_le.2 hmost
  | framed v hv hleast =>
    obtain ⟨h1, h2, h3, h4, h5, h6, h7, h8, h9, h10, h11, h12⟩ := hk
    refine ⟨h1, h2, h3, h4, h5, h6, Terms.offered_le_most hv, hleast, h9, ?_, h11, h12⟩
    intro _ hnone
    rw [show (frameTerms k.trace).offered = [] from hnone] at hv
    cases hv
  | _ => exact ⟨hk.1, hk.2, hk.3, hk.4, hk.5, hk.6, hk.7, hk.8, hk.9, hk.10, hk.11, hk.12⟩

theorem Move.flowOk {k k' : Core D} (h : Move B nice k k')
    (ht : TableOk k.toBearing k.standings) (hk : FlowOk k) : FlowOk k' := by
  cases h with
  | front h => exact h.flowOk ht hk
  | taking h => exact h.flowOk ht hk

end Nilo.Http2
