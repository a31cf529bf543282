import Nilo.Http2.Calls
import Nilo.Http2.Heard

/-!
# What a client hears of an answer that is lent

A call that streams lends one piece after another through a pipe, and the connection writes them in turns:
the head before the first of them, no more of a piece than the windows take, and the end of the body when
the call has said that it is over. `Outbox.ear` is what the client has of it, and every step of the call,
every turn and everything in between keeps it so.
-/

namespace Nilo.Http2

open Nilo.Lib Nilo.Text

variable {D : Type}

section Lending

variable {c c' c'' : Conn D} {r : Ref} {since : List Event} {id : StreamId} {e e' : Ear}

/-! ## A turn of an answer that is lent -/

/-- The message an answer through a pipe is, of pieces that came to `data`. -/
def Outbox.message (o : Outbox) (data : Bytes) : Message where
  head := o.head
  data := data
  trailers := if o.headOnly || o.trailers == [] then none else some o.trailers

/-- What the client has of an answer through a pipe; `before` is what was lent and consumed before the
piece that is lent now. -/
def Outbox.ear (o : Outbox) (before : Bytes) : Ear :=
  if o.done then .closed (o.message (before ++ o.lent))
  else if o.headSent then .body o.head (before ++ o.lent.take o.sent)
  else .waiting

/-- How the parts of a pipe stand to each other while it has not failed. -/
structure Outbox.InStep (o : Outbox) (before : Bytes) : Prop where
  opened : o.opened = true
  within : o.sent ≤ o.lent.length
  idle : o.pending = false → o.sent = o.lent.length
  done : o.done = true → o.ending = true ∧ o.pending = false
  /-- The head is the answer, and there is no body. -/
  headOnly : o.headOnly = true → o.headSent = false ∧ o.lent = [] ∧ before = [] ∧ o.pending = false
  unsent : o.headSent = false → o.sent = 0 ∧ before = []

theorem Outbox.ear_quiet (o : Outbox) (before : Bytes) : (o.ear before).quiet = true := by
  rw [Outbox.ear]
  split_ifs <;> rfl

/-- The pipe of a stream's answer. -/
structure Conn.Pipes (c : Conn D) (r : Ref) (since : List Event) (o : Outbox) (before : Bytes) : Prop
    extends c.Seats r where
  out : (c.get r).out = some o
  inStep : o.InStep before
  alive : o.failure = none
  heard : c.Told since (c.get r).id (o.ear before)

/-- In the middle of a turn of a pipe. -/
structure Conn.Lends (c : Conn D) (r : Ref) (since : List Event) (id : StreamId) (o : Outbox) (e : Ear) :
    Prop extends c.Seats r where
  named : (c.get r).id = id
  out : (c.get r).out = some o
  heard : c.Told since id e

theorem Conn.Lends.keep {o : Outbox} (h : c.Lends r since id o e) (hk : Keeps r c c')
    (h' : c'.Told since id e') : c'.Lends r since id o e' where
  toSeats := h.toSeats.keep hk
  named := (congrArg Speaking.id hk.speaking).trans h.named
  out := (congrArg Speaking.out hk.speaking).trans h.out
  heard := h'

/-- A change of what no answer is made of. -/
theorem update_lends {o : Outbox} {f : Stream → Stream} (h : c.Lends r since id o e)
    (hf : ∀ s, (f s).ref = s.ref) (hspeaking : ∀ s, (f s).speaking = s.speaking) :
    Prog.Ends (fun _ => True) c (update r f) fun _ c' => c'.Lends r since id o e :=
  .change (h.keep (h.toSeats.keeps_mod hf hspeaking) h.heard)

theorem Conn.Lends.earnCredit {o : Outbox} (h : c.Lends r since id o e) :
    c.earnCredit.Lends r since id o e := by
  rw [Conn.earnCredit]
  split_ifs
  · exact h
  · exact h.keep ⟨rfl, rfl, rfl⟩ h.heard

theorem updateOut_heard {f : Outbox → Outbox} {o : Outbox} (h : c.Lends r since id o e) :
    Prog.Ends (fun _ => True) c (updateOut r f) fun _ c' => c'.Lends r since id (f o) e := by
  have hget : (c.mod r fun s => { s with out := s.out.map f }).get r =
      { c.get r with out := (c.get r).out.map f } := h.get_mod fun _ => rfl
  refine .change ⟨h.toSeats.mod fun _ => rfl, ?_, ?_, h.heard⟩
  · rw [hget]
    exact h.named
  · rw [hget, h.out]
    rfl

theorem pumpHead_heard {o : Outbox} (h : c.Lends r since id o e)
    (hwaiting : o.headToWrite.isSome → e = .waiting) :
    Prog.Ends (fun _ => True) c (pumpHead r o) fun _ c' =>
      (o.headToWrite = none → c'.Lends r since id o e) ∧
      (o.headToWrite.isSome → c'.Lends r since id o.headWritten (.body o.head [])) := by
  rw [pumpHead]
  cases hhead : o.headToWrite with
  | none => exact .pure ⟨fun _ => h, fun hsome => (by cases hsome)⟩
  | some block =>
    have hblock : block = o.head := by
      rw [Outbox.headToWrite] at hhead
      split_ifs at hhead
      exact (Option.some_inj.mp hhead).symm
    have hwait := hwaiting (by rw [hhead]; rfl)
    have hframes : hearAll id e (headerBlockFrames (c.get r).id block false c.peerMaxFrame) =
        some (.body o.head []) := by
      rw [hwait, h.named, hblock]
      exact (hearAll_headerBlock h.size).1
    refine stream_ends (.get_bind (.bind (emitAll_heard (r := r) h.heard hframes) ?_))
    rintro _ c₁ ⟨h₁, hk₁⟩
    refine .bind (updateOut_heard (h.keep hk₁ h₁)) ?_
    intro _ c₂ h₂
    exact .pure ⟨fun hnone => (by cases hnone), fun _ => h₂⟩

theorem pumpPiece_heard {o o₁ : Outbox} {head data : Bytes}
    (h : c.Lends r since id o₁ (.body head data)) :
    Prog.Ends (fun _ => True) c (pumpPiece r o) fun p c' =>
      p.1 ≤ (o.lent.drop o.sent).length ∧ p.2.1 = decide (o.sent + p.1 = o.lent.length) ∧
      c'.Lends r since id
        (if p.1 ≠ 0 ∨ p.2.1 = true then o₁.wrote (o.sent + p.1) p.2.1 else o₁)
        (.body head (data ++ (o.lent.drop o.sent).take p.1)) := by
  have hheard := h.heard
  rw [← h.named] at hheard
  refine .bind (dataFrames_heard _ h.toSeats hheard) ?_
  rintro n c₁ ⟨hn, hk₁, h₁⟩
  rw [if_neg fun hlast => Bool.false_ne_true hlast.1, h.named] at h₁
  have hlends₁ := h.keep hk₁ h₁
  refine .bind (.change (Q := fun _ c₂ => c₂.Lends r since id o₁
    (.body head (data ++ (o.lent.drop o.sent).take n))) ?_) ?_
  · exact hlends₁.keep ⟨rfl, rfl, rfl⟩ hlends₁.heard
  intro _ c₂ h₂
  dsimp only
  refine .bind (.when (Q := fun _ c₃ => c₃.Lends r since id
    (if n ≠ 0 ∨ decide (o.sent + n = o.lent.length) = true then
      o₁.wrote (o.sent + n) (decide (o.sent + n = o.lent.length)) else o₁)
    (.body head (data ++ (o.lent.drop o.sent).take n))) ?_ ?_) ?_
  · intro hmoved
    rw [if_pos hmoved]
    exact updateOut_heard h₂
  · intro hmoved
    rw [if_neg hmoved]
    exact h₂
  intro _ c₃ h₃
  refine .bind (.change (Q := fun _ c₄ => c₄.Lends r since id
    (if n ≠ 0 ∨ decide (o.sent + n = o.lent.length) = true then
      o₁.wrote (o.sent + n) (decide (o.sent + n = o.lent.length)) else o₁)
    (.body head (data ++ (o.lent.drop o.sent).take n))) ?_) ?_
  · exact h₃.earnCredit
  intro _ c₄ h₄
  refine .get_bind (.bind (update_lends h₄ (fun _ => rfl) fun _ => rfl) ?_)
  intro _ c₅ h₅
  exact .pure ⟨hn, rfl, h₅⟩

theorem pumpEnd_heard {o o₁ : Outbox} {message : Message} (h : c.Lends r since id o₁ e)
    (hend : hearAll id e (o.endFrames id c.peerMaxFrame) = some (.closed message)) :
    Prog.Ends (fun _ => True) c (pumpEnd r o) fun _ c' =>
      c'.Lends r since id o₁.ended (.closed message) := by
  refine stream_ends (.get_bind ?_)
  rw [h.named]
  refine .bind (emitAll_heard (r := r) h.heard hend) ?_
  rintro _ c₁ ⟨h₁, hk₁⟩
  refine .bind (updateOut_heard (h.keep hk₁ h₁)) ?_
  intro _ c₂ h₂
  exact update_lends h₂ (fun _ => rfl) fun _ => rfl

/-- The frames that end a streamed body are heard as its end. -/
theorem hearAll_endFrames {o : Outbox} {data : Bytes} (hsize : 0 < c.peerMaxFrame)
    (hhead : o.headOnly = true → e = .waiting ∧ data = []) (hbody : o.headOnly = false → e = .body o.head data) :
    hearAll id e (o.endFrames id c.peerMaxFrame) = some (.closed (o.message data)) := by
  rw [Outbox.endFrames, Outbox.message]
  cases honly : o.headOnly with
  | true =>
    obtain ⟨rfl, rfl⟩ := hhead honly
    rw [if_pos rfl]
    exact (hearAll_headerBlock hsize).1
  | false =>
    rw [hbody honly, if_neg Bool.false_ne_true]
    by_cases htrailers : o.trailers = []
    · rw [if_neg (not_not.mpr htrailers), hearAll_cons, hear_data, htrailers, List.append_nil]
      rfl
    · rw [if_pos htrailers, (hearAll_headerBlock hsize).2, Bool.false_or,
        beq_eq_false_iff_ne.mpr htrailers]
      rfl

/-- A turn of a pipe: what is lent, and how it ends, stay as they are. -/
structure Outbox.Turned (o o' : Outbox) : Prop where
  head : o'.head = o.head
  headOnly : o'.headOnly = o.headOnly
  lent : o'.lent = o.lent
  ending : o'.ending = o.ending
  trailers : o'.trailers = o.trailers

theorem Outbox.Turned.refl (o : Outbox) : o.Turned o := ⟨rfl, rfl, rfl, rfl, rfl⟩

theorem Outbox.Turned.trans {o o' o'' : Outbox} (h : o.Turned o') (h' : o'.Turned o'') :
    o.Turned o'' where
  head := h'.head.trans h.head
  headOnly := h'.headOnly.trans h.headOnly
  lent := h'.lent.trans h.lent
  ending := h'.ending.trans h.ending
  trailers := h'.trailers.trans h.trailers

theorem Outbox.Turned.message {o o' : Outbox} (h : o.Turned o') (data : Bytes) :
    o'.message data = o.message data := by
  rw [Outbox.message, Outbox.message, h.head, h.headOnly, h.trailers]

/-- A turn of a pipe past its head. -/
structure Conn.Underway (c : Conn D) (r : Ref) (since : List Event) (id : StreamId) (o : Outbox)
    (before : Bytes) : Prop extends c.Lends r since id o (o.ear before) where
  inStep : o.InStep before
  alive : o.failure = none
  going : o.done = false
  begun : o.headOnly = false → o.headSent = true

theorem Outbox.ear_going {o : Outbox} {before : Bytes} (hgoing : o.done = false) :
    (o.headSent = true → o.ear before = .body o.head (before ++ o.lent.take o.sent)) ∧
    (o.headSent = false → o.ear before = .waiting) := by
  rw [Outbox.ear, hgoing, if_neg Bool.false_ne_true]
  constructor
  · intro hhead
    rw [if_pos hhead]
  · intro hhead
    rw [hhead, if_neg Bool.false_ne_true]

theorem pumpHead_underway {o : Outbox} {before : Bytes} (h : c.Pipes r since o before)
    (hgoing : o.done = false) :
    Prog.Ends (fun _ => True) c (pumpHead r o) fun _ c' =>
      ∃ o', o.Turned o' ∧ o'.sent = o.sent ∧ o'.pending = o.pending ∧
        c'.Underway r since (c.get r).id o' before := by
  have hlends : c.Lends r since (c.get r).id o (o.ear before) := ⟨h.toSeats, rfl, h.out, h.heard⟩
  have hwaiting : o.headToWrite.isSome → o.headSent = false ∧ o.headOnly = false := by
    rw [Outbox.headToWrite, h.inStep.opened]
    cases o.headSent <;> cases o.headOnly <;> simp
  refine (pumpHead_heard hlends fun hsome => (o.ear_going hgoing).2 (hwaiting hsome).1).weaken ?_
  rintro _ c' ⟨hnone, hsome⟩
  cases hhead : o.headToWrite with
  | none =>
    refine ⟨o, .refl o, rfl, rfl, hnone hhead, h.inStep, h.alive, hgoing, ?_⟩
    intro honly
    rw [Outbox.headToWrite, h.inStep.opened, honly] at hhead
    cases hsent : o.headSent with
    | true => rfl
    | false =>
      rw [hsent] at hhead
      cases hhead
  | some block =>
    have hsome' : o.headToWrite.isSome = true := by rw [hhead]; rfl
    obtain ⟨hsent, honly⟩ := hwaiting hsome'
    obtain ⟨hzero, hbefore⟩ := h.inStep.unsent hsent
    have hear : o.headWritten.ear before = .body o.head [] := by
      have hgone : o.headWritten.ear before = .body o.head (before ++ o.lent.take o.sent) :=
        (o.headWritten.ear_going hgoing).1 rfl
      rw [hgone, hbefore]
      show Ear.body o.head ([] ++ o.lent.take o.sent) = _
      rw [hzero, List.take_zero, List.append_nil]
    have hstep := h.inStep
    refine ⟨o.headWritten, ⟨rfl, rfl, rfl, rfl, rfl⟩, rfl, rfl, hear.symm ▸ hsome hsome', ⟨hstep.opened, hstep.within, hstep.idle, hstep.done, ?_, ?_⟩,
      h.alive, hgoing, fun _ => rfl⟩
    · intro honly'
      exact absurd (honly.symm.trans honly') Bool.false_ne_true
    · intro hsent'
      cases hsent'

theorem pumpPending_underway {o o₁ : Outbox} {before : Bytes} (h : c.Underway r since id o₁ before)
    (hlent : o₁.lent = o.lent) (hsent : o₁.sent = o.sent) (hpending : o₁.pending = o.pending) :
    Prog.Ends (fun _ => True) c (pumpPending r o) fun p c' =>
      ∃ o', o₁.Turned o' ∧ (p.2.1 = true → o'.pending = false) ∧ c'.Underway r since id o' before := by
  rw [pumpPending]
  refine .ite (fun hwork => ?_) fun hwork => .pure ⟨o₁, .refl o₁, fun _ => ?_, h⟩
  · have hwork₁ : o₁.pending = true := hpending.trans hwork
    have honly : o₁.headOnly = false := by
      by_contra honly
      obtain ⟨-, -, -, hidle⟩ := h.inStep.headOnly (Bool.not_eq_false _ ▸ honly)
      rw [hidle] at hwork₁
      cases hwork₁
    have hbegun := h.begun honly
    have hlends := h.toLends
    rw [(o₁.ear_going h.going).1 hbegun] at hlends
    refine (pumpPiece_heard (o := o) hlends).weaken ?_
    rintro ⟨n, complete, quantum⟩ c' ⟨hn, hcomplete, hlends'⟩
    dsimp only at hn hcomplete hlends' ⊢
    rw [← hlent, ← hsent, List.append_assoc, ← List.take_add] at hlends'
    rw [← hlent, ← hsent, List.length_drop] at hn
    rw [← hlent, ← hsent] at hcomplete
    have hwithin := h.inStep.within
    have hstep : ∀ pending consumed, (pending = false → o₁.sent + n = o₁.lent.length) →
        { o₁ with sent := o₁.sent + n, pending, consumed }.InStep before := by
      intro pending consumed hidle
      refine ⟨h.inStep.opened, ?_, hidle, ?_, ?_, ?_⟩
      · show o₁.sent + n ≤ o₁.lent.length
        omega
      · intro hdone
        exact absurd (h.going.symm.trans hdone) Bool.false_ne_true
      · intro honly'
        exact absurd (honly.symm.trans honly') Bool.false_ne_true
      · intro hsent'
        exact absurd (hsent'.symm.trans hbegun) Bool.false_ne_true
    have hunder : ∀ pending consumed, (pending = false → o₁.sent + n = o₁.lent.length) →
        c'.Lends r since id { o₁ with sent := o₁.sent + n, pending, consumed }
          (.body o₁.head (before ++ o₁.lent.take (o₁.sent + n))) →
        c'.Underway r since id { o₁ with sent := o₁.sent + n, pending, consumed } before := by
      intro pending consumed hidle hlends
      refine ⟨?_, hstep pending consumed hidle, h.alive, h.going, fun _ => hbegun⟩
      rw [(Outbox.ear_going (o := { o₁ with sent := o₁.sent + n, pending, consumed }) h.going).1 hbegun]
      exact hlends
    have hturned (sent : Nat) (pending consumed : Bool) :
        o₁.Turned { o₁ with sent, pending, consumed } := ⟨rfl, rfl, rfl, rfl, rfl⟩
    by_cases hmoved : n ≠ 0 ∨ complete = true
    · rw [if_pos hmoved] at hlends'
      cases hall : complete with
      | true =>
        have hsum : o₁.sent + n = o₁.lent.length := of_decide_eq_true (hcomplete.symm.trans hall)
        rw [hall] at hlends'
        exact ⟨_, hturned _ false true, fun _ => rfl, hunder false true (fun _ => hsum) hlends'⟩
      | false =>
        rw [hall] at hlends'
        refine ⟨_, hturned (o₁.sent + n) true o₁.consumed, fun hgone => (by cases hgone), ?_⟩
        refine hunder true o₁.consumed (fun hidle => (by cases hidle)) ?_
        rw [← hwork₁]
        exact hlends'
    · obtain ⟨hzero, hall⟩ := not_or.mp hmoved
      rw [not_not] at hzero
      subst hzero
      rw [if_neg hmoved] at hlends'
      exact ⟨_, hturned _ o₁.pending o₁.consumed, fun hgone => absurd hgone hall,
        hunder o₁.pending o₁.consumed h.inStep.idle hlends'⟩
  · exact (hpending.trans (Bool.eq_false_iff.mpr hwork))

theorem Conn.Underway.pipes {o : Outbox} {before : Bytes} (h : c.Underway r since id o before) :
    c.Pipes r since o before := by
  refine ⟨h.toSeats, h.out, h.inStep, h.alive, ?_⟩
  rw [h.named]
  exact h.heard

/-- A turn leaves the client of a pipe with as much as the pipe says went. -/
theorem pump_heard {o : Outbox} {before : Bytes} (h : c.Pipes r since o before) :
    Prog.Ends (fun _ => True) c (pump r o) fun _ c' =>
      (c'.get r).id = (c.get r).id ∧ ∃ o', o.Turned o' ∧ c'.Pipes r since o' before := by
  refine .ite (fun _ => .pure ⟨rfl, o, ⟨rfl, rfl, rfl, rfl, rfl⟩, h⟩) fun hover => ?_
  have hgoing : o.done = false := by
    rw [Outbox.isOver, Bool.not_eq_true, Bool.or_eq_false_iff] at hover
    exact hover.2
  refine .bind (pumpHead_underway h hgoing) ?_
  rintro headMoved c₁ ⟨o₁, hturned₁, hsent₁, hpending₁, h₁⟩
  refine .bind (pumpPending_underway (o := o) h₁ hturned₁.lent hsent₁ hpending₁) ?_
  rintro ⟨n, complete, quantum⟩ c₂ ⟨o₂, hturned₂, hcomplete, h₂⟩
  have hturned := hturned₁.trans hturned₂
  refine .ite (fun hend => ?_) fun _ => ?_
  · obtain ⟨hending, hall⟩ := Bool.and_eq_true_iff.mp hend
    have hidle : o₂.pending = false := hcomplete hall
    have hframes : hearAll (c.get r).id (o₂.ear before) (o.endFrames (c.get r).id c₂.peerMaxFrame) =
        some (.closed (o.message (before ++ o.lent))) := by
      refine hearAll_endFrames h₂.size (fun honly => ?_) fun honly => ?_
      · obtain ⟨hhead, hlent, hbefore, -⟩ := h₂.inStep.headOnly (hturned.headOnly.trans honly)
        refine ⟨(Outbox.ear_going h₂.going).2 hhead, ?_⟩
        rw [← hturned.lent, hlent, hbefore]
        rfl
      · rw [(Outbox.ear_going h₂.going).1 (h₂.begun (hturned.headOnly.trans honly)), h₂.inStep.idle hidle,
          List.take_length, hturned.lent, hturned.head]
    refine .bind (pumpEnd_heard h₂.toLends hframes) ?_
    intro _ c₃ h₃
    have hstep := h₂.inStep
    refine .pure ⟨h₃.named, o₂.ended, hturned.trans ⟨rfl, rfl, rfl, rfl, rfl⟩, h₃.toSeats, h₃.out, ?_,
      h₂.alive, ?_⟩
    · exact ⟨hstep.opened, hstep.within, hstep.idle, fun _ => ⟨hturned.ending.trans hending, hidle⟩,
        hstep.headOnly, hstep.unsent⟩
    · have heard := h₃.heard
      rw [← hturned.message, ← hturned.lent] at heard
      rw [h₃.named]
      exact heard
  · refine .ite (fun _ => .pure ⟨h₂.named, o₂, hturned, h₂.pipes⟩) fun _ => ?_
    exact .pure ⟨h₂.named, o₂, hturned, h₂.pipes⟩

/-! ## A call that lends, and the turns of its pipe -/

/-- What a call may do to the pipe of its answer: lend the next piece once it is woken from the last, none
for a HEAD, and end the body. -/
def Outbox.Allows (o : Outbox) (canPark : Bool) : CallOp → Prop
  | .lend _ => o.ending = false ∧ o.headOnly = false ∧ (canPark = true → o.pending = false)
  | .finishOut _ => o.ending = false ∧ (canPark = true → o.pending = false)
  | _ => False

/-- What a step of the call lent. -/
def CallOp.lent : CallOp → Bytes
  | .lend piece => piece
  | _ => []

/-- The steps of a call, the turns of its pipe and what the connection does elsewhere, in any order, and
all that the call has lent. A step that finds the connection gone fails the pipe, and ends the run. -/
inductive Lending (r : Ref) (first : Conn D) : Conn D → Outbox → Bytes → Prop where
  | start {o : Outbox} : (first.get r).out = some o → Lending r first first o []
  | elsewhere {c c' : Conn D} {o : Outbox} {lent : Bytes} : Lending r first c o lent →
      Elsewhere r c c' → Lending r first c' o lent
  | call {c : Conn D} {o : Outbox} {lent : Bytes} (op : CallOp) : Lending r first c o lent →
      o.Allows (c.get r).inbox.canPark op → c.shared.dead = false → ∀ {o'},
      ((c.callStep r op).get r).out = some o' → Lending r first (c.callStep r op) o' (lent ++ op.lent)
  | turn {c c' : Conn D} {o o' : Outbox} {lent : Bytes} {pumped : Pumped} : Lending r first c o lent →
      pump r o c = (.ok pumped, c') → (c'.get r).out = some o' → Lending r first c' o' lent

/-- A stream put in the place of another of its reference. -/
theorem Conn.Seats.put (h : c.Seats r) {s : Stream} (hs : s.ref = r) :
    (c.mod r fun _ => s).Seats r ∧ (c.mod r fun _ => s).get r = s := by
  have hput : (c.mod r fun _ => s) = c.mod r fun t => if t.ref = r then s else t := by
    rw [Conn.mod, Conn.mod, edit, edit]
    congr 1
    refine List.map_congr_left ?_
    intro t _
    by_cases ht : t.ref = r
    · rw [if_pos ht, if_pos ht]
    · rw [if_neg ht, if_neg ht]
  have hf : ∀ t : Stream, (if t.ref = r then s else t).ref = t.ref := by
    intro t
    by_cases ht : t.ref = r
    · rw [if_pos ht, hs, ht]
    · rw [if_neg ht]
  rw [hput, h.get_mod hf, if_pos Conn.get_ref]
  exact ⟨h.mod hf, rfl⟩

theorem callStep_parts (op : CallOp) :
    (c.callStep r op).streams = (c.mod r fun _ => (op.run c.shared.dead (c.get r)).1).streams ∧
      (c.callStep r op).trace = c.trace ∧ (c.callStep r op).peerMaxFrame = c.peerMaxFrame := by
  simp only [Conn.callStep]
  split_ifs <;> exact ⟨rfl, rfl, rfl⟩

/-- The step of a call is a change of its stream, and nothing is written. -/
theorem callStep_lends (op : CallOp) {o : Outbox} {f : Outbox → Outbox}
    (h : c.Lends r since id o e) (hrun : (op.run c.shared.dead (c.get r)).1 =
      { c.get r with out := (c.get r).out.map f }) : (c.callStep r op).Lends r since id (f o) e := by
  obtain ⟨hstreams, htrace, hsize⟩ := callStep_parts (c := c) (r := r) op
  obtain ⟨hseat, hget⟩ := h.toSeats.put (s := { c.get r with out := (c.get r).out.map f }) Conn.get_ref
  rw [hrun] at hstreams
  have hrefs : (c.callStep r op).refs = (c.mod r fun _ => { c.get r with out := (c.get r).out.map f }).refs :=
    congrArg (List.map Stream.ref) hstreams
  have hget' : (c.callStep r op).get r = { c.get r with out := (c.get r).out.map f } := by
    rw [← hget, Conn.get, hstreams]
    rfl
  refine ⟨⟨hrefs ▸ hseat.mem, hrefs ▸ hseat.nodup, hsize ▸ h.size⟩, ?_, ?_, ?_⟩
  · rw [hget']
    exact h.named
  · rw [hget', h.out]
    rfl
  · obtain ⟨es, hes, hall⟩ := h.heard
    exact ⟨es, htrace.trans hes, hall⟩

theorem Outbox.ear_same {o o' : Outbox} {before before' : Bytes} (hgoing : o.done = false)
    (hgoing' : o'.done = false) (hhead : o'.headSent = o.headSent) (hblock : o'.head = o.head)
    (hsaid : before' ++ o'.lent.take o'.sent = before ++ o.lent.take o.sent) :
    o'.ear before' = o.ear before := by
  rw [Outbox.ear, Outbox.ear, hgoing, hgoing', hhead, hblock, hsaid, if_neg Bool.false_ne_true,
    if_neg Bool.false_ne_true]

/-- The step of a call that may be taken keeps the parts of its pipe in step. -/
theorem Conn.Pipes.call {o : Outbox} {before : Bytes} (h : c.Pipes r since o before) {op : CallOp}
    (hallows : o.Allows (c.get r).inbox.canPark op) (hdead : c.shared.dead = false) :
    ∃ o' before', (c.callStep r op).Pipes r since o' before' ∧
      before' ++ o'.lent = before ++ o.lent ++ op.lent ∧ ((c.callStep r op).get r).id = (c.get r).id := by
  have hlends : c.Lends r since (c.get r).id o (o.ear before) := ⟨h.toSeats, rfl, h.out, h.heard⟩
  have hgone : o.goneLocked c.shared.dead = o := by
    rw [hdead]
    rfl
  have halive : ¬ o.failure.isSome = true := by
    rw [h.alive]
    decide
  have hpipes {o' : Outbox} {before' : Bytes}
      (hlends' : (c.callStep r op).Lends r since (c.get r).id o' (o.ear before))
      (hfail : o'.failure = none) (hstep : o'.InStep before') (hear : o'.ear before' = o.ear before) :
      (c.callStep r op).Pipes r since o' before' := by
    refine ⟨hlends'.toSeats, hlends'.out, hstep, hfail, ?_⟩
    rw [hear, hlends'.named]
    exact hlends'.heard
  have hstep := h.inStep
  have hdone (hending : o.ending = false) : o.done = false := by
    by_contra hdone
    have := (hstep.done (Bool.not_eq_false _ ▸ hdone)).1
    rw [hending] at this
    cases this
  cases op with
  | lend piece =>
    obtain ⟨hending, honly, hwaits⟩ := hallows
    have hgoing := hdone hending
    have hlends' := callStep_lends (.lend piece)
      (f := fun o => o.lend piece (c.get r).inbox.canPark c.shared.dead) hlends rfl
    rw [Outbox.lend, hgone, if_neg halive] at hlends'
    by_cases hpark : (c.get r).inbox.canPark = true
    · rw [if_pos hpark] at hlends'
      have hsent := hstep.idle (hwaits hpark)
      refine ⟨_, before ++ o.lent, hpipes hlends' h.alive ?_ ?_, rfl, hlends'.named⟩
      · refine ⟨hstep.opened, Nat.zero_le _, fun hidle => (by cases hidle), ?_, ?_, ?_⟩
        · intro hdone'
          exact absurd (hgoing.symm.trans hdone') Bool.false_ne_true
        · intro honly'
          exact absurd (honly.symm.trans honly') Bool.false_ne_true
        · intro hhead
          obtain ⟨hzero, hbefore⟩ := hstep.unsent hhead
          refine ⟨rfl, ?_⟩
          rw [hbefore, List.eq_nil_of_length_eq_zero (hsent.symm.trans hzero)]
          rfl
      · refine Outbox.ear_same hgoing hgoing rfl rfl ?_
        rw [hsent, List.take_length]
        exact List.append_nil _
    · rw [if_neg hpark] at hlends'
      refine ⟨_, before, hpipes hlends' h.alive ?_ ?_, (List.append_assoc ..).symm, hlends'.named⟩
      · refine ⟨hstep.opened, ?_, fun hidle => (by cases hidle), ?_, ?_, hstep.unsent⟩
        · rw [List.length_append]
          exact Nat.le_trans hstep.within (Nat.le_add_right _ _)
        · intro hdone'
          exact absurd (hgoing.symm.trans hdone') Bool.false_ne_true
        · intro honly'
          exact absurd (honly.symm.trans honly') Bool.false_ne_true
      · refine Outbox.ear_same hgoing hgoing rfl rfl ?_
        exact congrArg (before ++ ·) (List.take_append_of_le_length hstep.within)
  | finishOut trailers =>
    obtain ⟨hending, hwaits⟩ := hallows
    have hgoing := hdone hending
    have hlends' := callStep_lends (.finishOut trailers)
      (f := fun o => o.finish trailers c.shared.dead) hlends rfl
    rw [Outbox.finish, hgone, if_neg halive] at hlends'
    refine ⟨_, before, hpipes hlends' h.alive ?_ ?_, (List.append_nil _).symm, hlends'.named⟩
    · refine ⟨hstep.opened, hstep.within, hstep.idle, ?_, hstep.headOnly, hstep.unsent⟩
      intro hdone'
      exact absurd (hgoing.symm.trans hdone') Bool.false_ne_true
    · exact Outbox.ear_same hgoing hgoing rfl rfl rfl
  | _ => cases hallows

theorem Elsewhere.pipes {o : Outbox} {before : Bytes} (h : Elsewhere r c c')
    (hc : c.Pipes r since o before) : c'.Pipes r since o before where
  toSeats := h.seats
  out := (congrArg Speaking.out h.speaking).trans hc.out
  inStep := hc.inStep
  alive := hc.alive
  heard := h.hears (o.ear_quiet before) hc.heard

/-- A pipe that is opened, and of which nothing has gone. -/
structure Conn.Opened (c : Conn D) (r : Ref) (head : Bytes) (headOnly : Bool) : Prop extends c.Seats r where
  out : (c.get r).out = some (Outbox.open_ head headOnly false)

theorem lending_pipes {first : Conn D} {head lent : Bytes} {headOnly : Bool} {o : Outbox}
    (hfirst : first.Opened r head headOnly) (h : Lending r first c o lent) :
    ∃ before, c.Pipes r first.trace o before ∧ before ++ o.lent = lent ∧
      (c.get r).id = (first.get r).id := by
  induction h with
  | start hout =>
    rw [hfirst.out, Option.some_inj] at hout
    subst hout
    refine ⟨[], ⟨hfirst.toSeats, hfirst.out, ?_, rfl, [], rfl, rfl⟩, rfl, rfl⟩
    exact ⟨rfl, Nat.le_refl 0, fun _ => rfl, fun hdone => (by cases hdone), fun _ => ⟨rfl, rfl, rfl, rfl⟩,
      fun _ => ⟨rfl, rfl⟩⟩
  | elsewhere _ hother ih =>
    obtain ⟨before, hpipes, hlent, hid⟩ := ih
    exact ⟨before, hother.pipes hpipes, hlent, (congrArg Speaking.id hother.speaking).trans hid⟩
  | call op _ hallows hdead hout ih =>
    obtain ⟨before, hpipes, hlent, hid⟩ := ih
    obtain ⟨o', before', hpipes', hlent', hid'⟩ := hpipes.call hallows hdead
    obtain rfl := Option.some_inj.mp (hpipes'.out.symm.trans hout)
    exact ⟨before', hpipes', hlent' ▸ hlent ▸ rfl, hid'.trans hid⟩
  | turn _ hturn hout ih =>
    obtain ⟨before, hpipes, hlent, hid⟩ := ih
    have hspec := (pump_heard hpipes).2
    rw [hturn] at hspec
    obtain ⟨hid', o', hturned, hpipes'⟩ := hspec _ rfl
    obtain rfl := Option.some_inj.mp (hpipes'.out.symm.trans hout)
    exact ⟨before, hpipes', hturned.lent ▸ hlent, hid'.trans hid⟩

/-- In whatever order a call lends and the connection writes, the client has heard the head and the front
of all that was lent, and the whole of it and its trailers once the pipe is done. -/
theorem lending_heard {first : Conn D} {head lent : Bytes} {headOnly : Bool} {o : Outbox}
    (hfirst : first.Opened r head headOnly) (h : Lending r first c o lent) : ∃ n,
    c.Told first.trace (first.get r).id
      (if o.done then .closed (o.message lent)
      else if o.headSent then .body o.head (lent.take n)
      else .waiting) ∧ (o.pending = false → n = lent.length) := by
  obtain ⟨before, hpipes, hlent, hid⟩ := lending_pipes hfirst h
  have heard := hpipes.heard
  have htake : lent.take (before.length + o.sent) = before ++ o.lent.take o.sent := by
    rw [← hlent, List.take_length_add_append]
  rw [hid, Outbox.ear, hlent, ← htake] at heard
  refine ⟨before.length + o.sent, heard, fun hidle => ?_⟩
  rw [← hlent, List.length_append, hpipes.inStep.idle hidle]

/-- A call whose pipe is open. -/
def lender : Conn Unit where
  decoder := ()
  streams := [{
    ref := 0, id := 1, phase := .running, sendWindow := 9, out := some (Outbox.open_ [0x88] false false) }]

theorem lending_heard_done : ∃ c o, Lending 0 lender c o [7, 8, 9] ∧ o.done = true ∧
    c.Told [] 1 (.closed ⟨[0x88], [7, 8, 9], some [0x40]⟩) := by
  have hfirst : lender.Opened 0 [0x88] false := ⟨⟨by decide, by decide, by decide⟩, rfl⟩
  have hlent := Lending.call (.lend [7, 8, 9]) (Lending.start rfl : Lending 0 lender lender _ [])
    ⟨rfl, rfl, fun _ => rfl⟩ rfl rfl
  have hwritten := Lending.turn hlent rfl rfl
  have hended := Lending.call (.finishOut [0x40]) hwritten ⟨rfl, fun _ => rfl⟩ rfl rfl
  have hdone := Lending.turn hended rfl rfl
  obtain ⟨n, heard, -⟩ := lending_heard hfirst hdone
  exact ⟨_, _, hdone, rfl, heard⟩

end Lending

end Nilo.Http2
