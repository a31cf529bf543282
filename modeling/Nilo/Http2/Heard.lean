import Nilo.Http2.Goes.Conn
import Nilo.Http2.Writing

/-!
# What a client hears of an answer

An answer is written in as many turns as the windows make of it, and between two turns the connection
writes for other streams. `Ear` is the client of one stream (RFC 9113 §8.1): a header block that nothing
comes into, data, and a header block of trailers behind it, the end of the stream on one frame and the
last. What the turns wrote is always a message so far, and the whole of the answer when the last of them
says so.
-/

namespace Nilo.Http2

open Nilo.Lib Nilo.Text

variable {D : Type}

/-! ## A client -/

/-- An answer as its client has it. -/
structure Message where
  head : Bytes
  data : Bytes := []
  trailers : Option Bytes := none
deriving DecidableEq, Repr

/-- How much of a message there is. -/
inductive Ear where
  | waiting
  /-- In a header block, and with the head and the data behind which it comes when it is trailers. -/
  | block (sofar : Bytes) (ends : Bool) (before : Option (Bytes × Bytes))
  | body (head data : Bytes)
  | closed (message : Message)
deriving DecidableEq, Repr

namespace Ear

/-- A header block is whole. Trailers end the stream. -/
def whole (block : Bytes) (ends : Bool) (before : Option (Bytes × Bytes)) : Option Ear :=
  match before with
  | none => some (if ends then .closed { head := block } else .body block [])
  | some (head, data) => if ends then some (.closed { head, data, trailers := some block }) else none

def gather (block : Bytes) (ends endHeaders : Bool) (before : Option (Bytes × Bytes)) : Option Ear :=
  if endHeaders then whole block ends before else some (.block block ends before)

end Ear

/-- A frame that is part of a stream's answer, or ends it. -/
def Sent.speaksOn (id : StreamId) : Sent → Bool
  | .headers s _ _ _ | .continuation s _ _ | .data s _ _ | .rstStream s _ => s == id
  | _ => false

/-- The client takes a frame of the connection. `none` is what it would not have. -/
def Ear.hear (id : StreamId) (e : Ear) (f : Sent) : Option Ear :=
  match e with
  | .block sofar ends before =>
    match f with
    | .continuation s fragment endHeaders =>
      if s = id then gather (sofar ++ fragment) ends endHeaders before else none
    | _ => none
  | .waiting =>
    if !f.speaksOn id then some .waiting
    else match f with
      | .headers _ fragment ends endHeaders => gather fragment ends endHeaders none
      | _ => none
  | .body head data =>
    if !f.speaksOn id then some (.body head data)
    else match f with
      | .headers _ fragment ends endHeaders => gather fragment ends endHeaders (some (head, data))
      | .data _ payload ends =>
        let data := data ++ payload
        some (if ends then .closed { head, data } else .body head data)
      | _ => none
  | .closed message =>
    if !f.speaksOn id then some (.closed message)
    else match f with
      -- a client that is still sending is asked to stop
      | .rstStream _ .noError => some (.closed message)
      | _ => none

def hearAll (id : StreamId) (e : Ear) (frames : List Sent) : Option Ear :=
  frames.foldlM (Ear.hear id) e

def Event.frame? : Event → Option Sent
  | .wrote f => some f
  | _ => none

/-- The frames of a history, the oldest first. -/
def framesOf (t : List Event) : List Sent := (t.filterMap Event.frame?).reverse

/-- What the client of a stream has heard since a history. -/
def Conn.Told (c : Conn D) (since : List Event) (id : StreamId) (e : Ear) : Prop :=
  ∃ es, c.trace = es ++ since ∧ hearAll id .waiting (framesOf es) = some e

/-! ## Frames -/

section Frames

variable {id : StreamId} {e e' : Ear} {max : Nat}

theorem hearAll_append {xs ys : List Sent} :
    hearAll id e (xs ++ ys) = (hearAll id e xs).bind fun e => hearAll id e ys :=
  List.foldlM_append

theorem hearAll_cons {f : Sent} {fs : List Sent} :
    hearAll id e (f :: fs) = (e.hear id f).bind fun e => hearAll id e fs :=
  List.foldlM_cons

theorem framesOf_append (es since : List Event) :
    framesOf (es ++ since) = framesOf since ++ framesOf es := by
  rw [framesOf, List.filterMap_append, List.reverse_append, framesOf, framesOf]

/-- A message that no header block of is open. -/
def Ear.quiet : Ear → Bool
  | .block .. => false
  | _ => true

theorem hear_aside {f : Sent} (he : e.quiet = true) (hf : f.speaksOn id = false) :
    e.hear id f = some e := by
  have hother : (!f.speaksOn id) = true := by rw [hf, Bool.not_false]
  cases e with
  | block sofar ends before => cases he
  | waiting => exact if_pos hother
  | body head data => exact if_pos hother
  | closed message => exact if_pos hother

/-- What is written for others passes the client by. -/
theorem hearAll_aside {fs : List Sent} (he : e.quiet = true) (hfs : ∀ f ∈ fs, f.speaksOn id = false) :
    hearAll id e fs = some e := by
  induction fs with
  | nil => rfl
  | cons f fs ih =>
    rw [hearAll_cons, hear_aside he (hfs f List.mem_cons_self), Option.bind_some]
    exact ih fun g hg => hfs g (List.mem_cons_of_mem f hg)

/-- The frames of a header block after its first come to the block. -/
theorem hearAll_continuation {ends : Bool} {before : Option (Bytes × Bytes)} (hmax : 0 < max)
    {fuel : Nat} : ∀ {sofar rest : Bytes}, 0 < fuel → rest.length ≤ fuel →
      hearAll id (.block sofar ends before) (continuationFrames id max fuel rest) =
        Ear.whole (sofar ++ rest) ends before := by
  induction fuel with
  | zero => exact fun h _ => absurd h (Nat.lt_irrefl 0)
  | succ fuel ih =>
    intro sofar rest _ hfuel
    rw [continuationFrames, hearAll_cons]
    show (if id = id then _ else none : Option Ear).bind _ = _
    rw [if_pos rfl]
    by_cases hlast : min rest.length max = rest.length
    · rw [beq_iff_eq.mpr hlast, hlast, List.take_length, if_pos rfl, Ear.gather, if_pos rfl]
      cases Ear.whole (sofar ++ rest) ends before <;> rfl
    · have hshort : max < rest.length := by omega
      have hmin : min rest.length max = max := Nat.min_eq_right (Nat.le_of_lt hshort)
      have hdrop : (rest.drop max).length ≤ fuel := by
        rw [List.length_drop]
        omega
      rw [beq_eq_false_iff_ne.mpr hlast, hmin, if_neg Bool.false_ne_true, Ear.gather,
        if_neg Bool.false_ne_true, Option.bind_some, ih (by omega) hdrop, List.append_assoc,
        List.take_append_drop]

/-- A header block is heard as one, wherever the peer's frame size cuts it. -/
theorem hearAll_headerBlock {block : Bytes} {ends : Bool} (hmax : 0 < max) :
    hearAll id .waiting (headerBlockFrames id block ends max) = Ear.whole block ends none ∧
      ∀ head data, hearAll id (.body head data) (headerBlockFrames id block ends max) =
        Ear.whole block ends (some (head, data)) := by
  have hmine : (!(id == id)) = false := by rw [beq_self_eq_true, Bool.not_true]
  have hgather (before : Option (Bytes × Bytes)) :
      ((Ear.gather (block.take (min block.length max)) ends (min block.length max == block.length)
        before).bind fun e => hearAll id e
          (if (min block.length max == block.length) = true then [] else
            continuationFrames id max block.length (block.drop (min block.length max)))) =
        Ear.whole block ends before := by
    by_cases hlast : min block.length max = block.length
    · rw [beq_iff_eq.mpr hlast, hlast, List.take_length, if_pos rfl, Ear.gather, if_pos rfl]
      cases Ear.whole block ends before <;> rfl
    · have hpos : 0 < block.length := by omega
      rw [beq_eq_false_iff_ne.mpr hlast, if_neg Bool.false_ne_true, Ear.gather,
        if_neg Bool.false_ne_true, Option.bind_some, hearAll_continuation hmax hpos
          (by rw [List.length_drop]; omega), List.take_append_drop]
  constructor
  · rw [headerBlockFrames, hearAll_cons, Ear.hear, Sent.speaksOn, hmine, if_neg Bool.false_ne_true]
    exact hgather none
  · intro head data
    rw [headerBlockFrames, hearAll_cons, Ear.hear, Sent.speaksOn, hmine, if_neg Bool.false_ne_true]
    exact hgather (some (head, data))

/-- The DATA of a stream is heard behind what there is of the body. -/
theorem hear_data {head data payload : Bytes} {ends : Bool} :
    (Ear.body head data).hear id (.data id payload ends) =
      some (if ends then .closed { head, data := data ++ payload } else .body head (data ++ payload)) := by
  have hmine : (!Sent.speaksOn id (.data id payload ends)) = false := by
    rw [Sent.speaksOn, beq_self_eq_true, Bool.not_true]
  rw [Ear.hear, hmine, if_neg Bool.false_ne_true]

end Frames

/-! ## What a turn leaves as it was -/

def Stream.answer (s : Stream) : Answer where
  headBlock := s.headBlock
  data := s.data
  trailers := s.trailers
  trailersOnly := s.trailersOnly
  noTrailers := s.noTrailers

/-- What a stream's answer is and how far it has gone. -/
structure Speaking where
  id : StreamId
  answer : Answer
  headSent : Bool
  dataSent : Nat
  out : Option Outbox
deriving DecidableEq, Repr

def Stream.speaking (s : Stream) : Speaking where
  id := s.id
  answer := s.answer
  headSent := s.headSent
  dataSent := s.dataSent
  out := s.out

/-- A stream of the table, and a peer that takes frames with something in them. -/
structure Conn.Seats (c : Conn D) (r : Ref) : Prop where
  mem : r ∈ c.refs
  nodup : c.refs.Nodup
  size : 0 < c.peerMaxFrame

/-- The stream is where it was and has the same answer. -/
structure Keeps (r : Ref) (c c' : Conn D) : Prop where
  refs : c'.refs = c.refs
  size : c'.peerMaxFrame = c.peerMaxFrame
  speaking : (c'.get r).speaking = (c.get r).speaking

section Turns

variable {c c' c'' : Conn D} {r : Ref} {since : List Event} {id : StreamId} {e e' : Ear}

theorem Keeps.refl (r : Ref) (c : Conn D) : Keeps r c c := ⟨rfl, rfl, rfl⟩

theorem Keeps.trans (h : Keeps r c c') (h' : Keeps r c' c'') : Keeps r c c'' where
  refs := h'.refs.trans h.refs
  size := h'.size.trans h.size
  speaking := h'.speaking.trans h.speaking

theorem Conn.Seats.keep (h : c.Seats r) (hk : Keeps r c c') : c'.Seats r where
  mem := hk.refs ▸ h.mem
  nodup := hk.refs ▸ h.nodup
  size := hk.size ▸ h.size

theorem Conn.Seats.get_mod (h : c.Seats r) {f : Stream → Stream} (hf : ∀ s, (f s).ref = s.ref) :
    (c.mod r f).get r = f (c.get r) := Conn.get_mod h.mem hf h.nodup

/-- A change of the stream. -/
theorem Conn.Seats.mod (h : c.Seats r) {f : Stream → Stream} (hf : ∀ s, (f s).ref = s.ref) :
    (c.mod r f).Seats r where
  mem := Conn.mem_mod hf h.mem
  nodup := by
    rw [Conn.refs_mod hf]
    exact h.nodup
  size := h.size

theorem Conn.Seats.keeps_mod (h : c.Seats r) {f : Stream → Stream} (hf : ∀ s, (f s).ref = s.ref)
    (hspeaking : ∀ s, (f s).speaking = s.speaking) : Keeps r c (c.mod r f) where
  refs := Conn.refs_mod hf
  size := rfl
  speaking := by rw [h.get_mod hf, hspeaking]

/-! ## Frames out -/

theorem stream_ends {β : Type} {f : Stream → M D β} {Q : β → Conn D → Prop}
    (h : Prog.Ends (fun _ => True) c (f (c.get r)) Q) :
    Prog.Ends (fun _ => True) c (stream r >>= f) Q := h

theorem emit_heard {f : Sent} (h : c.Told since id e) (hf : e.hear id f = some e') :
    Prog.Ends (fun _ => True) c (emit f) fun _ c' => c'.Told since id e' ∧ Keeps r c c' := by
  obtain ⟨es, htrace, hes⟩ := h
  have hmore : hearAll id .waiting (framesOf (.wrote f :: es)) = some e' := by
    show hearAll id .waiting (framesOf ([.wrote f] ++ es)) = some e'
    rw [framesOf_append, hearAll_append, hes, Option.bind_some]
    show hearAll id e [f] = some e'
    rw [hearAll_cons, hf]
    rfl
  refine .get_bind ?_
  cases hwire : c.wire with
  | none => exact .change ⟨⟨.wrote f :: es, congrArg _ htrace, hmore⟩, ⟨rfl, rfl, rfl⟩⟩
  | some n =>
    cases n with
    | zero => exact ⟨fun _ _ => trivial, fun _ hok => by cases hok⟩
    | succ n => exact .change ⟨⟨.wrote f :: es, congrArg _ htrace, hmore⟩, ⟨rfl, rfl, rfl⟩⟩

theorem emitAll_heard {fs : List Sent} : ∀ {c : Conn D} {e : Ear}, c.Told since id e →
    hearAll id e fs = some e' →
    Prog.Ends (fun _ => True) c (emitAll fs) fun _ c' => c'.Told since id e' ∧ Keeps r c c' := by
  induction fs with
  | nil =>
    intro c e h hfs
    cases hfs
    exact .pure ⟨h, .refl r c⟩
  | cons f fs ih =>
    intro c e h hfs
    rw [hearAll_cons] at hfs
    obtain ⟨e₁, hf, hfs⟩ := Option.bind_eq_some_iff.mp hfs
    refine .bind (emit_heard (r := r) h hf) ?_
    rintro _ c₁ ⟨h₁, hk₁⟩
    refine (ih h₁ hfs).weaken ?_
    rintro _ c₂ ⟨h₂, hk₂⟩
    exact ⟨h₂, hk₁.trans hk₂⟩

/-- A frame of DATA, off both windows. -/
theorem emitData_heard {payload : Bytes} {ends : Bool} (hs : c.Seats r) (h : c.Told since (c.get r).id e)
    (hf : e.hear (c.get r).id (.data (c.get r).id payload ends) = some e') :
    Prog.Ends (fun _ => True) c (emitData r payload ends) fun _ c' =>
      c'.Told since (c.get r).id e' ∧ Keeps r c c' := by
  refine stream_ends ?_
  refine .bind (emit_heard (r := r) h hf) ?_
  rintro _ c₁ ⟨h₁, hk₁⟩
  refine .bind (.change (Q := fun _ c₂ => c₂.Told since (c.get r).id e' ∧ Keeps r c c₂) ?_) ?_
  · exact ⟨h₁, hk₁.trans ⟨rfl, rfl, rfl⟩⟩
  · rintro _ c₂ ⟨h₂, hk₂⟩
    refine .change ⟨h₂, hk₂.trans ?_⟩
    exact (hs.keep hk₂).keeps_mod (fun _ => rfl) fun _ => rfl

theorem dataFrames_nil {ends : Bool} {fuel quantum : Nat} :
    (dataFrames r ends fuel quantum [] : M D Nat) = pure 0 := by
  cases fuel with
  | zero => rfl
  | succ fuel => exact if_pos (Or.inl rfl)

/-- DATA frames are heard as the bytes they carry, and the stream as ended on the last of them. -/
theorem dataFrames_heard {head : Bytes} {ends : Bool} (fuel : Nat) :
    ∀ {c : Conn D} {quantum : Nat} {bytes data : Bytes}, c.Seats r →
      c.Told since (c.get r).id (.body head data) →
      Prog.Ends (fun _ => True) c (dataFrames r ends fuel quantum bytes) fun n c' =>
        n ≤ bytes.length ∧ Keeps r c c' ∧
          c'.Told since (c.get r).id
            (if ends = true ∧ bytes ≠ [] ∧ n = bytes.length then .closed { head, data := data ++ bytes }
            else .body head (data ++ bytes.take n)) := by
  induction fuel with
  | zero =>
    intro c quantum bytes data hs h
    refine .pure ⟨Nat.zero_le _, .refl r c, ?_⟩
    rw [if_neg, List.take_zero, List.append_nil]
    · exact h
    · rintro ⟨-, hne, hn⟩
      exact hne (List.eq_nil_of_length_eq_zero hn.symm)
  | succ fuel ih =>
    intro c quantum bytes data hs h
    have hnone : Keeps r c c ∧ c.Told since (c.get r).id
        (if ends = true ∧ bytes ≠ [] ∧ 0 = bytes.length then .closed { head, data := data ++ bytes }
        else .body head (data ++ bytes.take 0)) := by
      rw [if_neg, List.take_zero, List.append_nil]
      · exact ⟨.refl r c, h⟩
      · rintro ⟨-, hne, hn⟩
        exact hne (List.eq_nil_of_length_eq_zero hn.symm)
    refine .ite (fun _ => .pure ⟨Nat.zero_le _, hnone⟩) fun hmore => ?_
    refine .get_bind (.ite (fun _ => .pure ⟨Nat.zero_le _, hnone⟩) fun _ => ?_)
    obtain ⟨hne, -⟩ := not_or.mp hmore
    refine .get_bind ?_
    have hn : c.portion r bytes.length quantum ≤ bytes.length := by
      rw [Conn.portion]
      omega
    generalize c.portion r bytes.length quantum = n at hn
    have hlength : (bytes.take n).length = n := List.length_take_of_le hn
    refine .bind (emitData_heard hs h hear_data) ?_
    rintro _ c₁ ⟨h₁, hk₁⟩
    have hid : (c₁.get r).id = (c.get r).id := congrArg Speaking.id hk₁.speaking
    by_cases hlast : (ends && n == bytes.length) = true
    · -- the frame that ends the stream is the last of them
      rw [if_pos hlast] at h₁
      obtain ⟨hends, hall⟩ := Bool.and_eq_true_iff.mp hlast
      have hall : n = bytes.length := beq_iff_eq.mp hall
      have hwhole : bytes.take n = bytes := List.take_of_length_le (Nat.le_of_eq hall.symm)
      rw [List.drop_eq_nil_of_le (Nat.le_of_eq hall.symm), dataFrames_nil]
      refine .bind (.pure (Q := fun more c' => more = 0 ∧ c' = c₁) ⟨rfl, rfl⟩) ?_
      rintro _ _ ⟨rfl, rfl⟩
      refine .pure ⟨Nat.le_trans (Nat.le_of_eq (Nat.add_zero n)) hn, hk₁, ?_⟩
      rw [if_pos ⟨hends, hne, hall⟩]
      rwa [hwhole] at h₁
    · rw [if_neg hlast] at h₁
      refine .bind (ih (hs.keep hk₁) (hid ▸ h₁)) ?_
      rintro more c₂ ⟨hle, hk₂, h₂⟩
      rw [List.length_drop] at hle h₂
      rw [hid, List.append_assoc, List.append_assoc, List.take_append_drop] at h₂
      refine .pure ⟨by omega, hk₁.trans hk₂, ?_⟩
      have hsame : (ends = true ∧ bytes.drop n ≠ [] ∧ more = bytes.length - n) ↔
          ends = true ∧ bytes ≠ [] ∧ n + more = bytes.length := by
        rw [Bool.and_eq_true, beq_iff_eq] at hlast
        constructor
        · rintro ⟨hends, -, hmore⟩
          exact ⟨hends, hne, by omega⟩
        · rintro ⟨hends, -, hmore⟩
          refine ⟨hends, ?_, by omega⟩
          intro hdrop
          have := List.drop_eq_nil_iff.mp hdrop
          exact hlast ⟨hends, by omega⟩
      have htake : bytes.take n ++ (bytes.drop n).take more = bytes.take (n + more) := List.take_add.symm
      rw [htake] at h₂
      by_cases hend : ends = true ∧ bytes ≠ [] ∧ n + more = bytes.length
      · rw [if_pos hend]
        rwa [if_pos (hsame.mpr hend)] at h₂
      · rw [if_neg hend]
        rwa [if_neg fun hend' => hend (hsame.mp hend')] at h₂

/-! ## A turn of a whole answer -/

/-- Letting a stream go writes nothing. -/
theorem told_forget {why : Cause} (h : c.Told since id e) : (c.forget r why).Told since id e := by
  obtain ⟨es, htrace, hes⟩ := h
  obtain ⟨left, hleft⟩ : ∃ left, (c.forget r why).trace = .left left why :: c.trace :=
    Conn.trace_forget
  exact ⟨.left left why :: es, hleft.trans (congrArg _ htrace), hes⟩

theorem finished_heard {message : Message} (h : c.Told since (c.get r).id (.closed message)) :
    Prog.Ends (fun _ => True) c (finished r) fun _ c' => c'.Told since (c.get r).id (.closed message) := by
  have hmine : (!Sent.speaksOn (c.get r).id (.rstStream (c.get r).id .noError)) = false := by
    rw [Sent.speaksOn, beq_self_eq_true, Bool.not_true]
  have hrst : (Ear.closed message).hear (c.get r).id (.rstStream (c.get r).id .noError) =
      some (.closed message) := by
    rw [Ear.hear, hmine, if_neg Bool.false_ne_true]
  refine stream_ends ?_
  refine .bind (.when (Q := fun _ c' => c'.Told since (c.get r).id (.closed message)) ?_ fun _ => h) ?_
  · intro _
    exact (emit_heard (r := r) h hrst).weaken fun _ _ hq => hq.1
  · intro _ c₁ h₁
    exact .change (told_forget h₁)

/-- The message an answer is. -/
def Answer.message (a : Answer) : Message where
  head := a.headBlock
  data := if a.trailersOnly then [] else a.data
  trailers := if a.trailersOnly || a.noTrailers then none else some a.trailers

/-- Something of an answer ends its stream. -/
def Answer.Ends (a : Answer) : Prop := a.trailersOnly = true ∨ a.noTrailers = false ∨ a.data ≠ []

/-- What the client has of an answer that is being written. -/
def Stream.ear (s : Stream) : Ear :=
  if s.headSent then .body s.headBlock (s.data.take s.dataSent) else .waiting

/-- An answer is partway: its client has as much as the stream says went. -/
structure Conn.Partway (c : Conn D) (r : Ref) (since : List Event) : Prop extends c.Seats r where
  unsent : (c.get r).headSent = false → (c.get r).dataSent = 0
  short : (c.get r).headSent = true →
    (c.get r).trailersOnly = false ∧ (c.get r).dataSent < (c.get r).data.length
  heard : c.Told since (c.get r).id (c.get r).ear

/-- The body of an answer, from where the turn before left it. -/
theorem writeBody_heard {s : Stream} (hseat : c.Seats r)
    (honly : s.trailersOnly = false) (hid : s.id = (c.get r).id) (hanswer : (c.get r).answer = s.answer)
    (hsent : (c.get r).headSent = true ∧ (c.get r).dataSent = s.dataSent)
    (hshort : s.noTrailers = true → s.dataSent < s.data.length)
    (h : c.Told since (c.get r).id (.body s.headBlock (s.data.take s.dataSent))) :
    Prog.Ends (fun _ => True) c (writeBody r s) fun gone c' =>
      (gone = true → c'.Told since (c.get r).id (.closed s.answer.message)) ∧
      (gone = false → c'.Partway r since ∧ (c'.get r).id = (c.get r).id ∧
        (c'.get r).answer = s.answer) := by
  obtain ⟨hhead, hsent⟩ := hsent
  refine .bind (dataFrames_heard _ hseat h) ?_
  rintro n c₁ ⟨hn, hk₁, h₁⟩
  rw [← List.take_add, List.take_append_drop] at h₁
  have hseat₁ := hseat.keep hk₁
  have hid₁ : (c₁.get r).id = (c.get r).id := congrArg Speaking.id hk₁.speaking
  have hanswer₁ : (c₁.get r).answer = s.answer := (congrArg Speaking.answer hk₁.speaking).trans hanswer
  have hhead₁ : (c₁.get r).headSent = true := (congrArg Speaking.headSent hk₁.speaking).trans hhead
  have hsent₁ : (c₁.get r).dataSent = s.dataSent :=
    (congrArg Speaking.dataSent hk₁.speaking).trans hsent
  -- the count of what went
  refine .bind (.change (Q := fun _ c₂ => c₂.trace = c₁.trace ∧ c₂.Seats r ∧
    c₂.get r = { c₁.get r with dataSent := (c₁.get r).dataSent + n }) ?_) ?_
  · exact ⟨rfl, hseat₁.mod fun _ => rfl, hseat₁.get_mod fun _ => rfl⟩
  rintro _ c₂ ⟨htrace₂, hseat₂, hget₂⟩
  have h₂ (e : Ear) (h : c₁.Told since (c.get r).id e) : c₂.Told since (c₂.get r).id e := by
    rw [hget₂, hid₁]
    obtain ⟨es, htrace, hes⟩ := h
    exact ⟨es, htrace₂.trans htrace, hes⟩
  have hid₂ : (c₂.get r).id = (c.get r).id := by rw [hget₂, hid₁]
  have hanswer₂ : (c₂.get r).answer = s.answer := by
    rw [hget₂]
    exact hanswer₁
  refine .ite (fun hless => .pure ⟨fun hgone => (by cases hgone), fun _ => ⟨?_, hid₂, hanswer₂⟩⟩)
    fun hall => ?_
  · -- the windows are shut
    rw [if_neg fun hlast => absurd hlast.2.2 (Nat.ne_of_lt hless)] at h₁
    rw [List.length_drop] at hless
    have hdata : (c₂.get r).data = s.data := congrArg Answer.data hanswer₂
    have hblock : (c₂.get r).headBlock = s.headBlock := congrArg Answer.headBlock hanswer₂
    have htrailers : (c₂.get r).trailersOnly = s.trailersOnly := congrArg Answer.trailersOnly hanswer₂
    have hheads : (c₂.get r).headSent = true := by
      rw [hget₂]
      exact hhead₁
    have hcount : (c₂.get r).dataSent = s.dataSent + n := by
      rw [hget₂]
      exact congrArg (· + n) hsent₁
    refine ⟨hseat₂, fun hno => ?_, fun _ => ⟨htrailers.trans honly, ?_⟩, ?_⟩
    · rw [hheads] at hno
      cases hno
    · rw [hdata, hcount]
      omega
    · rw [Stream.ear, if_pos hheads, hdata, hblock, hcount]
      exact h₂ _ h₁
  · have hall : n = (s.data.drop s.dataSent).length := Nat.le_antisymm hn (Nat.le_of_not_lt hall)
    have hwhole : s.data.take (s.dataSent + n) = s.data := by
      rw [List.take_of_length_le]
      rw [hall, List.length_drop]
      omega
    have hout (c₃ : Conn D) (hid₃ : (c₃.get r).id = (c.get r).id)
        (h₃ : c₃.Told since (c₃.get r).id (.closed s.answer.message)) : Prog.Ends (fun _ => True) c₃
          (do finished r; return true) fun gone c' =>
            (gone = true → c'.Told since (c.get r).id (.closed s.answer.message)) ∧
            (gone = false → c'.Partway r since ∧ (c'.get r).id = (c.get r).id ∧
              (c'.get r).answer = s.answer) := by
      refine .bind (finished_heard h₃) ?_
      intro _ c' h'
      refine .pure ⟨fun _ => ?_, fun hgone => (by cases hgone)⟩
      rwa [hid₃] at h'
    cases hno : s.noTrailers with
    | true =>
      have hne : s.data.drop s.dataSent ≠ [] := by
        intro hnil
        have := List.drop_eq_nil_iff.mp hnil
        have := hshort hno
        omega
      rw [if_pos ⟨hno, hne, hall⟩] at h₁
      have hmessage : s.answer.message = { head := s.headBlock, data := s.data } := by
        rw [Answer.message, Stream.answer]
        dsimp only
        rw [honly, hno]
        rfl
      refine .bind (.pure (Q := fun _ c' => c' = c₂) rfl) ?_
      rintro _ _ rfl
      refine hout _ hid₂ ?_
      rw [hmessage]
      exact h₂ _ h₁
    | false =>
      rw [if_neg (fun hlast => by rw [hno] at hlast; cases hlast.1), hwhole] at h₁
      have hmessage : s.answer.message =
          { head := s.headBlock, data := s.data, trailers := some s.trailers } := by
        rw [Answer.message, Stream.answer]
        dsimp only
        rw [honly, hno]
        rfl
      have htrailers : hearAll (c₂.get r).id (.body s.headBlock s.data)
          (headerBlockFrames s.id s.trailers true c₂.peerMaxFrame) = some (.closed s.answer.message) := by
        rw [hmessage, hid, ← hid₂]
        exact (hearAll_headerBlock hseat₂.size).2 s.headBlock s.data
      refine .bind (.get_bind (emitAll_heard (r := r) (h₂ _ h₁) htrailers)) ?_
      rintro _ c₃ ⟨h₃, hk₃⟩
      have hid₃ : (c₃.get r).id = (c₂.get r).id := congrArg Speaking.id hk₃.speaking
      refine hout c₃ (hid₃.trans hid₂) ?_
      rwa [hid₃]

/-- A turn leaves its client with as much as it says went, and with the whole answer when it says so. -/
theorem writeStream_heard (h : c.Partway r since) (hends : (c.get r).answer.Ends) :
    Prog.Ends (fun _ => True) c (writeStream r) fun gone c' =>
      (gone = true → c'.Told since (c.get r).id (.closed (c.get r).answer.message)) ∧
      (gone = false → c'.Partway r since ∧ (c'.get r).id = (c.get r).id ∧
        (c'.get r).answer = (c.get r).answer) := by
  have hdata (honly : (c.get r).trailersOnly = false) (hno : (c.get r).noTrailers = true) :
      (c.get r).data ≠ [] := by
    rcases hends with hends | hends | hends
    · exact absurd (honly.symm.trans hends) Bool.false_ne_true
    · exact absurd (hends.symm.trans hno) Bool.false_ne_true
    · exact hends
  have hheard := h.heard
  refine stream_ends ?_
  cases hhead : (c.get r).headSent with
  | true =>
    obtain ⟨honly, hshort⟩ := h.short hhead
    refine .bind (.pure (Q := fun _ c' => c' = c) rfl) ?_
    rintro _ _ rfl
    refine .ite (fun hfirst => absurd hfirst Bool.false_ne_true) fun _ => ?_
    rw [Stream.ear, if_pos hhead] at hheard
    exact writeBody_heard h.toSeats honly rfl rfl ⟨hhead, rfl⟩ (fun _ => hshort) hheard
  | false =>
    have hfresh := h.unsent hhead
    rw [Stream.ear, hhead, if_neg Bool.false_ne_true] at hheard
    have hblock : hearAll (c.get r).id .waiting
        (headerBlockFrames (c.get r).id (c.get r).headBlock (c.get r).trailersOnly c.peerMaxFrame) =
          some (if (c.get r).trailersOnly then .closed { head := (c.get r).headBlock }
            else .body (c.get r).headBlock []) := (hearAll_headerBlock h.size).1
    refine .bind (Q := fun _ c₂ => c₂.Seats r ∧
      (c₂.get r).speaking = { (c.get r).speaking with headSent := true } ∧
      c₂.Told since (c.get r).id (if (c.get r).trailersOnly then .closed { head := (c.get r).headBlock }
        else .body (c.get r).headBlock [])) (.get_bind (.bind (emitAll_heard (r := r) hheard hblock) ?_)) ?_
    · rintro _ c₁ ⟨h₁, hk₁⟩
      have hseat₁ := h.toSeats.keep hk₁
      have hget : (c₁.mod r fun s => { s with headSent := true }).get r =
          { c₁.get r with headSent := true } := hseat₁.get_mod fun _ => rfl
      refine .change ⟨hseat₁.mod fun _ => rfl, ?_, h₁⟩
      exact (congrArg Stream.speaking hget).trans
        (congrArg (fun s : Speaking => { s with headSent := true }) hk₁.speaking)
    rintro _ c₂ ⟨hseat₂, hspeaking, h₂⟩
    have hid₂ : (c₂.get r).id = (c.get r).id := congrArg Speaking.id hspeaking
    rw [← hid₂] at h₂
    refine .ite (fun honly => ?_) fun honly => ?_
    · -- the head is the whole answer
      have honly : (c.get r).trailersOnly = true := honly
      rw [honly, if_pos rfl] at h₂
      refine .bind (finished_heard h₂) ?_
      intro _ c' h'
      refine .pure ⟨fun _ => ?_, fun hgone => (by cases hgone)⟩
      rw [hid₂] at h'
      rw [Answer.message, Stream.answer]
      dsimp only
      rw [honly]
      exact h'
    · have honly : (c.get r).trailersOnly = false := Bool.eq_false_iff.mpr honly
      rw [honly, if_neg Bool.false_ne_true] at h₂
      have hsent : (c₂.get r).dataSent = (c.get r).dataSent := congrArg Speaking.dataSent hspeaking
      have hnone : (c.get r).data.take (c.get r).dataSent = [] := by rw [hfresh, List.take_zero]
      have hshort (hno : (c.get r).noTrailers = true) : (c.get r).dataSent < (c.get r).data.length := by
        rw [hfresh]
        exact List.length_pos_of_ne_nil (hdata honly hno)
      rw [← hnone] at h₂
      refine (writeBody_heard hseat₂ honly hid₂.symm (congrArg Speaking.answer hspeaking)
        ⟨congrArg Speaking.headSent hspeaking, hsent⟩ hshort h₂).weaken ?_
      intro gone c' hq
      rwa [hid₂] at hq

/-! ## Any number of turns -/

/-- What the connection does between two turns of a stream: anything that is not its answer. The windows
and the frame size are whatever the peer made them, and frames go out for other streams. -/
structure Elsewhere (r : Ref) (c c' : Conn D) : Prop where
  seats : c'.Seats r
  speaking : (c'.get r).speaking = (c.get r).speaking
  trace : ∃ es, c'.trace = es ++ c.trace ∧ ∀ f ∈ framesOf es, f.speaksOn (c.get r).id = false

/-- The turns in which an answer is written, from where none of it had gone, and whether it is out. -/
inductive Turns (r : Ref) (first : Conn D) : Conn D → Bool → Prop where
  | start : Turns r first first false
  | elsewhere {c c' : Conn D} : Turns r first c false → Elsewhere r c c' → Turns r first c' false
  | turn {c c' : Conn D} {gone : Bool} : Turns r first c false → writeStream r c = (.ok gone, c') →
      Turns r first c' gone

theorem Elsewhere.hears (h : Elsewhere r c c') (he : e.quiet = true) (hc : c.Told since (c.get r).id e) :
    c'.Told since (c'.get r).id e := by
  obtain ⟨es, htrace, haside⟩ := h.trace
  obtain ⟨es', htrace', hes'⟩ := hc
  have hid : (c'.get r).id = (c.get r).id := congrArg Speaking.id h.speaking
  refine ⟨es ++ es', ?_, ?_⟩
  · rw [htrace, htrace', List.append_assoc]
  · rw [framesOf_append, hearAll_append, hid, hes', Option.bind_some]
    exact hearAll_aside he haside

theorem Stream.ear_quiet (s : Stream) : s.ear.quiet = true := by
  rw [Stream.ear]
  split_ifs <;> rfl

theorem Stream.ear_speaking {s s' : Stream} (h : s'.speaking = s.speaking) : s'.ear = s.ear := by
  have hdata : s'.data = s.data := congrArg (fun p : Speaking => p.answer.data) h
  have hblock : s'.headBlock = s.headBlock := congrArg (fun p : Speaking => p.answer.headBlock) h
  have hhead : s'.headSent = s.headSent := congrArg Speaking.headSent h
  have hsent : s'.dataSent = s.dataSent := congrArg Speaking.dataSent h
  rw [Stream.ear, Stream.ear, hdata, hblock, hhead, hsent]

theorem Elsewhere.partway (h : Elsewhere r c c') (hc : c.Partway r since) : c'.Partway r since := by
  have hdata : (c'.get r).data = (c.get r).data := congrArg (fun p : Speaking => p.answer.data) h.speaking
  have honly : (c'.get r).trailersOnly = (c.get r).trailersOnly :=
    congrArg (fun p : Speaking => p.answer.trailersOnly) h.speaking
  have hhead : (c'.get r).headSent = (c.get r).headSent := congrArg Speaking.headSent h.speaking
  have hsent : (c'.get r).dataSent = (c.get r).dataSent := congrArg Speaking.dataSent h.speaking
  refine ⟨h.seats, ?_, ?_, ?_⟩
  · rw [hhead, hsent]
    exact hc.unsent
  · rw [hhead, hsent, honly, hdata]
    exact hc.short
  · rw [Stream.ear_speaking h.speaking]
    exact h.hears (c.get r).ear_quiet hc.heard

/-- An answer of which nothing has gone. -/
structure Conn.Unsaid (c : Conn D) (r : Ref) : Prop extends c.Seats r where
  head : (c.get r).headSent = false
  data : (c.get r).dataSent = 0

theorem Conn.Unsaid.partway (h : c.Unsaid r) : c.Partway r c.trace := by
  refine ⟨h.toSeats, fun _ => h.data, fun hhead => ?_, [], rfl, ?_⟩
  · rw [h.head] at hhead
    cases hhead
  · rw [Stream.ear, h.head]
    rfl

theorem turns_partway {first : Conn D} {gone : Bool} (hfirst : first.Unsaid r)
    (hends : (first.get r).answer.Ends) (h : Turns r first c gone) :
    (gone = true → c.Told first.trace (first.get r).id (.closed (first.get r).answer.message)) ∧
    (gone = false → c.Partway r first.trace ∧ (c.get r).id = (first.get r).id ∧
      (c.get r).answer = (first.get r).answer) := by
  induction h with
  | start => exact ⟨fun hgone => (by cases hgone), fun _ => ⟨hfirst.partway, rfl, rfl⟩⟩
  | elsewhere _ hother ih =>
    obtain ⟨hpart, hid, hanswer⟩ := ih.2 rfl
    exact ⟨fun hgone => (by cases hgone), fun _ => ⟨hother.partway hpart,
      (congrArg Speaking.id hother.speaking).trans hid,
      (congrArg Speaking.answer hother.speaking).trans hanswer⟩⟩
  | turn _ hturn ih =>
    obtain ⟨hpart, hid, hanswer⟩ := ih.2 rfl
    have hspec := (writeStream_heard hpart (hanswer ▸ hends)).2
    rw [hturn, hid, hanswer] at hspec
    exact hspec _ rfl

/-- Whatever the windows, the frame sizes and the other streams make of the turns, the client of a stream
has heard the answer so far, whole when it is out and else as much of it as the stream counts. -/
theorem turns_heard {first : Conn D} {gone : Bool} (hfirst : first.Unsaid r)
    (hends : (first.get r).answer.Ends) (h : Turns r first c gone) :
    c.Told first.trace (first.get r).id
      (if gone then .closed (first.get r).answer.message else (c.get r).ear) := by
  obtain ⟨hgone, hpart⟩ := turns_partway hfirst hends h
  cases gone with
  | true => exact hgone rfl
  | false =>
    obtain ⟨hpart, hid, -⟩ := hpart rfl
    have heard := hpart.heard
    rwa [hid] at heard

/-- An answer of three bytes, and a window of two. -/
def narrow : Conn Unit where
  decoder := ()
  streams := [{
    ref := 0, id := 1, phase := .writing, sendWindow := 2
    headBlock := [0x88], data := [7, 8, 9], noTrailers := true }]

theorem turns_heard_narrow : ∃ c c' : Conn Unit, Turns 0 narrow c false ∧ Turns 0 narrow c' true ∧
    c.Told [] 1 (.body [0x88] [7, 8]) ∧ c'.Told [] 1 (.closed ⟨[0x88], [7, 8, 9], none⟩) := by
  have hfirst : narrow.Unsaid 0 := ⟨⟨by decide, by decide, by decide⟩, rfl, rfl⟩
  have hends : (narrow.get 0).answer.Ends := .inr (.inr (by decide))
  have hfront : Turns 0 narrow ((writeStream 0).exec narrow) false := .turn .start rfl
  have hopen : Turns 0 narrow (((writeStream 0).exec narrow).mod 0 fun s => { s with sendWindow := 1 })
      false := .elsewhere hfront ⟨⟨by decide, by decide, by decide⟩, rfl, [], rfl, by decide⟩
  have hwhole := Turns.turn hopen rfl
  exact ⟨_, _, hfront, hwhole, turns_heard hfirst hends hfront, turns_heard hfirst hends hwhole⟩

/-! ## What a route answers -/

/-- A route's answer over HTTP/2: its head's block, its body, and the block its trailers make if it set
some. -/
def httpReply (headBlock body : Bytes) (trailers : Option Bytes) : Answer :=
  match trailers with
  | some trailers => { headBlock, data := body, trailers }
  | none =>
    -- the head is the whole answer, and ends the stream
    if body = [] then { headBlock, data := body, trailersOnly := true }
    else { headBlock, data := body, noTrailers := true }

theorem httpReply_message (headBlock body : Bytes) (trailers : Option Bytes) :
    (httpReply headBlock body trailers).Ends ∧
      (httpReply headBlock body trailers).message = { head := headBlock, data := body, trailers } := by
  cases trailers with
  | some trailers => exact ⟨.inr (.inl rfl), rfl⟩
  | none =>
    by_cases hbody : body = []
    · subst hbody
      exact ⟨.inl rfl, rfl⟩
    · rw [httpReply, if_neg hbody]
      exact ⟨.inr (.inr hbody), rfl⟩

end Turns

end Nilo.Http2
