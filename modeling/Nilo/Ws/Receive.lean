import Nilo.Ws.Plain

/-!
# `receive` is the plain reassembly

However a stream is split into reads, and whatever is posted or stays silent between them, `receive`
answers what `reassemble` makes of the stream's frames. Each reader is first put in terms of the
stream alone (`Reads`); a turn of the loop is then a step of the reassembly or a wait, and the loop
follows by induction.
-/

namespace Nilo.Ws

open Text (Bytes)
open Mem (Fault)

/-! ## The stream -/

def bytesOf : List Event → Bytes
  | [] => []
  | .bytes first more :: rest => first :: more ++ bytesOf rest
  | _ :: rest => bytesOf rest

/-- What of the peer's stream is still to be read. -/
def Socket.stream (self : Socket) : Bytes := self.held ++ bytesOf self.coming

/-- How many waits come to their limit before the peer is asked whether it is there. -/
def waits (idleMs : Nat) : Nat := if idleMs ≤ idlePeekMs then 1 else 2

/-- The server is not stopped, and where silence has a limit, no silence lasts for two of it. `k` are
the waits since bytes came last. -/
def lively (idleMs : Nat) : Nat → List Event → Bool
  | _, [] => true
  | _, .bytes _ _ :: rest => lively idleMs 0 rest
  | k, .quiet :: rest => (idleMs == 0 || k + 1 < 2 * waits idleMs) && lively idleMs (k + 1) rest
  | k, .post _ :: rest => lively idleMs k rest
  | _, .stop :: _ => false

/-- `s` is what reading leaves of `ws`: of its stream, `b` is still to be read. -/
def Reads (ws : Socket) (b : Bytes) (s : Socket) : Prop :=
  ∃ held coming posts, s = { ws with held := held, coming := coming, posts := posts } ∧
    held ++ bytesOf coming = b ∧ coming.length ≤ ws.coming.length ∧
    ∃ k, lively ws.idleMs k coming = true

variable {ws s : Socket} {b : Bytes}

theorem Reads.refl {k : Nat} (h : lively ws.idleMs k ws.coming = true) :
    Reads ws ws.stream ws :=
  ⟨ws.held, ws.coming, ws.posts, rfl, rfl, Nat.le_refl _, k, h⟩

theorem Reads.trans {s' : Socket} {b' : Bytes} (h : Reads ws b s) (h' : Reads s b' s') :
    Reads ws b' s' := by
  obtain ⟨held, coming, posts, rfl, -, hle, -⟩ := h
  obtain ⟨held', coming', posts', rfl, hb, hle', hk⟩ := h'
  exact ⟨held', coming', posts', rfl, hb, Nat.le_trans hle' hle, hk⟩

theorem Reads.stream (h : Reads ws b s) : s.stream = b := by
  obtain ⟨held, coming, posts, rfl, hb, -, -⟩ := h
  exact hb

theorem Reads.lively (h : Reads ws b s) : ∃ k, lively s.idleMs k s.coming = true := by
  obtain ⟨held, coming, posts, rfl, -, -, hk⟩ := h
  exact hk

theorem Reads.toss (h : Reads ws b s) {n : Nat} (hn : n ≤ s.held.length) :
    Reads ws (b.drop n) (s.toss n) := by
  obtain ⟨held, coming, posts, rfl, rfl, hle, hk⟩ := h
  exact ⟨held.drop n, coming, posts, rfl, (List.drop_append_of_le_length hn).symm, hle, hk⟩

/-- What is said to the peer in answer: not this end's own pings, nor what the rooms post. -/
def Sent.isAnswer : Sent → Bool
  | .frame opcode _ => opcode != .ping
  | .post _ => false

def Socket.said (self : Socket) : List Sent := self.sent.filter Sent.isAnswer

/-- The conversation goes on: `b` is still to be read, and `sent` has been said. -/
structure Goes (ws : Socket) (b : Bytes) (sent : List Sent) (s : Socket) : Prop where
  stream : s.stream = b
  said : s.said = ws.said ++ sent
  closed : s.closed = false
  stopping : s.stopping = false
  lively : ∃ k, lively s.idleMs k s.coming = true ∧ (s.awaitingPong = true → waits s.idleMs ≤ k)
  ending : s.ending = ws.ending
  maxMessage : s.maxMessage = ws.maxMessage
  coming : s.coming.length ≤ ws.coming.length

/-- The conversation is over, and `sent` has been said. -/
structure Ended (ws : Socket) (sent : List Sent) (s : Socket) : Prop where
  closed : s.closed = true
  said : s.said = ws.said ++ sent

def Ready (ws : Socket) : Prop := Goes ws ws.stream [] ws

theorem Goes.ready (h : Goes ws b sent s) : Ready s :=
  { stream := rfl
    said := (List.append_nil _).symm
    closed := h.closed
    stopping := h.stopping
    lively := h.lively
    ending := rfl
    maxMessage := rfl
    coming := Nat.le_refl _ }

variable {sent sent' : List Sent}

theorem Goes.trans {s' : Socket} {b' : Bytes} (h : Goes ws b sent s) (h' : Goes s b' sent' s') :
    Goes ws b' (sent ++ sent') s' :=
  { stream := h'.stream
    said := by rw [h'.said, h.said, List.append_assoc]
    closed := h'.closed
    stopping := h'.stopping
    lively := h'.lively
    ending := h'.ending.trans h.ending
    maxMessage := h'.maxMessage.trans h.maxMessage
    coming := Nat.le_trans h'.coming h.coming }

theorem Goes.ended {s' : Socket} (h : Goes ws b sent s) (h' : Ended s sent' s') :
    Ended ws (sent ++ sent') s' :=
  ⟨h'.closed, by rw [h'.said, h.said, List.append_assoc]⟩

theorem Reads.goes (h : Reads ws b s) (hready : Ready ws) (hawaiting : ws.awaitingPong = false) :
    Goes ws b [] s := by
  obtain ⟨held, coming, posts, rfl, rfl, hle, k, hk⟩ := h
  exact
    { stream := rfl
      said := (List.append_nil _).symm
      closed := hready.closed
      stopping := hready.stopping
      lively := ⟨k, hk, fun hyes => by
        rw [hawaiting] at hyes
        cases hyes⟩
      ending := rfl
      maxMessage := rfl
      coming := hle }

theorem said_deliver (ws : Socket) : ws.deliver.said = ws.said := by
  have hposts : (ws.posts.map Sent.post).filter Sent.isAnswer = [] := by
    simp [Sent.isAnswer]
  rw [Socket.said, Socket.deliver, List.filter_append, hposts, List.append_nil]
  rfl

theorem said_writeFrame (ws : Socket) {opcode : Opcode} (h : opcode ≠ .ping) (data : Bytes) :
    (ws.writeFrame opcode data).said = ws.said ++ [.frame opcode data] := by
  have hkept : ([Sent.frame opcode data]).filter Sent.isAnswer = [.frame opcode data] := by
    simp [Sent.isAnswer, h]
  rw [Socket.said, Socket.writeFrame, List.filter_append, hkept]
  rfl

/-- A frame goes out and the conversation goes on. -/
theorem Goes.writeFrame (h : Goes ws b sent s) {opcode : Opcode} (hopcode : opcode ≠ .ping)
    (data : Bytes) : Goes ws b (sent ++ [.frame opcode data]) (s.writeFrame opcode data) :=
  { stream := h.stream
    said := by rw [said_writeFrame s hopcode, h.said, List.append_assoc]
    closed := h.closed
    stopping := h.stopping
    lively := h.lively
    ending := h.ending
    maxMessage := h.maxMessage
    coming := h.coming }

/-! ## A frame -/

/-- What is collected is within the ceiling, and in the buffer that is parked. -/
structure Fits (s : Socket) (c : Collecting) : Prop where
  filled : c.filled.length ≤ s.maxMessage
  buf : ∀ x, c.buf = some x → s.slot = some x

/-- A turn is a step of the reassembly, behind which `rest` is still to be read. -/
def Outcome (ws : Socket) (rest : Bytes) : Step → Socket × Turn → Prop
  | .more kind filled sent, (s, .again c) =>
    c.kind = kind ∧ c.filled = filled ∧ Fits s c ∧ Goes ws rest sent s
  | .done a sent, (s, .answer a') =>
    a' = a ∧ if a.isMessage then Goes ws rest sent s else Ended ws sent s
  | _, _ => False

variable {c : Collecting} {f : Frame}

theorem Fits.congr {s' : Socket} (h : Fits s c) (hmax : s'.maxMessage = s.maxMessage)
    (hslot : s'.slot = s.slot) : Fits s' c :=
  ⟨hmax ▸ h.filled, fun x hx => hslot.trans (h.buf x hx)⟩

theorem Reads.awaiting (h : Reads ws b s) : s.awaitingPong = ws.awaitingPong := by
  obtain ⟨held, coming, posts, rfl, -, -, -⟩ := h
  rfl

theorem Reads.fits (h : Reads ws b s) (hfits : Fits ws c) : Fits s c := by
  obtain ⟨held, coming, posts, rfl, -, -, -⟩ := h
  exact hfits.congr rfl rfl

/-- How a wait ends while the peer is lively: it is not closed, and silence is asked after once. `n`
bounds the events that are left where nothing has arrived. -/
def Awake (ws : Socket) (b : Bytes) (n : Nat) : Socket × Woken → Prop
  | (s, .posted) => Goes ws b [] s ∧ s.coming.length < n
  | (s, .readable) => Goes ws b [] { s with awaitingPong := false }
  | (s, .timedOut) => s.awaitingPong = false ∧ Goes ws b [] { s with awaitingPong := true } ∧
      s.coming.length < n
  | (_, .closed) => False

/-- What a wait leaves, given what is left of the events. -/
theorem Ready.left (h : Ready ws) {held : Bytes} {coming : List Event} {posts : List Bytes}
    {slot : Option Nat} {awaiting : Bool} {k : Nat}
    (hstream : held ++ bytesOf coming = b) (hle : coming.length ≤ ws.coming.length)
    (hk : lively ws.idleMs k coming = true) (hawaiting : awaiting = true → waits ws.idleMs ≤ k) :
    Goes ws b [] { ws with
      held := held, coming := coming, posts := posts, slot := slot, awaitingPong := awaiting } :=
  { stream := hstream
    said := (List.append_nil _).symm
    closed := h.closed
    stopping := h.stopping
    lively := ⟨k, hk, hawaiting⟩
    ending := rfl
    maxMessage := rfl
    coming := hle }

theorem lively_quiet {idleMs k : Nat} {rest : List Event}
    (h : lively idleMs k (.quiet :: rest) = true) :
    (idleMs = 0 ∨ k + 1 < 2 * waits idleMs) ∧ lively idleMs (k + 1) rest = true := by
  obtain ⟨hlimit, hrest⟩ := Bool.and_eq_true_iff.mp h
  rw [Bool.or_eq_true, beq_iff_eq, decide_eq_true_eq] at hlimit
  exact ⟨hlimit, hrest⟩

/-- The wait behind the peek, `k` waits after bytes came last. -/
theorem awake_waitFrom (h : Ready ws) {coming left : List Event} {k limit : Nat} {slot : Option Nat}
    (hle : coming.length < ws.coming.length) (hk : lively ws.idleMs (k + 1) coming = true)
    (hawaiting : ws.awaitingPong = true → waits ws.idleMs ≤ k)
    (hlimit : limit ≠ 0 → idlePeekMs < ws.idleMs) :
    Awake ws (ws.held ++ bytesOf coming) ws.coming.length
        (waitFrom limit { ws with slot := slot, coming := left } coming) ∧
      (waitFrom limit { ws with slot := slot, coming := left } coming).1.slot = slot := by
  induction coming generalizing k with
  | nil =>
    exact ⟨h.left rfl (Nat.zero_le _) hk fun hno => (by cases hno), rfl⟩
  | cons event rest ih =>
    cases event with
    | bytes first more => exact ⟨h.left rfl (Nat.le_of_lt hle) hk fun hno => (by cases hno), rfl⟩
    | quiet =>
      obtain ⟨hwaits, hrest⟩ := lively_quiet hk
      rw [waitFrom]
      by_cases hzero : limit = 0
      · rw [if_pos hzero]
        exact ih (Nat.lt_of_succ_lt hle) hrest (fun hyes => Nat.le_succ_of_le (hawaiting hyes))
      · have htwo : waits ws.idleMs = 2 := if_neg (Nat.not_le_of_lt (hlimit hzero))
        have hpeek := hlimit hzero
        rw [htwo] at hwaits hawaiting
        have hfirst : ws.awaitingPong = false := by
          cases hyes : ws.awaitingPong with
          | false => rfl
          | true =>
            have := hawaiting hyes
            omega
        rw [if_neg hzero]
        exact ⟨⟨hfirst, h.left rfl (Nat.le_of_lt (Nat.lt_of_succ_lt hle)) hrest fun _ => by
          rw [htwo]
          omega, Nat.lt_of_succ_lt hle⟩, rfl⟩
    | post framed =>
      exact ⟨⟨h.left rfl (Nat.le_of_lt (Nat.lt_of_succ_lt hle)) hk fun hyes =>
        Nat.le_succ_of_le (hawaiting hyes), Nat.lt_of_succ_lt hle⟩, rfl⟩
    | stop => cases hk

/-- The peek, or the whole wait where the limit is no longer than it: whatever of the events it takes. -/
theorem awake_waitFilling (h : Ready ws) :
    (∃ rest k, ws.coming = .quiet :: rest ∧ lively ws.idleMs (k + 1) rest = true ∧
        (ws.awaitingPong = true → waits ws.idleMs ≤ k) ∧
        (ws.idleMs = 0 ∨ k + 1 < 2 * waits ws.idleMs) ∧
        ws.waitFilling = ({ ws with coming := rest }, .timedOut)) ∨
      ((∀ s, ws.waitFilling ≠ (s, .timedOut)) ∧
        Awake ws ws.stream ws.coming.length ws.waitFilling ∧ ws.waitFilling.1.slot = ws.slot) := by
  obtain ⟨k, hk, hawaiting⟩ := h.lively
  have hstream : ws.stream = ws.held ++ bytesOf ws.coming := rfl
  have hall : ∀ rest event, ws.coming = event :: rest → rest.length < ws.coming.length :=
    fun rest event hcoming => hcoming ▸ Nat.lt_succ_self _
  rw [Socket.waitFilling, hstream]
  cases hcoming : ws.coming with
  | nil =>
    have hgoes : Goes ws ws.stream [] { ws with awaitingPong := false } :=
      h.left rfl (Nat.le_refl _) hk fun hno => absurd hno Bool.false_ne_true
    rw [show ws.stream = ws.held ++ bytesOf [] by rw [hstream, hcoming]] at hgoes
    exact .inr ⟨fun s hs => (by cases hs), hgoes, rfl⟩
  | cons event rest =>
    have hlt := hall rest event hcoming
    rw [hcoming] at hk
    cases event with
    | bytes first more =>
      refine .inr ⟨fun s hs => (by cases hs), ?_, rfl⟩
      exact h.left (List.append_assoc ..) (Nat.le_of_lt hlt) hk fun hno => (by cases hno)
    | quiet =>
      obtain ⟨hwaits, hrest⟩ := lively_quiet hk
      exact .inl ⟨rest, k, rfl, hrest, hawaiting, hwaits, rfl⟩
    | post framed =>
      refine .inr ⟨fun s hs => (by cases hs), ?_, rfl⟩
      exact ⟨h.left rfl (Nat.le_of_lt hlt) hk hawaiting, Nat.lt_succ_self _⟩
    | stop => cases hk

theorem awake_park (h : Ready ws) (mayGive : Bool) :
    Awake ws ws.stream ws.coming.length (ws.park mayGive) ∧
      (mayGive = false → (ws.park mayGive).1.slot = ws.slot) := by
  have hstream : ws.stream = ws.held ++ bytesOf ws.coming := rfl
  rw [Socket.park]
  rcases awake_waitFilling h with ⟨rest, k, hcoming, hrest, hawaiting, hwaits, hgot⟩ | ⟨hnot, hawake, hslot⟩
  · have hlt : rest.length < ws.coming.length := hcoming ▸ Nat.lt_succ_self _
    have hbytes : ws.stream = ws.held ++ bytesOf rest := by
      rw [hstream, hcoming]
      rfl
    rw [hgot, hbytes]
    by_cases hone : ws.idleMs ≠ 0 ∧ ws.idleMs ≤ idlePeekMs
    · -- The limit is no longer than the peek, and the peek is the whole of it.
      have hwait : waits ws.idleMs = 1 := if_pos hone.2
      rw [hwait] at hwaits hawaiting
      have hfirst : ws.awaitingPong = false := by
        cases hyes : ws.awaitingPong with
        | false => rfl
        | true =>
          have := hawaiting hyes
          omega
      rw [if_pos hone]
      refine ⟨⟨hfirst, h.left rfl (Nat.le_of_lt hlt) hrest fun _ => ?_, hlt⟩, fun _ => rfl⟩
      rw [hwait]
      omega
    · rw [if_neg hone]
      have hlimit : (if ws.idleMs = 0 then 0 else ws.idleMs - idlePeekMs) ≠ 0 →
          idlePeekMs < ws.idleMs := by
        split_ifs
        · exact fun hzero => absurd rfl hzero
        · omega
      cases mayGive with
      | true =>
        obtain ⟨hawake, -⟩ := @awake_waitFrom ws h rest rest k _ none hlt hrest hawaiting hlimit
        exact ⟨hawake, fun hno => (by cases hno)⟩
      | false =>
        obtain ⟨hawake, hslot⟩ := @awake_waitFrom ws h rest rest k _ ws.slot hlt hrest hawaiting hlimit
        exact ⟨hawake, fun _ => hslot⟩
  · by_cases hone : ws.idleMs ≠ 0 ∧ ws.idleMs ≤ idlePeekMs
    · rw [if_pos hone]
      exact ⟨hawake, fun _ => hslot⟩
    · rw [if_neg hone]
      generalize ws.waitFilling = got at hnot hawake hslot
      obtain ⟨s, woken⟩ := got
      cases woken with
      | timedOut => exact absurd rfl (hnot s)
      | readable => exact ⟨hawake, fun _ => hslot⟩
      | posted => exact ⟨hawake, fun _ => hslot⟩
      | closed => exact ⟨hawake, fun _ => hslot⟩

/-! ## The loop -/

theorem ping_keeps (ws : Socket) (data : Bytes) : (ws.ping data).maxMessage = ws.maxMessage ∧
    (ws.ping data).slot = ws.slot ∧ (ws.ping data).coming = ws.coming := by
  rw [Socket.ping]
  split_ifs <;> exact ⟨rfl, rfl, rfl⟩

/-- This end's own ping is not an answer to anything. -/
theorem Goes.ping (h : Goes ws b sent s) (data : Bytes) : Goes ws b sent (s.ping data) := by
  have hopen : ¬ s.closed = true := by
    rw [h.closed]
    exact Bool.false_ne_true
  rw [Socket.ping, if_neg hopen]
  exact
    { stream := h.stream
      said := by
        rw [Socket.said, Socket.writeFrame, List.filter_append, ← h.said]
        exact List.append_nil _
      closed := h.closed
      stopping := h.stopping
      lively := h.lively
      ending := h.ending
      maxMessage := h.maxMessage
      coming := h.coming }

/-- A turn either waits, with what is collected left as it is, or takes a frame or the end of the
stream. -/
theorem turn_cases (h : Ready ws) (hfits : Fits ws c) :
    (∃ s c', ws.turn c = (s, .again c') ∧ c'.kind = c.kind ∧ c'.filled = c.filled ∧ Fits s c' ∧
        Goes ws ws.stream [] s ∧ s.coming.length < ws.coming.length) ∨
      ∃ s c', ws.turn c = s.takeFrame c' ∧ c'.kind = c.kind ∧ c'.filled = c.filled ∧ Fits s c' ∧
        Goes ws ws.stream [] s := by
  have hdeliver : Goes ws ws.stream [] ws.deliver :=
    { stream := rfl
      said := by rw [said_deliver, List.append_nil]
      closed := h.closed
      stopping := h.stopping
      lively := h.lively
      ending := rfl
      maxMessage := rfl
      coming := Nat.le_refl _ }
  have hrunning : ¬ ws.deliver.stopping = true := by
    rw [hdeliver.stopping]
    exact Bool.false_ne_true
  rw [Socket.turn]
  simp only [if_neg hrunning]
  by_cases hheld : ws.deliver.held.length ≠ 0
  · rw [if_pos hheld]
    exact .inr ⟨ws.deliver, c, rfl, rfl, rfl, hfits.congr rfl rfl, hdeliver⟩
  · rw [if_neg hheld]
    obtain ⟨hawake, hslot⟩ := awake_park hdeliver.ready (decide (c.filled.length = 0))
    generalize hc' : (if decide (c.filled.length = 0) = true then { c with buf := none } else c) = c'
    have hsame : c'.kind = c.kind ∧ c'.filled = c.filled := by
      rw [← hc']
      split_ifs <;> exact ⟨rfl, rfl⟩
    -- The buffer is forgotten where the wait may have given it back.
    have hfits' : ∀ s : Socket, s.maxMessage = ws.maxMessage →
        (decide (c.filled.length = 0) = false → s.slot = ws.slot) → Fits s c' := by
      intro s hmax hkept
      refine ⟨by rw [hsame.2, hmax]; exact hfits.filled, fun x hx => ?_⟩
      rw [← hc'] at hx
      split_ifs at hx with hempty
      rw [hkept (Bool.eq_false_iff.mpr hempty)]
      exact hfits.buf x hx
    generalize ws.deliver.park (decide (c.filled.length = 0)) = got at hawake hslot ⊢
    obtain ⟨s, woken⟩ := got
    cases woken with
    | closed => exact hawake.elim
    | posted =>
      obtain ⟨hgoes, hlt⟩ := hawake
      exact .inl ⟨s, c', rfl, hsame.1, hsame.2, hfits' s hgoes.maxMessage hslot,
        hdeliver.trans hgoes, hlt⟩
    | readable =>
      have hgoes : Goes ws.deliver ws.deliver.stream [] { s with awaitingPong := false } := hawake
      exact .inr ⟨{ s with awaitingPong := false }, c', rfl, hsame.1, hsame.2,
        hfits' _ hgoes.maxMessage hslot, hdeliver.trans hgoes⟩
    | timedOut =>
      obtain ⟨hfirst, hgoes, hlt⟩ := hawake
      have hask : ¬ s.awaitingPong = true := by
        rw [hfirst]
        exact Bool.false_ne_true
      simp only [if_neg hask]
      obtain ⟨hmax, hslot', hcoming⟩ := ping_keeps { s with awaitingPong := true } []
      refine .inl ⟨_, c', rfl, hsame.1, hsame.2, ?_, hdeliver.trans (hgoes.ping []), ?_⟩
      · exact hfits' _ (hmax.trans hgoes.maxMessage) fun hkept => hslot'.trans (hslot hkept)
      · rw [hcoming]
        exact hlt

/-- What `receive` has come to: the answer and what was said are those of the reassembly, and behind a
message the frames are those that are left. -/
def Received (ws : Socket) (tail : Bytes) : Answer × List Sent × List Framed → Socket × Answer → Prop :=
  fun (a, sent, rest) (s, a') =>
    a' = a ∧
      if a.isMessage then ∃ b, Goes ws b sent s ∧ framesOf b = (rest, tail) else Ended ws sent s

theorem Received.after {tail : Bytes} {got : Answer × List Sent × List Framed} {r : Socket × Answer}
    (h : Goes ws b sent s) (hgot : Received s tail got r) :
    Received ws tail (got.1, sent ++ got.2.1, got.2.2) r := by
  obtain ⟨a, sent', rest⟩ := got
  obtain ⟨s', a'⟩ := r
  obtain ⟨rfl, hgot⟩ := hgot
  refine ⟨rfl, ?_⟩
  simp only
  by_cases hmessage : a'.isMessage = true
  · rw [if_pos hmessage] at hgot ⊢
    obtain ⟨b', hgoes, hframes⟩ := hgot
    exact ⟨b', h.trans hgoes, hframes⟩
  · rw [if_neg hmessage] at hgot ⊢
    exact h.ended hgot

end Nilo.Ws
