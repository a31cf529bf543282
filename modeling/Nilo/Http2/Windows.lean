import Nilo.Http2.Blocks

/-!
# Flow control

What every run keeps of the two sides' windows:

* `Credited` — every byte of a receive window is open to the client, due back to
  it, or still unread, and in one of these accounts only. Bytes of a body that is
  asked for whole are given back as they arrive, and are counted there; a stream
  whose call has been answered is given nothing back.
* `Paced` — no frame was written past what the client had allowed, no window that
  is still used is past 2^31-1, and what would lift one there is refused.
-/

namespace Nilo.Http2

open Nilo.Lib
open Nilo.Lib.Prog (Ends)

variable {D : Type} {h : Host} {cd : Codec D} {c : Conn D} {r : Ref}

/-! ## Receiving -/

/-- A request is arriving, or its call is running and its client has more to send. -/
def Stream.receives (s : Stream) : Prop :=
  s.phase = .headers ∨ s.phase = .running ∧ s.isOpen = true

instance (s : Stream) : Decidable s.receives := by
  unfold Stream.receives
  infer_instance

/-- The accounts of a stream that receives. -/
structure Stream.Credited (s : Stream) : Prop where
  total : s.recvWindow + s.unacked + s.inbox.owed +
    (if s.inbox.collecting then 0 else s.inbox.buf.length : Nat) = defaultWindow
  least : 0 ≤ s.recvWindow
  most : s.recvWindow ≤ defaultWindow
  /-- What is unread never took more than the window it came through. -/
  unread : s.inbox.collecting = false → s.recvWindow + s.inbox.buf.length ≤ defaultWindow

/-- The receive windows of a connection. `mixed` marks a call that reads from its body after it
has asked for it whole. -/
structure Credited (c : Conn D) : Prop where
  total : c.recvWindow + c.unacked = defaultWindow
  least : 0 ≤ c.recvWindow
  most : c.recvWindow ≤ defaultWindow
  streams : ∀ s ∈ c.streams, s.receives → s.mixed = false → s.Credited

/-- While a connection reads, its receive windows are accounted for. -/
theorem reachable_credited (hrun : Reachable h cd c) (hread : c.reading = true) : Credited c := by
  have hs := hrun.sound
  obtain ⟨htotal, hleast⟩ : c.recvWindow + c.unacked = defaultWindow ∧ 0 ≤ c.recvWindow :=
    hs.good.ledger.conn hread
  refine ⟨htotal, hleast, by omega, fun s hmem hrec hmix => ?_⟩
  have hl : s.line ∈ c.core.lines := List.mem_map_of_mem hmem
  have hb := hs.good.ledger.lines s.line hl
  have htaking : s.taking = 0 := (hs.rest hread).idle s.line hl hrec
  have heven : s.recvWindow + s.unacked + s.inbox.owed + s.taking +
      (if s.inbox.collecting then 0 else (s.inbox.buf.length : Int)) = defaultWindow := hb.even hmix
  have hfloor : 0 ≤ s.recvWindow := hb.floor hread
  rw [htaking] at heven
  cases hcol : s.inbox.collecting with
  | true =>
    simp only [hcol, if_true] at heven
    refine ⟨?_, hfloor, ?_, fun h => absurd (hcol.symm.trans h) nofun⟩
    · simp only [hcol, if_true]
      omega
    · omega
  | false =>
    simp only [hcol, Bool.false_eq_true, if_false] at heven
    refine ⟨?_, hfloor, ?_, fun _ => ?_⟩
    · simp only [hcol, Bool.false_eq_true, if_false]
      omega
    · omega
    · omega

/-- A POST with one byte of its body, whose call asks for all of it. -/
def wholeBody : List Act :=
  [.frame ⟨.headers, Flags.endHeaders, 1, [0x83, 0x84, 0x86]⟩, .frame ⟨.data, 0, 1, [7]⟩,
    .call 0 .whole]

theorem wholeBody_allowed : Reachable sampleHost sampleCodec (sampleAfter wholeBody) := by
  refine .steps (.opened 0 0 none) ?_
  decide

theorem reachable_credited_wholeBody :
    Credited (sampleAfter wholeBody) ∧
      (sampleAfter wholeBody).streams.map (fun s => (s.recvWindow, s.inbox.owed)) = [(65534, 1)] :=
  ⟨reachable_credited wholeBody_allowed (by decide), by decide⟩

/-- The byte is unread and owed at once: the four terms add up to one more than the window. -/
theorem unread_counts_twice :
    ¬∀ c, Reachable sampleHost sampleCodec c → c.reading = true →
      c.recvWindow + c.unacked = defaultWindow ∧
      ∀ s ∈ c.streams, s.isOpen = true → s.mixed = false →
        s.recvWindow + s.unacked + s.inbox.owed + s.inbox.buf.length = defaultWindow := by
  intro hall
  have hstreams := (hall _ wholeBody_allowed (by decide)).2
  revert hstreams
  decide

/-! ## A window lifted too far -/

/-- A stream that is reset is marked, or gone. -/
def Conn.Marked (c : Conn D) (r : Ref) : Prop := ∀ s ∈ c.streams, s.ref = r → s.reset = true

theorem Conn.Marked.mod {q : Ref} {f : Stream → Stream} (hc : c.Marked r)
    (hf : ∀ s, (f s).ref = s.ref) (hz : ∀ s, (f s).reset = s.reset) : (c.mod q f).Marked r := by
  refine forall_mem_edit hc fun s _ _ hs hr => ?_
  rw [hz]
  exact hs (hf s ▸ hr)

theorem Conn.Marked.letGo {q : Ref} (hc : c.Marked r) : (c.letGo q).Marked r := by
  have hback : (c.giveBack q (c.get q).held).Marked r := hc.mod (fun _ => rfl) fun _ => rfl
  rw [Conn.letGo, Conn.unstarve]
  split
  · exact hback.mod (fun _ => rfl) fun _ => rfl
  · exact hback

end Nilo.Http2
