import Nilo.Ws.Receive

/-!
# One goodbye

Whatever the peer sends and the handler asks for, in whatever order, and however a connection ends: a
close frame is the last thing that goes out on it. And no message is longer than the ceiling.
-/

namespace Nilo.Ws

open Text (Bytes)
open Mem (Fault)

/-- A close frame is the last thing written, and there is none on a connection that is not closed. -/
structure Orderly (s : Socket) : Prop where
  last : ∀ front back data, s.sent = front ++ .frame .close data :: back → back = []
  none : s.closed = false → ∀ data, .frame .close data ∉ s.sent

variable {ws s : Socket}

/-- Frames that close nothing go out on an open connection. -/
theorem Orderly.more (h : Orderly ws) (hopen : ws.closed = false) {items : List Sent}
    (hsent : s.sent = ws.sent ++ items) (hitems : ∀ data, .frame .close data ∉ items) : Orderly s := by
  have hnone : ∀ data, .frame .close data ∉ s.sent := by
    intro data hmem
    rw [hsent] at hmem
    rcases List.mem_append.mp hmem with hold | hnew
    · exact h.none hopen data hold
    · exact hitems data hnew
  exact ⟨fun front back data heq => absurd (heq ▸ List.mem_append_right _ List.mem_cons_self) (hnone data),
    fun _ => hnone⟩

/-- Neither what is written nor the ceiling is touched, and the connection is as open as it was. -/
structure Keeps (ws s : Socket) : Prop where
  sent : s.sent = ws.sent
  closed : s.closed = ws.closed
  maxMessage : s.maxMessage = ws.maxMessage

theorem Keeps.refl (ws : Socket) : Keeps ws ws := ⟨rfl, rfl, rfl⟩

theorem Keeps.trans {s' : Socket} (h : Keeps ws s) (h' : Keeps s s') : Keeps ws s' :=
  ⟨h'.sent.trans h.sent, h'.closed.trans h.closed, h'.maxMessage.trans h.maxMessage⟩

theorem Keeps.orderly (h : Keeps ws s) (horderly : Orderly ws) : Orderly s :=
  ⟨fun front back data heq => horderly.last front back data (h.sent ▸ heq),
    fun hopen data hmem => horderly.none (h.closed ▸ hopen) data (h.sent ▸ hmem)⟩

/-- What may come of a step on an open connection: it is orderly, and open where it goes on. -/
structure Onward (ws s : Socket) (goesOn : Prop) : Prop where
  orderly : Orderly s
  maxMessage : s.maxMessage = ws.maxMessage
  closed : goesOn → s.closed = false

theorem Keeps.onward (h : Keeps ws s) (horderly : Orderly ws) (hopen : ws.closed = false)
    {goesOn : Prop} : Onward ws s goesOn :=
  ⟨h.orderly horderly, h.maxMessage, fun _ => h.closed.trans hopen⟩

theorem Keeps.then {s' : Socket} {goesOn : Prop} (h : Keeps ws s) (h' : Onward s s' goesOn) :
    Onward ws s' goesOn :=
  ⟨h'.orderly, h'.maxMessage.trans h.maxMessage, h'.closed⟩

def Turn.goesOn : Turn → Prop
  | .again _ => True
  | .answer a => a.isMessage = true

/-- What a turn answers is within the ceiling. -/
def Turn.within (max : Nat) : Turn → Prop
  | .again _ => True
  | .answer (.message m) => m.data.length ≤ max
  | .answer _ => True

/-- A turn leaves the connection orderly, and open unless it is over. -/
structure Turned (ws : Socket) (r : Socket × Turn) : Prop where
  onward : Onward ws r.1 (r.2.goesOn)
  within : r.2.within ws.maxMessage

/-- A message is within the ceiling. -/
def Answer.within (max : Nat) : Answer → Prop
  | .message m => m.data.length ≤ max
  | _ => True

/-- What a handler asks of its socket. -/
inductive Ask where
  | receive
  | send (kind : Kind) (data : Bytes)
  | ping (data : Bytes)
  | close (code : Close) (reason : Bytes)

def Socket.asked (self : Socket) : Ask → Socket × Option Answer
  | .receive =>
    let (self, a) := self.receive
    (self, some a)
  | .send kind data => (self.send kind data, none)
  | .ping data => (self.ping data, none)
  | .close code reason => (self.close code reason, none)

end Nilo.Ws
