import Nilo.Room.Log

/-!
# What a connection is given

A seat is put every post its room hands out while a connection sits there, once and in order, so it
is the mailbox of them: `Sits.act` says what one step does to a seat that is not given up, and
`Tracks` what has become of everything handed out since its connection sat down. Seat and history
change under one lock, so what a stream that comes back is given and what its seat then receives
meet with no gap and no overlap.
-/

namespace Nilo.Rooms

open Lib (Mailbox)

/-! ## One step, seen from a seat -/

namespace Floor

/-- A connection sits in a seat, and is not giving it up. -/
structure Sits (f : Floor) (c room i : Nat) (r : Room) (seat : Seat) : Prop where
  inRoom : f.rooms[room]? = some r
  inSeat : r.seats[i]? = some seat
  taken : seat.taken = true
  waker : seat.waker = some c
  stays : ∃ conn, f.conns[c]? = some conn ∧ ∀ ticket, conn.leaving ≠ some (room, ticket)

/-- What a step does to a seat and to the broadcast in its room: what the room begins to hand out
and what the connection takes. A broadcast comes to the seat, or passes it when its place is
another's or the put is cancelled. -/
inductive SeatStep (room : Nat) (a : Act) (h : Heap) (r r' : Room) (seat seat' : Seat) :
    List PostId → List PostId → Prop where
  | idle : seat'.box = seat.box → r'.roster = r.roster →
      (seat'.slot = seat.slot ∨ r.roster = none) → SeatStep room a h r r' seat seat' [] []
  | begun (p : PostId) : seat' = seat → r.roster = none → r'.roster = some (p, 0) →
      SeatStep room a h r r' seat seat' [p] []
  | reached (p : PostId) : a = .put room false → seat'.slot = seat.slot → r.roster = some (p, seat.slot) →
      r'.roster = some (p, seat.slot + 1) →
      seat'.box = seat.box.put r.backlog (decide (r.full = .dropOldest)) (seat.refuses h p) p →
      SeatStep room a h r r' seat seat' [] []
  | passed (p : PostId) (place : Nat) : seat' = seat → (place ≠ seat.slot ∨ a = .put room true) →
      r.roster = some (p, place) → r'.roster = some (p, place + 1) →
      SeatStep room a h r r' seat seat' [] []
  | closed (p : PostId) (place : Nat) : seat' = seat → seat.slot < place →
      r.roster = some (p, place) → r'.roster = none → SeatStep room a h r r' seat seat' [] []
  | took (p : PostId) (l : List PostId) : seat.box.queue = p :: l → seat'.box = seat.box.take →
      seat'.slot = seat.slot → r'.roster = r.roster → SeatStep room a h r r' seat seat' [] [p]

/-- A connection that does not leave a room. -/
theorem act_stays {f : Floor} (hf : f.Whole) {c room : Nat} {conn : Conn}
    (hconn : f.conns[c]? = some conn) (hstays : ∀ ticket, conn.leaving ≠ some (room, ticket))
    {a : Act} (ha : a ≠ .unlink c room) :
    ∃ conn', (f.act a).conns[c]? = some conn' ∧
      ∀ ticket, conn'.leaving ≠ some (room, ticket) := by
  have hsame : ∃ conn', f.conns[c]? = some conn' ∧
      ∀ ticket, conn'.leaving ≠ some (room, ticket) := ⟨conn, hconn, hstays⟩
  have hset : ∀ (c' : Nat) (conn' : Conn), (c' = c → ∀ ticket, conn'.leaving ≠ some (room, ticket)) →
      ∃ conn'', (f.conns.set c' conn')[c]? = some conn'' ∧
        ∀ ticket, conn''.leaving ≠ some (room, ticket) := by
    intro c' conn' hconn'
    rw [List.getElem?_set]
    split_ifs with heq hlt
    · exact ⟨conn', rfl, hconn' heq⟩
    · subst heq
      exact absurd (List.getElem?_eq_some_iff.mp hconn).1 hlt
    · exact hsame
  have hrung : ∀ (c' : Nat) (rung : Bool),
      ∃ conn', (f.conns.modify c' fun conn => { conn with rung := rung })[c]? = some conn' ∧
        ∀ ticket, conn'.leaving ≠ some (room, ticket) := by
    intro c' rung
    rw [List.getElem?_modify, hconn]
    by_cases heq : c' = c
    · exact ⟨{ conn with rung := rung }, by simp [heq], hstays⟩
    · exact ⟨conn, by simp [heq], hstays⟩
  cases a with
  | sitAfter c' room' textOnly lastId into =>
    rcases hf.sitAfter_cases c' room' textOnly lastId into with heq |
      ⟨conn', _, _, _, _, hconn', hnone, _, _, _, _, _, _, _, _, heq⟩
    · rw [act, heq]
      exact hsame
    · rw [act, heq]
      refine hset c' _ ?_
      intro _ ticket hleaving
      rw [hnone] at hleaving
      cases hleaving
  | unlink c' room' =>
    rcases hf.unlink_cases c' room' with heq | ⟨_, _, _, _, _, _, _, _, _, _, _, _, _, heq⟩
    · rw [act, heq]
      exact hsame
    · rw [act, heq]
      refine hset c' _ ?_
      rintro rfl ticket hleaving
      cases hleaving
      exact ha rfl
  | giveUp c' =>
    rcases f.giveUp_cases c' with heq | ⟨_, _, _, _, _, _, _, _, heq⟩
    · rw [act, heq]
      exact hsame
    · rw [act, heq]
      refine hset c' _ ?_
      intro _ ticket hleaving
      cases hleaving
  | say room' kind data =>
    rcases f.reserve_cases room' ⟨kind, [], [], data⟩ with heq | heq
    · rw [act, heq]
      exact hsame
    · rw [act, heq]
      exact hsame
  | event room' name id data =>
    rw [act, event]
    split_ifs
    · exact hsame
    · rcases f.reserve_cases room' ⟨.text, name, id, data⟩ with heq | heq
      · rw [heq]
        exact hsame
      · rw [heq]
        exact hsame
  | handOut k =>
    rcases f.handOut_cases k with ⟨heq, _⟩ | ⟨_, _, _, _, _, _, _, heq⟩
    · rw [act, heq]
      exact hsame
    · rw [act, heq]
      exact hsame
  | cancel k =>
    rw [act, cancel]
    split <;> exact hsame
  | put room' canceled =>
    rcases f.put_cases room' canceled with heq | ⟨_, _, _, _, _, _, _, _, ⟨_, heq⟩ | ⟨_, heq⟩⟩
    · rw [act, heq]
      exact hsame
    · rw [act, heq]
      exact hsame
    · rw [act, heq]
      unfold Floor.ring
      split
      · exact hsame
      · exact hrung _ true
  | close room' =>
    rcases f.close_cases room' with heq | ⟨_, _, _, _, _, _, _, _, heq⟩
    · rw [act, heq]
      exact hsame
    · rw [act, heq]
      exact hsame
  | take c' room' canceled =>
    rcases f.take_cases c' room' canceled with ⟨heq, _⟩ | ⟨_, _, _, _, heq⟩
    · rw [act, heq]
      exact hsame
    · rw [act, heq]
      exact hsame
  | release k =>
    rw [act, release]
    split <;> exact hsame
  | forget room' =>
    rw [act, forget]
    split
    · exact hsame
    · split_ifs
      · exact hsame
      · exact hsame
  | look c' => exact hrung c' false

end Floor

namespace Floor

variable {f : Floor} {c room i : Nat} {r : Room} {seat : Seat} {a : Act} {same : Prop}

/-- A seat after a step is its connection's as before; the chain goes on there as it did unless the
connection changes it. -/
structure SameSitter (same : Prop) (seat seat' : Seat) : Prop where
  taken : seat'.taken = seat.taken
  waker : seat'.waker = seat.waker
  era : seat'.era = seat.era
  textOnly : seat'.textOnly = seat.textOnly
  next : same → seat'.next = seat.next

theorem SameSitter.refl (same : Prop) (seat : Seat) : SameSitter same seat seat :=
  ⟨rfl, rfl, rfl, rfl, fun _ => rfl⟩

/-- The room after a step, seen from a seat. -/
def Follows (f : Floor) (room : Nat) (a : Act) (same : Prop) (i : Nat) (r : Room) (seat : Seat)
    (begun taken : List PostId) (r' : Room) : Prop :=
  ∃ seat', r'.seats[i]? = some seat' ∧ SameSitter same seat seat' ∧ r'.full = r.full ∧
    SeatStep room a f.heap r r' seat seat' begun taken

/-- A step that changes neither the seat nor the broadcast. -/
theorem Sits.follows_same (hs : f.Sits c room i r seat) {r' : Room}
    (hseat : r'.seats[i]? = some seat) (hfull : r'.full = r.full) (hroster : r'.roster = r.roster) :
    f.Follows room a same i r seat [] [] r' :=
  ⟨seat, hseat, .refl _ _, hfull, .idle rfl hroster (.inl rfl)⟩

theorem Sits.follows_refl (hs : f.Sits c room i r seat) : f.Follows room a same i r seat [] [] r :=
  hs.follows_same hs.inSeat rfl rfl

/-- A seat whose connection has another seat given up. -/
theorem Sits.follows_giveUp (hf : f.Whole) (hs : f.Sits c room i r seat) {c' : Nat} {conn : Conn}
    {ticket : Ticket} (hconn : f.conns[c']? = some conn)
    (hleaving : conn.leaving = some (room, ticket)) (hroster : r.roster = none) :
    f.Follows room a same i r seat [] [] (r.giveUp f.heap ticket).2 := by
  obtain ⟨seat₀, hseat₀, htaken₀, hera₀, hwaker₀⟩ := hf.leaving_seat hconn hleaving hs.inRoom
  have hne : ticket.index ≠ i := by
    rintro rfl
    have heq := hseat₀
    rw [hs.inSeat] at heq
    cases heq
    obtain ⟨conn', hconn', hstays⟩ := hs.stays
    rw [hs.waker] at hwaker₀
    cases hwaker₀
    rw [hconn] at hconn'
    cases hconn'
    exact hstays ticket hleaving
  have hkept : (r.seats.set ticket.index (Room.vacant f.heap seat₀))[i]? = some seat := by
    rw [List.getElem?_set_ne hne]
    exact hs.inSeat
  rw [Room.giveUp_eq hseat₀ htaken₀ hera₀]
  obtain ⟨slot, hslot⟩ := Room.giveUpSlot_seats
    { r with seats := r.seats.set ticket.index (Room.vacant f.heap seat₀) } seat₀.slot ticket.index
    hkept
  refine ⟨{ seat with slot := slot }, hslot, ⟨rfl, rfl, rfl, rfl, fun _ => rfl⟩, ?_,
    .idle rfl ?_ (.inr hroster)⟩
  · rw [Room.giveUpSlot_full]
  · rw [Room.giveUpSlot_roster]

/-- A broadcast goes on to the next place: that of this seat, or of another. -/
theorem Sits.follows_put (hf : f.Whole) (hs : f.Sits c room i r seat) {p : PostId}
    {place index : Nat} (hroster : r.roster = some (p, place)) (hlt : place < r.here)
    (hindex : r.roll[place]? = some index) :
    f.Follows room (.put room false) same i r seat [] []
      { (r.putAt f.heap index p).2 with roster := some (p, place + 1) } := by
  obtain ⟨hrolled, hstocked, -⟩ := hf.rooms room r hs.inRoom
  obtain ⟨seat₀, hseat₀⟩ := hrolled.exists_seat hindex
  have hat := hrolled.at_slot hs.inSeat hs.taken
  rw [Room.putAt_eq hseat₀]
  by_cases hsame : index = i
  · subst hsame
    have heq : seat₀ = seat := by
      have hseat := hs.inSeat
      rw [hseat₀] at hseat
      exact Option.some.inj hseat
    subst heq
    have hslot : place = seat₀.slot := hrolled.inj hindex hat.1
    subst hslot
    have hcover : f.heap.Covers (p :: seat₀.ring.toList) := by
      have hc := Room.covers_seat (hf.covers hs.inRoom) hseat₀
      simpa [Room.inHand, hroster] using hc
    have hbox : (seat₀.put f.heap r.backlog r.full p).2.box =
        seat₀.box.put r.backlog (decide (r.full = .dropOldest)) (seat₀.refuses f.heap p) p :=
      (Seat.put_spec (hstocked.rings _ _ hseat₀) hstocked.backlog_pos hcover).2.2.2
    obtain ⟨ring, dropped, hfields⟩ := seat₀.put_fields f.heap r.backlog r.full p
    refine ⟨(seat₀.put f.heap r.backlog r.full p).2, ?_, ?_, rfl, ?_⟩
    · exact List.getElem?_set_self (List.getElem?_eq_some_iff.mp hseat₀).1
    · rw [hfields]
      exact ⟨rfl, rfl, rfl, rfl, fun _ => rfl⟩
    · refine .reached p rfl ?_ hroster rfl hbox
      rw [hfields]
  · refine ⟨seat, ?_, .refl _ _, rfl, .passed p place rfl (.inl ?_) hroster rfl⟩
    · dsimp only
      rw [List.getElem?_set_ne hsame]
      exact hs.inSeat
    · rintro rfl
      rw [hat.1] at hindex
      exact hsame (Option.some.inj hindex).symm

/-- The seat a connection takes from is the one it sits in. -/
theorem Sits.ticket_eq (hf : f.Whole) (hs : f.Sits c room i r seat) {conn : Conn} {ticket : Ticket}
    (hconn : f.conns[c]? = some conn)
    (hfind : find f.rooms room f.fuel conn.first = some ticket) : ticket = ⟨i, seat.era⟩ := by
  obtain ⟨l, hl⟩ := hf.conns c conn hconn
  have hfuel : l.length ≤ f.fuel := Nat.le_succ_of_le hl.chained.length_le
  have hin : (room, ticket) ∈ l := find_some hl.chained.linked hfuel hfind
  have hseat : seatAt f.rooms room i = some seat := by
    rw [seatAt, hs.inRoom]
    exact hs.inSeat
  have hmine : (room, (⟨i, seat.era⟩ : Ticket)) ∈ l := by
    rcases hl.owned room i seat hseat hs.taken hs.waker with hmine | hleaving
    · exact hmine
    · obtain ⟨conn', hconn', hstays⟩ := hs.stays
      rw [hconn] at hconn'
      cases hconn'
      exact absurd hleaving (hstays _)
  have heq := List.inj_on_of_nodup_map hl.chained.nodup hin hmine rfl
  exact (Prod.mk.inj heq).2

end Floor

namespace Floor

variable {f : Floor} {c room i : Nat} {r : Room} {seat : Seat} {a : Act} {same : Prop}

theorem takes_none {c' room' : Nat} {canceled : Bool}
    (h : c' ≠ c ∨ room' ≠ room ∨ canceled = true ∨ f.next c' room' = none) :
    f.takes c room (.take c' room' canceled) = [] := by
  rw [takes]
  split_ifs with hmine
  · obtain ⟨rfl, rfl, rfl⟩ := hmine
    rcases h with h | h | h | h
    · exact absurd rfl h
    · exact absurd rfl h
    · cases h
    · rw [h]
      rfl
  · rfl

/-- A connection takes from its own seat, which is this one or another. -/
theorem Sits.follows_take (hf : f.Whole) (hs : f.Sits c room i r seat) {c' : Nat} {p : PostId}
    {r' : Room} (hnext : f.next c' room = some (p, r')) :
    f.Follows room a same i r seat [] (f.takes c room (.take c' room false)) r' := by
  obtain ⟨conn, ticket, r₀, hconn, _, hfind, hr₀, htake⟩ := next_some hnext
  rw [hs.inRoom] at hr₀
  cases hr₀
  obtain ⟨seat₀, l, hseat₀, htaken₀, hera₀, hcons, hpop, rfl⟩ :=
    Room.take_some (hf.rooms room r hs.inRoom).stocked htake
  by_cases hmine : c' = c
  · subst hmine
    obtain rfl : ticket = ⟨i, seat.era⟩ := hs.ticket_eq hf hconn hfind
    have heq : seat₀ = seat := by
      have hseat := hs.inSeat
      rw [hseat₀] at hseat
      exact Option.some.inj hseat
    subst heq
    have htakes : f.takes c' room (.take c' room false) = [p] := by
      rw [takes, if_pos ⟨rfl, rfl, rfl⟩, hnext]
      rfl
    rw [htakes]
    refine ⟨{ seat₀ with ring := seat₀.ring.pop }, ?_, ⟨rfl, rfl, rfl, rfl, fun _ => rfl⟩, rfl,
      .took p l hcons ?_ rfl rfl⟩
    · exact List.getElem?_set_self (List.getElem?_eq_some_iff.mp hseat₀).1
    · rw [Seat.box, Mailbox.take, hpop, Seat.box]
      dsimp only
      rw [hcons, List.tail_cons]
  · rw [takes_none (.inl hmine)]
    have hne : ticket.index ≠ i := by
      rintro rfl
      obtain ⟨l', hl'⟩ := hf.conns c' conn hconn
      have hfuel : l'.length ≤ f.fuel := Nat.le_succ_of_le hl'.chained.length_le
      obtain ⟨seat₁, hseat₁, -, -, hwaker⟩ :=
        hl'.chained.mine _ (find_some hl'.chained.linked hfuel hfind)
      rw [seatAt, hs.inRoom] at hseat₁
      have heq : seat = seat₁ := Option.some.inj (hs.inSeat.symm.trans hseat₁)
      rw [← heq, hs.waker] at hwaker
      exact hmine (Option.some.inj hwaker).symm
    refine hs.follows_same ?_ rfl rfl
    dsimp only
    rw [List.getElem?_set_ne hne]
    exact hs.inSeat

/-- What any step does to a seat that is not given up. -/
theorem Sits.act_follows (hf : f.Whole) (hs : f.Sits c room i r seat) (a : Act) :
    ∃ r', (f.act a).rooms[room]? = some r' ∧
      f.Follows room a (∀ room', a ≠ .unlink c room') i r seat (f.begins room a)
        (f.takes c room a) r' := by
  have hrefl : ∀ {a : Act} {same : Prop}, f.Follows room a same i r seat [] [] r :=
    hs.follows_refl
  cases a with
  | sitAfter c' room' textOnly lastId into =>
    rcases hf.sitAfter_cases c' room' textOnly lastId into with heq |
      ⟨_, _, r₀, ticket, seat₀, _, _, _, _, hr₀, _, _, hseat₀, hfree, _, heq⟩
    · exact ⟨r, by rw [act, heq]; exact hs.inRoom, hrefl⟩
    · rw [act, heq]
      refine exists_set hs.inRoom hr₀ (fun _ => hrefl) ?_
      rintro rfl rfl
      have hne : ticket.index ≠ i := by
        rintro rfl
        rw [hs.inSeat] at hseat₀
        cases hseat₀
        rw [hs.taken] at hfree
        cases hfree
      refine hs.follows_same ?_ rfl rfl
      rw [occupied]
      dsimp only
      rw [List.getElem?_set_ne hne]
      exact hs.inSeat
  | unlink c' room' =>
    rcases hf.unlink_cases c' room' with heq | ⟨_, _, _, _, _, _, rooms', _, _, _, _, hrel, _, heq⟩
    · exact ⟨r, by rw [act, heq]; exact hs.inRoom, hrefl⟩
    · rw [act, heq]
      have hseat : seatAt f.rooms room i = some seat := by
        rw [seatAt, hs.inRoom]
        exact hs.inSeat
      obtain ⟨next, hnext, hchain⟩ := hrel.seat_forth hseat
      rw [seatAt, Option.bind_eq_some_iff] at hnext
      obtain ⟨r', hr', hseat'⟩ := hnext
      have hsame : r'.roster = r.roster ∧ r'.full = r.full := by
        refine hrel.getElem? (P := fun r' => r'.roster = r.roster ∧ r'.full = r.full) hr' ?_ ?_
        · exact fun _ _ _ h => h
        · intro r₁ hr₁
          rw [hs.inRoom] at hr₁
          cases hr₁
          exact ⟨rfl, rfl⟩
      refine ⟨r', hr', { seat with next := next }, hseat', ⟨rfl, rfl, rfl, rfl, ?_⟩, hsame.2,
        .idle rfl hsame.1 (.inl rfl)⟩
      intro hother
      refine hchain ?_
      intro hwaker
      rw [hs.waker] at hwaker
      exact hother room' (by rw [Option.some.inj hwaker])
  | giveUp c' =>
    rcases f.giveUp_cases c' with heq | ⟨conn, room', ticket, r₀, hconn, hleaving, hr₀, hnone, heq⟩
    · exact ⟨r, by rw [act, heq]; exact hs.inRoom, hrefl⟩
    · rw [act, heq]
      refine exists_set hs.inRoom hr₀ (fun _ => hrefl) ?_
      rintro rfl rfl
      exact hs.follows_giveUp hf hconn hleaving hnone
  | say room' kind data =>
    rcases f.reserve_cases room' ⟨kind, [], [], data⟩ with heq | heq
    · exact ⟨r, by rw [act, heq]; exact hs.inRoom, hrefl⟩
    · exact ⟨r, by rw [act, heq]; exact hs.inRoom, hrefl⟩
  | event room' name id data =>
    rw [act, event]
    split_ifs
    · exact ⟨r, hs.inRoom, hrefl⟩
    · rcases f.reserve_cases room' ⟨.text, name, id, data⟩ with heq | heq
      · exact ⟨r, by rw [heq]; exact hs.inRoom, hrefl⟩
      · exact ⟨r, by rw [heq]; exact hs.inRoom, hrefl⟩
  | handOut k =>
    rcases f.handOut_cases k with ⟨heq, hnone⟩ | ⟨room', p, r₀, _, hr₀, hroster, hbegins, heq⟩
    · rw [hnone]
      exact ⟨r, by rw [act, heq]; exact hs.inRoom, hrefl⟩
    · rw [act, heq, hbegins]
      refine exists_set hs.inRoom hr₀ ?_ ?_
      · intro hne
        rw [if_neg (Ne.symm hne)]
        exact hrefl
      · rintro rfl rfl
        rw [if_pos rfl]
        exact ⟨seat, hs.inSeat, .refl _ _, rfl, .begun p rfl hroster rfl⟩
  | cancel k =>
    refine ⟨r, ?_, hrefl⟩
    rw [act, cancel]
    split <;> exact hs.inRoom
  | put room' canceled =>
    rcases f.put_cases room' canceled with heq | ⟨r₀, p, place, index, hr₀, hroster, hlt, hi, hput⟩
    · exact ⟨r, by rw [act, heq]; exact hs.inRoom, hrefl⟩
    · rcases hput with ⟨hcanceled, heq⟩ | ⟨rfl, heq⟩
      · rw [act, heq]
        refine exists_set hs.inRoom hr₀ (fun _ => hrefl) ?_
        rintro rfl rfl
        exact ⟨seat, hs.inSeat, .refl _ _, rfl,
          .passed p place rfl (.inr (by rw [hcanceled])) hroster rfl⟩
      · rw [act, heq, ring_rooms]
        refine exists_set hs.inRoom hr₀ (fun _ => hrefl) ?_
        rintro rfl rfl
        exact hs.follows_put hf hroster hlt hi
  | close room' =>
    rcases f.close_cases room' with heq | ⟨r₀, p, place, out, hr₀, hroster, hge, hout, heq⟩
    · exact ⟨r, by rw [act, heq]; exact hs.inRoom, hrefl⟩
    · rw [act, heq]
      refine exists_set hs.inRoom hr₀ (fun _ => hrefl) ?_
      rintro rfl rfl
      obtain ⟨_, hkeep, _⟩ := hf.close_keeping hr₀ hroster hout
      obtain ⟨kept, bytes, hsame⟩ := hkeep.same
      have hslot := ((hf.rooms _ _ hr₀).rolled.at_slot hs.inSeat hs.taken).2
      rw [hsame]
      exact ⟨seat, hs.inSeat, .refl _ _, rfl,
        .closed p place rfl (Nat.lt_of_lt_of_le hslot hge) hroster rfl⟩
  | take c' room' canceled =>
    rcases f.take_cases c' room' canceled with ⟨heq, hno⟩ | ⟨p, r₁, hcanceled, hnext, heq⟩
    · rw [takes_none (.inr (.inr hno))]
      exact ⟨r, by rw [act, heq]; exact hs.inRoom, hrefl⟩
    · obtain ⟨_, _, r₀, _, _, _, hr₀, _⟩ := next_some hnext
      rw [act, heq, hcanceled]
      refine exists_set hs.inRoom hr₀ ?_ ?_
      · intro hne
        rw [takes_none (.inr (.inl hne))]
        exact hrefl
      · rintro rfl rfl
        exact hs.follows_take hf hnext
  | release k =>
    refine ⟨r, ?_, hrefl⟩
    rw [act, release]
    split <;> exact hs.inRoom
  | forget room' =>
    rw [act, forget]
    split
    · exact ⟨r, hs.inRoom, hrefl⟩
    · rename_i r₀ hr₀
      split_ifs
      · exact ⟨r, hs.inRoom, hrefl⟩
      · refine exists_set hs.inRoom hr₀ (fun _ => hrefl) ?_
        rintro rfl rfl
        have hstocked := (hf.rooms _ _ hr₀).stocked
        have hcover : f.heap.Covers r₀.kept.toList := by
          refine (hf.covers hr₀).mono ?_
          intro q
          simp only [Room.holding, List.count_append]
          omega
        obtain ⟨kept, bytes, hsame⟩ := (Room.forget_keeping hstocked.hoard hcover).same
        rw [hsame]
        exact hs.follows_same hs.inSeat rfl rfl
  | look c' => exact ⟨r, hs.inRoom, hrefl⟩

end Floor

namespace Floor

variable {f : Floor} {c room i : Nat} {r : Room} {seat : Seat}

/-- A connection that does not leave a room sits there after any step. -/
theorem Sits.act (hf : f.Whole) (hs : f.Sits c room i r seat) {a : Act}
    (ha : a ≠ .unlink c room) :
    ∃ r' seat', (f.act a).Sits c room i r' seat' ∧
      SameSitter (∀ room', a ≠ .unlink c room') seat seat' ∧ r'.full = r.full ∧
      SeatStep room a f.heap r r' seat seat' (f.begins room a)
        (f.takes c room a) := by
  obtain ⟨r', hr', seat', hseat', hsitter, hfull, hstep⟩ := hs.act_follows hf a
  obtain ⟨conn, hconn, hconn'⟩ := hs.stays
  refine ⟨r', seat', ⟨hr', hseat', ?_, ?_, act_stays hf hconn hconn' ha⟩, hsitter, hfull, hstep⟩
  · rw [hsitter.taken]
    exact hs.taken
  · rw [hsitter.waker]
    exact hs.waker

end Floor

/-! ## Everything handed out since the connection sat down -/

/-- The posts of a list a seat does not refuse. -/
def accepted (h : Heap) (textOnly : Bool) (l : List PostId) : List PostId :=
  l.filter fun p => !decide (textOnly = true ∧ h.kind p = .binary)

theorem accepted_text (h : Heap) (l : List PostId) : accepted h true l = texts h l := by
  refine List.filter_congr ?_
  intro p _
  cases h.kind p <;> rfl

theorem accepted_extend {h h' : Heap} (hposts : h.posts <+: h'.posts) (textOnly : Bool)
    {l : List PostId} (hl : ∀ p ∈ l, p < h.length) :
    accepted h' textOnly l = accepted h textOnly l := by
  refine List.filter_congr ?_
  intro p hp
  rw [Heap.kind_extend hposts (hl p hp)]

theorem accepted_concat (h : Heap) (seat : Seat) (l : List PostId) (p : PostId) :
    accepted h seat.textOnly (l ++ [p]) =
      if seat.refuses h p then accepted h seat.textOnly l
      else accepted h seat.textOnly l ++ [p] := by
  rw [accepted, List.filter_append, List.filter_cons, List.filter_nil]
  by_cases hrefuse : seat.textOnly = true ∧ h.kind p = .binary
  · simp [Seat.refuses, hrefuse, accepted]
  · simp [Seat.refuses, hrefuse, accepted]

/-- The post under way, while it has not come to a seat. -/
def Room.pending (r : Room) (seat : Seat) : List PostId :=
  match r.roster with
  | none => []
  | some (p, place) => if place ≤ seat.slot then [p] else []

namespace Floor

variable {f : Floor} {c room i : Nat} {textOnly : Bool} {full : Full} {handed taken : List PostId}

/-- Of the posts handed out since the connection sat down, all but one under way came to its seat,
which is the mailbox of them. -/
def Tracks (f : Floor) (c room i : Nat) (textOnly : Bool) (full : Full)
    (handed taken : List PostId) : Prop :=
  ∃ r seat received, f.Sits c room i r seat ∧ seat.textOnly = textOnly ∧ r.full = full ∧
    handed = received ++ r.pending seat ∧
    seat.box.Delivers (decide (full = .dropOldest)) received (accepted f.heap textOnly received)
      taken

theorem Tracks.act (hf : f.Whole) (ht : f.Tracks c room i textOnly full handed taken)
    (hknown : ∀ p ∈ handed, p < f.heap.length) {a : Act} (hstays : a ≠ .unlink c room)
    (hput : a ≠ .put room true) :
    (f.act a).Tracks c room i textOnly full (handed ++ f.begins room a)
      (taken ++ f.takes c room a) := by
  obtain ⟨r, seat, received, hs, htext, hfull, hhanded, hbox⟩ := ht
  obtain ⟨r', seat', hs', hsitter, hfull', hstep⟩ := hs.act hf hstays
  have hreceived : ∀ p ∈ received, p < f.heap.length := by
    intro p hp
    exact hknown p (hhanded ▸ List.mem_append_left _ hp)
  have hsame := accepted_extend (act_posts hf a) textOnly hreceived
  have htext' := hsitter.textOnly
  rw [htext] at htext'
  rw [hfull] at hfull'
  generalize f.begins room a = begun at hstep ⊢
  generalize f.takes c room a = taken' at hstep ⊢
  cases hstep with
  | idle hbox' hroster hslot =>
    refine ⟨r', seat', received, hs', htext', hfull', ?_, ?_⟩
    · rw [List.append_nil, hhanded]
      rcases hslot with hslot | hnone
      · rw [Room.pending, Room.pending, hroster, hslot]
      · rw [Room.pending, Room.pending, hroster, hnone]
    · rw [List.append_nil, hbox', hsame]
      exact hbox
  | begun p heq hnone hsome =>
    refine ⟨r', seat', received, hs', htext', hfull', ?_, ?_⟩
    · rw [hhanded, Room.pending, Room.pending, hnone, hsome]
      simp
    · rw [List.append_nil, heq, hsame]
      exact hbox
  | reached p _ hslot hroster hroster' hbox' =>
    refine ⟨r', seat', received ++ [p], hs', htext', hfull', ?_, ?_⟩
    · rw [hhanded, Room.pending, Room.pending, hroster, hroster', hslot]
      simp
    · have hp : ∀ q ∈ received ++ [p], q < f.heap.length := by
        intro q hq
        refine hknown q ?_
        rw [hhanded, Room.pending, hroster]
        simpa using hq
      have hpos := (hf.rooms room r hs.inRoom).stocked.backlog_pos
      rw [List.append_nil, hbox', accepted_extend (act_posts hf a) textOnly hp, ← htext,
        accepted_concat, hfull]
      rw [htext]
      exact hbox.put hpos (seat.refuses f.heap p) p
  | passed p place heq hne hroster hroster' =>
    refine ⟨r', seat', received, hs', htext', hfull', ?_, ?_⟩
    · have hplace : place ≠ seat.slot := hne.resolve_right hput
      have hiff : place + 1 ≤ seat.slot ↔ place ≤ seat.slot := by omega
      rw [hhanded, Room.pending, Room.pending, hroster, hroster', heq]
      simp only [hiff, List.append_nil]
    · rw [List.append_nil, heq, hsame]
      exact hbox
  | closed p place heq hlt hroster hnone =>
    refine ⟨r', seat', received, hs', htext', hfull', ?_, ?_⟩
    · have hgone : ¬place ≤ seat.slot := by omega
      rw [hhanded, Room.pending, Room.pending, hroster, hnone]
      simp [hgone]
    · rw [List.append_nil, heq, hsame]
      exact hbox
  | took p l hcons hbox' hslot hroster =>
    refine ⟨r', seat', received, hs', htext', hfull', ?_, ?_⟩
    · rw [List.append_nil, hhanded, Room.pending, Room.pending, hroster, hslot]
    · rw [hbox', hsame]
      exact hbox.take hcons

theorem Tracks.run (hf : f.Whole) {log : List PostId}
    (ht : f.Tracks c room i textOnly full handed taken) (hl : f.Logged room (log ++ handed))
    {acts : List Act} (hstays : Act.unlink c room ∉ acts) (hput : Act.put room true ∉ acts) :
    (f.run acts).Tracks c room i textOnly full (handed ++ collect (begins room) f acts)
      (taken ++ collect (takes c room) f acts) := by
  induction acts generalizing f handed taken with
  | nil =>
    rw [collect, collect, List.append_nil, List.append_nil]
    exact ht
  | cons a acts ih =>
    have hknown : ∀ p ∈ handed, p < f.heap.length := by
      intro p hp
      exact hl.known p (List.mem_append_left _ (List.mem_append_right _ hp))
    have ht' := ht.act hf hknown (fun heq => hstays (heq ▸ List.mem_cons_self))
      (fun heq => hput (heq ▸ List.mem_cons_self))
    have hl' := hl.act hf a
    rw [List.append_assoc] at hl'
    have hrun := ih (hf.act a) ht' hl' (fun hin => hstays (List.mem_cons_of_mem _ hin))
      (fun hin => hput (List.mem_cons_of_mem _ hin))
    rw [collect, collect, ← List.append_assoc, ← List.append_assoc]
    exact hrun

end Floor

/-! ## Replay and live delivery -/

theorem exists_newest {α : Type} {P : α → Prop} (l : List α) (h : ∃ a ∈ l, P a) :
    ∃ before a after, l = before ++ a :: after ∧ P a ∧ ∀ b ∈ after, ¬P b := by
  induction l with
  | nil => simp at h
  | cons b l ih =>
    by_cases hlater : ∃ a ∈ l, P a
    · obtain ⟨before, a, after, rfl, ha, hafter⟩ := ih hlater
      exact ⟨b :: before, a, after, rfl, ha, hafter⟩
    · refine ⟨[], b, l, rfl, ?_, ?_⟩
      · obtain ⟨a, ha, hP⟩ := h
        rcases List.mem_cons.mp ha with rfl | ha
        · exact hP
        · exact absurd ⟨a, ha, hP⟩ hlater
      · intro a ha hP
        exact hlater ⟨a, ha, hP⟩

/-- A part of a list with nothing twice is what the list has of it. -/
theorem eq_filter_of_sublist {l l' : List PostId} (hsub : l.Sublist l') (hnodup : l'.Nodup) :
    l = l'.filter (fun p => decide (p ∈ l)) := by
  refine (List.Sublist.eq_of_length_le ?_ ?_)
  · have hall : l.filter (fun p => decide (p ∈ l)) = l := by
      rw [List.filter_eq_self]
      intro p hp
      simpa using hp
    rw [← hall]
    conv_rhs => rw [hall]
    exact hsub.filter _
  · refine (List.subperm_of_subset (hnodup.filter _) ?_).length_le
    intro p hp
    simpa using (List.mem_filter.mp hp).2

/-- What is kept after a post is what came after it and is still kept. -/
theorem kept_after {log kept before after : List PostId} {p : PostId} (hsub : kept.Sublist log)
    (hnodup : log.Nodup) (hkept : kept = before ++ p :: after) :
    ∃ earlier later, log = earlier ++ p :: later ∧
      after = later.filter (fun q => decide (q ∈ kept)) := by
  have hmem : p ∈ kept := by simp [hkept]
  obtain ⟨earlier, later, hlog⟩ := List.append_of_mem (hsub.subset hmem)
  refine ⟨earlier, later, hlog, ?_⟩
  have hall := eq_filter_of_sublist hsub hnodup
  rw [hlog, List.filter_append, List.filter_cons_of_pos (by simpa using hmem)] at hall
  have hkept' : (before ++ p :: after).Nodup := hkept ▸ hnodup.sublist hsub
  rw [List.nodup_middle, List.nodup_cons, List.mem_append] at hkept'
  have hsplit : before ++ p :: after = earlier.filter (fun q => decide (q ∈ kept)) ++
      p :: later.filter (fun q => decide (q ∈ kept)) := hkept.symm.trans hall
  have hinj := List.append_cons_inj_of_notMem (fun h => hkept'.1 (.inl h))
    (fun h => hkept'.1 (.inr h)) |>.mp hsplit
  exact hinj.2.2

namespace Floor

variable {f : Floor} {c room into : Nat} {textOnly : Bool} {lastId : Text.Bytes}

/-- A connection that sits down finds its seat empty, and is given what `keptAfter` says. -/
theorem Whole.sits (hf : f.Whole) (hsits : f.sitAfter c room textOnly lastId into ≠ f) :
    ∃ r i, f.rooms[room]? = some r ∧ r.roster = none ∧
      (f.sitAfter c room textOnly lastId into).Tracks c room i textOnly r.full [] [] ∧
      (f.sitAfter c room textOnly lastId into).held =
        (r.keptAfter f.heap lastId into).2 ++ f.held := by
  rcases hf.sitAfter_cases c room textOnly lastId into with hsame |
    ⟨conn, l, r, ticket, seat, hconn, hstays, hl, hout, hr, hroster, htake, hseat, hfree, hera, heq⟩
  · exact absurd hsame hsits
  refine ⟨r, ticket.index, hr, hroster, ?_, by rw [heq]⟩
  have hnil := ((hf.rooms room r hr).stocked.rings _ _ hseat).free hfree
  rw [heq]
  refine ⟨occupied r ticket seat c textOnly conn.first, seated r seat c textOnly conn.first, [],
    ⟨?_, ?_, rfl, rfl, ?_⟩, rfl, rfl, ?_, ?_⟩
  · exact List.getElem?_set_self (List.getElem?_eq_some_iff.mp hr).1
  · exact List.getElem?_set_self (List.getElem?_eq_some_iff.mp hseat).1
  · refine ⟨{ conn with first := ⟨some room, ticket⟩ }, ?_, ?_⟩
    · exact List.getElem?_set_self (List.getElem?_eq_some_iff.mp hconn).1
    · intro ticket' hleaving
      rw [hstays] at hleaving
      cases hleaving
  · have hnone : (occupied r ticket seat c textOnly conn.first).roster = none := hroster
    rw [Room.pending, hnone]
    rfl
  · have hbox : (seated r seat c textOnly conn.first).box = ⟨[], 0⟩ := by
      rw [← hnil]
      rfl
    rw [hbox]
    exact Mailbox.delivers_empty _

end Floor

namespace Floor

/-- In any run, of a connection that sits down and stays there: of the posts its room hands out from
then on, all but one under way came to its seat; those it took and those still in the seat's ring
are among them in the order they were handed out, none twice, and as many are missing as the seat
counts; a ring that drops the oldest holds the newest. A text-only stream that sits down with the
id of a kept post is given what was handed out after it and is still kept, and its seat receives
every text post from then on. -/
theorem run_delivery (rooms : List Options) (hbacklog : ∀ o ∈ rooms, 0 < o.backlog) (conns : Nat)
    (acts₀ acts : List Act) (c room : Nat) (textOnly : Bool) (lastId : Text.Bytes) (into : Nat)
    (hsits : ((start rooms conns).run acts₀).sitAfter c room textOnly lastId into ≠
      (start rooms conns).run acts₀)
    (hstays : Act.unlink c room ∉ acts) (hput : Act.put room true ∉ acts) :
    let f₀ := (start rooms conns).run acts₀
    let f₁ := f₀.sitAfter c room textOnly lastId into
    let f := f₁.run acts
    let log := collect (begins room) (start rooms conns) acts₀
    let handed := collect (begins room) f₁ acts
    let taken := collect (takes c room) f₁ acts
    (log ++ handed).Nodup ∧
    ∃ i r seat received r₀ given, f.Sits c room i r seat ∧
      handed = received ++ r.pending seat ∧
      (taken ++ seat.ring.toList).Sublist (accepted f.heap textOnly received) ∧
      received.length = taken.length + seat.ring.toList.length + seat.dropped ∧
      (r.full = .dropOldest → seat.ring.toList <:+ accepted f.heap textOnly received) ∧
      f₀.rooms[room]? = some r₀ ∧ f₁.held = given ++ f₀.held ∧
      (textOnly = true → lastId ≠ [] → r₀.kept.slots.length ≤ into →
        (∃ p ∈ r₀.kept.toList, f₀.heap.id p = lastId) →
        ∃ p earlier later, f₀.heap.id p = lastId ∧ (∀ q ∈ given, f₀.heap.id q ≠ lastId) ∧
          texts f.heap (log ++ received) = earlier ++ p :: (later ++ texts f.heap received) ∧
          given = later.filter (fun q => decide (q ∈ r₀.kept.toList)) ∧
          accepted f.heap textOnly received = texts f.heap received ∧
          (given ++ accepted f.heap textOnly received).Nodup) := by
  intro f₀ f₁ f log handed taken
  have hf₀ : f₀.Whole := (start_whole rooms hbacklog conns).run acts₀
  have hf₁ : f₁.Whole := hf₀.act (.sitAfter c room textOnly lastId into)
  have hl₀ : f₀.Logged room log := by
    have hl := (start_logged rooms conns room).run (start_whole rooms hbacklog conns) acts₀
    rwa [List.nil_append] at hl
  have hl₁ : f₁.Logged room (log ++ []) :=
    hl₀.act hf₀ (.sitAfter c room textOnly lastId into)
  have hl : f.Logged room (log ++ handed) := by
    have hl := hl₁.run hf₁ acts
    rwa [List.append_nil] at hl
  obtain ⟨r₀, i, hr₀, hroster₀, htracks₀, hheld⟩ := hf₀.sits hsits
  have htracks := htracks₀.run hf₁ hl₁ hstays hput
  rw [List.nil_append, List.nil_append] at htracks
  obtain ⟨r, seat, received, hs, htext, hfull, hhanded, hbox⟩ := htracks
  have hnodup : (log ++ handed).Nodup := hl.nodup.sublist (List.sublist_append_left _ _)
  refine ⟨hnodup, i, r, seat, received, r₀, _, hs, hhanded, hbox.order, hbox.missing, ?_, hr₀, hheld,
    ?_⟩
  · intro holdest
    exact hbox.newest (by simpa [← hfull] using holdest)
  rintro rfl hne hinto hid
  have hwhole := (hf₀.rooms room r₀ hr₀).stocked.hoard.whole
  obtain ⟨before, p, after, hkept, hp, hlater⟩ := exists_newest r₀.kept.toList hid
  have hlen : after.length ≤ into := by
    have hfits := Lib.RingBuf.Holds.fits hwhole
    have hcount := congrArg List.length hkept
    rw [List.length_append, List.length_cons] at hcount
    omega
  have hgiven : (r₀.keptAfter f₀.heap lastId into).2 = after :=
    Room.keptAfter_eq hwhole hkept hp hne hlater hlen
  -- what the posts of the log say is still as it was when the connection sat down
  have hposts : f₀.heap.posts <+: f.heap.posts :=
    (act_posts hf₀ (.sitAfter c room true lastId into)).trans (run_posts hf₁ acts)
  have hlog : texts f.heap log = texts f₀.heap log := by
    refine texts_extend hposts ?_
    intro q hq
    exact hl₀.known q (List.mem_append_left _ hq)
  have hsub : r₀.kept.toList.Sublist (texts f.heap log) := by
    rw [hlog]
    exact hl₀.free r₀ hr₀ hroster₀
  have hreceived : (log ++ received).Nodup := by
    refine hnodup.sublist (List.Sublist.append_left ?_ log)
    calc received.Sublist (received ++ r.pending seat) := List.sublist_append_left _ _
      _ = handed := hhanded.symm
  have htexts : (texts f.heap (log ++ received)).Nodup := hreceived.filter _
  rw [texts_append] at htexts
  have hnodupLog : (texts f.heap log).Nodup := htexts.sublist (List.sublist_append_left _ _)
  obtain ⟨earlier, later, hsplit, hafter⟩ := kept_after hsub hnodupLog hkept
  rw [hgiven, accepted_text]
  refine ⟨p, earlier, later, hp, hlater, ?_, hafter, rfl, ?_⟩
  · rw [texts_append, hsplit]
    simp
  · refine htexts.sublist (List.Sublist.append_right ?_ _)
    refine List.Sublist.trans ?_ hsub
    rw [hkept]
    exact (List.sublist_cons_self p after).trans (List.sublist_append_right _ _)

/-- A stream comes back with the id of the first of two kept posts, and then a binary one and two
more events are said. -/
def twoKept : List Act :=
  [.event 0 [] [49] [97], .handOut 0, .close 0, .event 0 [] [50] [98], .handOut 0, .close 0]

def threeMore : List Act :=
  [.say 0 .binary [99], .event 0 [] [51] [100], .event 0 [] [52] [101], .handOut 0, .put 0 false,
    .close 0, .handOut 1, .put 0 false, .take 0 0 false, .close 0, .handOut 0, .put 0 false]

theorem run_delivery_back :
    let f₀ := (start [⟨2, 1, 2, 100, .dropOldest⟩] 1).run twoKept
    let f₁ := f₀.sitAfter 0 0 true [49] 2
    f₁.held = [1] ++ f₀.held ∧ collect (begins 0) f₁ threeMore = [2, 4, 3] ∧
    collect (takes 0 0) f₁ threeMore = [4] ∧
    (collect (begins 0) (start [⟨2, 1, 2, 100, .dropOldest⟩] 1) twoKept ++
      collect (begins 0) f₁ threeMore).Nodup := by
  intro f₀ f₁
  have hrun := run_delivery [⟨2, 1, 2, 100, .dropOldest⟩] (by simp) 1 twoKept threeMore 0 0 true [49]
    2 (by decide) (by decide) (by decide)
  exact ⟨by decide, by decide, by decide, hrun.1⟩

end Floor

end Nilo.Rooms
