import Nilo.Room.Feed

/-!
# When a stream has written everything

What others do changes neither where a stream sits nor where its chain goes; a post that comes to
one of its seats rings its bell. So a walk over the seats that finds each of them empty leaves them
so, or the bell rung (`Looked`), and what a seat was given is what was taken from it and what is
still there (`Sat`).
-/

namespace Nilo.Rooms

open Lib (Mailbox)

/-! ## What others do, seen from a connection -/

namespace Floor

variable {f : Floor} {c room i : Nat} {r : Room} {seat : Seat}

/-- Others change nothing of a connection but its bell, and that only to ring it. -/
theorem act_conn_other (hf : f.Whole) {conn : Conn} (hconn : f.conns[c]? = some conn) {a : Act}
    (ha : a.isOf c = false) :
    ∃ rung, (f.act a).conns[c]? = some { conn with rung := rung } ∧
      (conn.rung = true → rung = true) := by
  have hsame : ∃ rung, f.conns[c]? = some { conn with rung := rung } ∧
      (conn.rung = true → rung = true) := ⟨conn.rung, hconn, id⟩
  have hset : ∀ {c' : Nat} (conn' : Conn), (c' == c) = false →
      ∃ rung, (f.conns.set c' conn')[c]? = some { conn with rung := rung } ∧
        (conn.rung = true → rung = true) := by
    intro c' conn' hne
    rw [List.getElem?_set_ne (by simpa using hne)]
    exact hsame
  cases a with
  | sitAfter c' room' textOnly lastId into =>
    rcases hf.sitAfter_cases c' room' textOnly lastId into with heq |
      ⟨_, _, _, _, _, _, _, _, _, _, _, _, _, _, _, heq⟩
    · rw [act, heq]
      exact hsame
    · rw [act, heq]
      exact hset _ ha
  | unlink c' room' =>
    rcases hf.unlink_cases c' room' with heq | ⟨_, _, _, _, _, _, _, _, _, _, _, _, _, heq⟩
    · rw [act, heq]
      exact hsame
    · rw [act, heq]
      exact hset _ ha
  | giveUp c' =>
    rcases f.giveUp_cases c' with heq | ⟨_, _, _, _, _, _, _, _, heq⟩
    · rw [act, heq]
      exact hsame
    · rw [act, heq]
      exact hset _ ha
  | say room' kind data =>
    rcases f.reserve_cases room' ⟨kind, [], [], data⟩ with heq | heq
    · rw [act, heq]
      exact hsame
    · rw [act, heq]
      exact hsame
  | event room' name id data =>
    rw [act, event]
    split_ifs
    · exact hsame
    · rcases f.reserve_cases room' ⟨.text, name, id, data⟩ with heq | heq
      · rw [heq]
        exact hsame
      · rw [heq]
        exact hsame
  | handOut k =>
    rcases f.handOut_cases k with ⟨heq, _⟩ | ⟨_, _, _, _, _, _, _, heq⟩
    · rw [act, heq]
      exact hsame
    · rw [act, heq]
      exact hsame
  | cancel k =>
    rw [act, cancel]
    split <;> exact hsame
  | put room' canceled =>
    rcases f.put_cases room' canceled with heq | ⟨_, _, _, _, _, _, _, _, ⟨_, heq⟩ | ⟨_, heq⟩⟩
    · rw [act, heq]
      exact hsame
    · rw [act, heq]
      exact hsame
    · rw [act, heq]
      unfold Floor.ring
      split
      · exact hsame
      · rename_i c' _
        dsimp only
        rw [List.getElem?_modify, hconn]
        by_cases heq' : c' = c
        · exact ⟨true, by simp [heq'], fun _ => rfl⟩
        · exact ⟨conn.rung, by simp [heq'], id⟩
  | close room' =>
    rcases f.close_cases room' with heq | ⟨_, _, _, _, _, _, _, _, heq⟩
    · rw [act, heq]
      exact hsame
    · rw [act, heq]
      exact hsame
  | take c' room' canceled =>
    rcases f.take_cases c' room' canceled with ⟨heq, _⟩ | ⟨_, _, _, _, heq⟩
    · rw [act, heq]
      exact hsame
    · rw [act, heq]
      exact hsame
  | release k =>
    rw [act, release]
    split <;> exact hsame
  | forget room' =>
    rw [act, forget]
    split
    · exact hsame
    · split_ifs
      · exact hsame
      · exact hsame
  | look c' =>
    rw [act, look]
    dsimp only
    rw [List.getElem?_modify_ne _ _ (by simpa [Act.isOf] using ha)]
    exact hsame

/-- A connection has one seat in a room. -/
theorem Sits.unique (hf : f.Whole) (hs : f.Sits c room i r seat) {j : Nat} {seat' : Seat}
    (hseat' : r.seats[j]? = some seat') (htaken' : seat'.taken = true)
    (hwaker' : seat'.waker = some c) : j = i := by
  obtain ⟨conn, hconn, hstays⟩ := hs.stays
  obtain ⟨l, hl⟩ := hf.conns c conn hconn
  have hmine : ∀ (k : Nat) (s : Seat), r.seats[k]? = some s → s.taken = true →
      s.waker = some c → (room, (⟨k, s.era⟩ : Ticket)) ∈ l := by
    intro k s hk htaken hwaker
    have hseat : seatAt f.rooms room k = some s := by
      rw [seatAt, hs.inRoom]
      exact hk
    rcases hl.owned room k s hseat htaken hwaker with hin | hleaving
    · exact hin
    · exact absurd hleaving (hstays _)
  have heq := List.inj_on_of_nodup_map hl.chained.nodup
    (hmine j seat' hseat' htaken' hwaker') (hmine i seat hs.inSeat hs.taken hs.waker) rfl
  exact congrArg (fun e => e.2.index) heq

/-- What comes to a connection's seat is put there by a broadcast. -/
theorem comes_some {a : Act} {p : PostId} {full : Bool}
    (hcomes : f.comes c a = some (room, p, full)) :
    a = .put room false ∧ ∃ r place index seat, f.rooms[room]? = some r ∧
      r.roster = some (p, place) ∧ place < r.here ∧ r.roll[place]? = some index ∧
      r.seats[index]? = some seat ∧ seat.waker = some c ∧ seat.refuses f.heap p = false ∧
      full = decide (seat.ring.count = r.backlog) := by
  unfold comes at hcomes
  split at hcomes
  · rename_i room'
    split at hcomes
    · cases hcomes
    · rename_i r hr
      split at hcomes
      · cases hcomes
      · rename_i p' place hroster
        by_cases hlt : place < r.here
        · rw [if_pos hlt] at hcomes
          split at hcomes
          · cases hcomes
          · rename_i index hindex
            split at hcomes
            · cases hcomes
            · rename_i seat hseat
              split_ifs at hcomes with hmine
              cases hcomes
              exact ⟨rfl, r, place, index, seat, hr, hroster, hlt, hindex, hseat, hmine.1,
                by simpa [Seat.refuses] using hmine.2, rfl⟩
        · rw [if_neg hlt] at hcomes
          cases hcomes
  · cases hcomes

/-- A broadcast at a connection's seat. -/
theorem Sits.comes_at (hf : f.Whole) (hs : f.Sits c room i r seat) {p : PostId}
    (hroster : r.roster = some (p, seat.slot)) (hrefuse : seat.refuses f.heap p = false) :
    f.comes c (.put room false) = some (room, p, decide (seat.ring.count = r.backlog)) := by
  obtain ⟨hroll, hlt⟩ := (hf.rooms room r hs.inRoom).rolled.at_slot hs.inSeat hs.taken
  have hmine : seat.waker = some c ∧ ¬(seat.textOnly = true ∧ f.heap.kind p = .binary) :=
    ⟨hs.waker, by simpa [Seat.refuses] using hrefuse⟩
  rw [comes, hs.inRoom]
  dsimp only
  rw [hroster]
  dsimp only
  rw [if_pos hlt, hroll]
  dsimp only
  rw [hs.inSeat]
  dsimp only
  rw [if_pos hmine]

/-- What a broadcast leaves of a room at whose seat it is. -/
theorem put_room (hr : f.rooms[room]? = some r) {p : PostId} {place index : Nat}
    (hroster : r.roster = some (p, place)) (hlt : place < r.here)
    (hindex : r.roll[place]? = some index) :
    f.put room false = Floor.ring { f with
      rooms := f.rooms.set room { (r.putAt f.heap index p).2 with roster := some (p, place + 1) }
      heap := (r.putAt f.heap index p).1 } (f.bell r index p) := by
  rw [put, hr]
  dsimp only
  rw [hroster]
  dsimp only
  rw [if_pos hlt, hindex]
  rfl

/-- A post that comes to a seat that is not full rings the connection's bell. -/
theorem comes_rings {a : Act} {p : PostId} (hcomes : f.comes c a = some (room, p, false))
    {conn : Conn} (hconn : f.conns[c]? = some conn) :
    (f.act a).conns[c]? = some { conn with rung := true } := by
  obtain ⟨rfl, r, place, index, seat, hr, hroster, hlt, hindex, hseat, hwaker, hrefuse, hfull⟩ :=
    comes_some hcomes
  have hbell : f.bell r index p = some c := by
    have hrings : seat.rings f.heap r.backlog r.full p = true := by
      have hnot : seat.ring.count ≠ r.backlog := by simpa using hfull.symm
      have hno : ¬(seat.textOnly = true ∧ f.heap.kind p = .binary) := by
        simpa [Seat.refuses] using hrefuse
      simp [Seat.rings, hnot, hno]
    rw [bell, hseat]
    dsimp only
    rw [if_pos hrings, hwaker]
  rw [act, put_room hr hroster hlt hindex, hbell, Floor.ring]
  dsimp only
  rw [List.getElem?_modify_eq, hconn]
  rfl

end Floor

namespace Floor

variable {f : Floor} {c room i : Nat} {r : Room} {seat : Seat}

theorem takes_other {a : Act} (ha : a.isOf c = false) (room : Nat) : f.takes c room a = [] := by
  cases a with
  | take c' room' canceled => exact takes_none (.inl (by simpa [Act.isOf] using ha))
  | _ => rfl

/-- A seat after what others do: as it was, or with a post that came to it. -/
theorem Sits.act_other (hf : f.Whole) (hs : f.Sits c room i r seat) {a : Act}
    (ha : a.isOf c = false) :
    ∃ r' seat', (f.act a).Sits c room i r' seat' ∧ SameSitter True seat seat' ∧
      (seat'.ring.toList = seat.ring.toList ∧ (∀ p full, f.comes c a ≠ some (room, p, full)) ∨
        ∃ p, f.comes c a = some (room, p, decide (seat.ring.count = r.backlog)) ∧
          seat'.box = seat.box.put r.backlog (decide (r.full = .dropOldest)) false p) := by
  have hunlink : ∀ room', a ≠ .unlink c room' := by
    rintro room' rfl
    simp [Act.isOf] at ha
  obtain ⟨r', seat', hs', hsitter, -, hstep⟩ := hs.act hf (hunlink room)
  have hsitter' : SameSitter True seat seat' :=
    ⟨hsitter.taken, hsitter.waker, hsitter.era, hsitter.textOnly, fun _ => hsitter.next hunlink⟩
  refine ⟨r', seat', hs', hsitter', ?_⟩
  -- what comes to the seat finds the broadcast there, and leaves it one place on
  have hcame : ∀ p full, f.comes c a = some (room, p, full) →
      a = .put room false ∧ r.roster = some (p, seat.slot) ∧
      r'.roster = some (p, seat.slot + 1) := by
    intro p full hcomes
    obtain ⟨rfl, r₀, place, index, seat₀, hr₀, hroster, hlt, hindex, hseat₀, hwaker, -, -⟩ :=
      comes_some hcomes
    rw [hs.inRoom] at hr₀
    cases hr₀
    have hrolled := (hf.rooms room r hs.inRoom).rolled
    have htaken : seat₀.taken = true := (hrolled.taken place index seat₀ hindex hseat₀).mpr hlt
    obtain rfl : index = i := hs.unique hf hseat₀ htaken hwaker
    obtain rfl : place = seat.slot := hrolled.inj hindex (hrolled.at_slot hs.inSeat hs.taken).1
    refine ⟨rfl, hroster, ?_⟩
    have hroom' := hs'.inRoom
    rw [Floor.act, put_room hs.inRoom hroster hlt hindex, ring_rooms,
      List.getElem?_set_self (List.getElem?_eq_some_iff.mp hs.inRoom).1] at hroom'
    cases hroom'
    rfl
  rw [takes_other ha] at hstep
  generalize f.begins room a = begun at hstep
  cases hstep with
  | idle hbox hroster hslot =>
    refine .inl ⟨congrArg Mailbox.queue hbox, ?_⟩
    intro p full hcomes
    obtain ⟨-, h₁, h₂⟩ := hcame p full hcomes
    rw [hroster, h₁] at h₂
    simp at h₂
  | begun p heq hnone hsome =>
    refine .inl ⟨by rw [heq], ?_⟩
    intro q full hcomes
    rw [(hcame q full hcomes).2.1] at hnone
    cases hnone
  | reached p hput hslot hroster hroster' hbox =>
    subst hput
    cases hrefuse : seat.refuses f.heap p with
    | true =>
      rw [hrefuse] at hbox
      refine .inl ⟨congrArg Mailbox.queue hbox, ?_⟩
      intro q full hcomes
      obtain ⟨-, r₀, _, index, seat₀, hr₀, hroster₀, hlt, hindex, hseat₀, hwaker, hno, -⟩ :=
        comes_some hcomes
      rw [hs.inRoom] at hr₀
      cases hr₀
      have hrolled := (hf.rooms room r hs.inRoom).rolled
      have htaken : seat₀.taken = true := (hrolled.taken _ index seat₀ hindex hseat₀).mpr hlt
      obtain rfl : index = i := hs.unique hf hseat₀ htaken hwaker
      rw [hs.inSeat] at hseat₀
      cases hseat₀
      rw [hroster] at hroster₀
      cases hroster₀
      rw [hrefuse] at hno
      cases hno
    | false =>
      rw [hrefuse] at hbox
      exact .inr ⟨p, hs.comes_at hf hroster hrefuse, hbox⟩
  | passed p place heq hne hroster hroster' =>
    refine .inl ⟨by rw [heq], ?_⟩
    intro q full hcomes
    obtain ⟨rfl, h₁, -⟩ := hcame q full hcomes
    rw [hroster] at h₁
    cases h₁
    rcases hne with hne | hput
    · exact hne rfl
    · cases hput
  | closed p place heq hlt hroster hnone =>
    refine .inl ⟨by rw [heq], ?_⟩
    intro q full hcomes
    rw [(hcame q full hcomes).2.2] at hnone
    cases hnone

end Floor

/-! ## A connection in its seats -/

theorem Linked.unique {rooms : List Room} {s : Seating} {l l' : List (Nat × Ticket)}
    (h : Linked rooms s l) (h' : Linked rooms s l') : l = l' := by
  induction l generalizing s l' with
  | nil =>
    cases l' with
    | nil => rfl
    | cons e' l' =>
      obtain ⟨rfl, -⟩ := h'
      cases h
  | cons e l ih =>
    obtain ⟨rfl, seat, hseat, hrest⟩ := h
    cases l' with
    | nil => cases h'
    | cons e' l' =>
      obtain ⟨heq, seat', hseat', hrest'⟩ := h'
      have he : e = e' := by
        rw [Seating.mk.injEq, Option.some.injEq] at heq
        exact Prod.ext heq.1 heq.2
      subst he
      rw [hseat] at hseat'
      cases hseat'
      rw [ih hrest hrest']

/-- The posts of one room. -/
def inRoom (room : Nat) (l : List (Nat × PostId)) : List PostId :=
  (l.filter fun e => e.1 == room).map (·.2)

theorem inRoom_concat_self (room : Nat) (l : List (Nat × PostId)) (p : PostId) :
    inRoom room (l ++ [(room, p)]) = inRoom room l ++ [p] := by
  simp [inRoom, List.filter_append]

theorem inRoom_concat_ne {room room' : Nat} (h : room' ≠ room) (l : List (Nat × PostId))
    (p : PostId) : inRoom room (l ++ [(room', p)]) = inRoom room l := by
  simp [inRoom, List.filter_append, h]

/-- What a connection has got after a step, and whether something of it was lost. -/
def gets (got : List (Nat × PostId)) : Option (Nat × PostId × Bool) → List (Nat × PostId)
  | none => got
  | some (room, p, _) => got ++ [(room, p)]

def loses (lost : Bool) : Option (Nat × PostId × Bool) → Bool
  | none => lost
  | some (_, _, full) => lost || full

/-- A connection that sits in the rooms of `l` as a text stream: unless something was lost, what came
to each of its seats is what it took from there and what is still in the ring. -/
structure Sat (f : Floor) (c : Nat) (conn : Conn) (l : List (Nat × Ticket))
    (got taken : List (Nat × PostId)) (lost : Bool) : Prop where
  there : f.conns[c]? = some conn
  stays : conn.leaving = none
  chained : Chained f.rooms c conn.first l
  textOnly : ∀ e ∈ l, ∀ seat, seatAt f.rooms e.1 e.2.index = some seat → seat.textOnly = true
  fifo : lost = false → ∀ e ∈ l, ∀ seat, seatAt f.rooms e.1 e.2.index = some seat →
    inRoom e.1 got = inRoom e.1 taken ++ seat.ring.toList
  absent : ∀ room, room ∉ l.map (·.1) → inRoom room got = [] ∧ inRoom room taken = []

/-- The bell is rung, or these seats are empty. -/
def Looked (rooms : List Room) (rung : Bool) (l : List (Nat × Ticket)) : Prop :=
  rung = true ∨ ∀ e ∈ l, ∀ seat, seatAt rooms e.1 e.2.index = some seat → seat.ring.toList = []

section Sat

variable {f f' : Floor} {c : Nat} {conn : Conn} {l : List (Nat × Ticket)}
  {got taken : List (Nat × PostId)} {lost : Bool}

/-- The seats of its chain are its own. -/
theorem Sat.sits (hsat : Sat f c conn l got taken lost) {e : Nat × Ticket} (he : e ∈ l) :
    ∃ r seat, f.Sits c e.1 e.2.index r seat ∧ seat.era = e.2.era ∧
      seatAt f.rooms e.1 e.2.index = some seat := by
  obtain ⟨seat, hseat, htaken, hera, hwaker⟩ := hsat.chained.mine e he
  have hat := hseat
  rw [seatAt, Option.bind_eq_some_iff] at hat
  obtain ⟨r, hr, hs⟩ := hat
  refine ⟨r, seat, ⟨hr, hs, htaken, hwaker, conn, hsat.there, ?_⟩, hera, hseat⟩
  intro ticket hleaving
  rw [hsat.stays] at hleaving
  cases hleaving

/-- The rooms it has a seat in are those of its chain. -/
theorem Sat.mem (hf : f.Whole) (hsat : Sat f c conn l got taken lost) {room i : Nat} {seat : Seat}
    (hseat : seatAt f.rooms room i = some seat) (htaken : seat.taken = true)
    (hwaker : seat.waker = some c) : (room, ⟨i, seat.era⟩) ∈ l := by
  obtain ⟨l', hl'⟩ := hf.conns c conn hsat.there
  rw [hsat.chained.linked.unique hl'.chained.linked]
  rcases hl'.owned room i seat hseat htaken hwaker with hin | hleaving
  · exact hin
  · rw [hsat.stays] at hleaving
    cases hleaving

theorem seatAt_sits {room i : Nat} {r : Room} {seat : Seat} (hs : f.Sits c room i r seat) :
    seatAt f.rooms room i = some seat := by
  rw [seatAt, hs.inRoom]
  exact hs.inSeat

/-- A step after which each of its seats is its own as before. -/
def Stays (f f' : Floor) (c : Nat) (l : List (Nat × Ticket)) : Prop :=
  ∀ e ∈ l, ∀ r seat, f.Sits c e.1 e.2.index r seat →
    ∃ r' seat', f'.Sits c e.1 e.2.index r' seat' ∧ Floor.SameSitter True seat seat'

theorem Sat.sameSeat (hsat : Sat f c conn l got taken lost) (hstays : Stays f f' c l)
    {e : Nat × Ticket} (he : e ∈ l) : SameSeat f.rooms f'.rooms e := by
  intro seat hseat _
  obtain ⟨r, seat₀, hs, -, hseat₀⟩ := hsat.sits he
  rw [hseat] at hseat₀
  cases hseat₀
  obtain ⟨r', seat', hs', hsitter⟩ := hstays e he r seat hs
  exact ⟨seat', seatAt_sits hs', hs'.taken, hsitter.era, hsitter.waker, hsitter.next trivial⟩

theorem Sat.linked (hsat : Sat f c conn l got taken lost) (hstays : Stays f f' c l)
    {s : Seating} {l₁ l₂ : List (Nat × Ticket)} (hl : l = l₁ ++ l₂) (hlink : Linked f.rooms s l₂) :
    Linked f'.rooms s l₂ := by
  refine hlink.congr ?_
  intro e he seat hseat
  have hin : e ∈ l := hl ▸ List.mem_append_right _ he
  obtain ⟨seat₀, hseat₀, htaken, -⟩ := hsat.chained.mine e hin
  rw [hseat] at hseat₀
  cases hseat₀
  obtain ⟨seat', hseat', -, -, -, hnext⟩ := hsat.sameSeat hstays hin seat hseat htaken
  exact ⟨seat', hseat', hnext⟩

/-- A seat of its chain, before such a step and after. -/
theorem Sat.seat_back (hsat : Sat f c conn l got taken lost) {e : Nat × Ticket} (he : e ∈ l)
    {seat' : Seat} (hseat' : seatAt f'.rooms e.1 e.2.index = some seat') {P : Seat → Seat → Prop}
    (hstep : ∀ r seat, f.Sits c e.1 e.2.index r seat →
      ∃ r' seat', f'.Sits c e.1 e.2.index r' seat' ∧ P seat seat') :
    ∃ r seat, f.Sits c e.1 e.2.index r seat ∧ seatAt f.rooms e.1 e.2.index = some seat ∧
      P seat seat' := by
  obtain ⟨r, seat, hs, -, hseat⟩ := hsat.sits he
  obtain ⟨r', seat₁, hs', hP⟩ := hstep r seat hs
  have heq := seatAt_sits hs'
  rw [hseat'] at heq
  cases heq
  exact ⟨r, seat, hs, hseat, hP⟩

end Sat

section Sat

variable {f f' : Floor} {c : Nat} {conn : Conn} {l : List (Nat × Ticket)}
  {got taken : List (Nat × PostId)} {lost : Bool}

/-- What came to another room's seat, or to none, is nothing of this room's. -/
theorem inRoom_gets_ne {room : Nat} {o : Option (Nat × PostId × Bool)}
    (h : ∀ p full, o ≠ some (room, p, full)) : inRoom room (gets got o) = inRoom room got := by
  cases o with
  | none => rfl
  | some e =>
    obtain ⟨room', p, full⟩ := e
    refine inRoom_concat_ne ?_ got p
    rintro rfl
    exact h p full rfl

theorem loses_false {o : Option (Nat × PostId × Bool)} (h : loses lost o = false) : lost = false := by
  cases o with
  | none => exact h
  | some e =>
    obtain ⟨room', p, full⟩ := e
    exact (Bool.or_eq_false_iff.mp h).1

/-- What others do leaves a connection in its seats. -/
theorem Sat.stays_other (hf : f.Whole) {a : Act} (ha : a.isOf c = false) :
    Stays f (f.act a) c l := by
  intro e he r seat hs
  obtain ⟨r', seat', hs', hsitter, -⟩ := hs.act_other hf ha
  exact ⟨r', seat', hs', hsitter⟩

theorem Sat.other (hf : f.Whole) (hsat : Sat f c conn l got taken lost) {a : Act}
    (ha : a.isOf c = false) {rung : Bool}
    (hconn : (f.act a).conns[c]? = some { conn with rung := rung }) :
    Sat (f.act a) c { conn with rung := rung } l (gets got (f.comes c a)) taken
      (loses lost (f.comes c a)) := by
  have hstays : Stays f (f.act a) c l := Sat.stays_other hf ha
  refine ⟨hconn, hsat.stays, hsat.chained.same fun e he => hsat.sameSeat hstays he, ?_, ?_, ?_⟩
  · intro e he seat' hseat'
    obtain ⟨r, seat, hs, hseat, hsitter⟩ := hsat.seat_back he hseat' (hstays e he)
    rw [hsitter.textOnly]
    exact hsat.textOnly e he seat hseat
  · intro hlost e he seat' hseat'
    obtain ⟨r, seat, hs, hseat, hstep⟩ := hsat.seat_back
      (P := fun seat seat' => (seat'.ring.toList = seat.ring.toList ∧
          ∀ p full, f.comes c a ≠ some (e.1, p, full)) ∨
        ∃ r p, f.Sits c e.1 e.2.index r seat ∧
          f.comes c a = some (e.1, p, decide (seat.ring.count = r.backlog)) ∧
          seat'.box = seat.box.put r.backlog (decide (r.full = .dropOldest)) false p) he hseat' (by
      intro r seat hs
      obtain ⟨r', seat', hs', -, hstep⟩ := hs.act_other hf ha
      refine ⟨r', seat', hs', ?_⟩
      rcases hstep with hsame | ⟨p, hcomes, hbox⟩
      · exact .inl hsame
      · exact .inr ⟨r, p, hs, hcomes, hbox⟩)
    have hfifo := hsat.fifo (loses_false hlost) e he seat hseat
    rcases hstep with ⟨hring, hno⟩ | ⟨r, p, hs, hcomes, hbox⟩
    · rw [inRoom_gets_ne hno, hring]
      exact hfifo
    · rw [hcomes] at hlost ⊢
      have hroom : seat.ring.count ≠ r.backlog := by
        simpa [loses] using (Bool.or_eq_false_iff.mp hlost).2
      have hcount := ((hf.rooms e.1 r hs.inRoom).stocked.rings _ _ hs.inSeat).whole.count_eq
      have hring : seat'.ring.toList = seat.ring.toList ++ [p] := by
        have hqueue := congrArg Mailbox.queue hbox
        have hne : seat.ring.toList.length ≠ r.backlog := by omega
        simpa [Seat.box, Mailbox.put, hne] using hqueue
      rw [gets, inRoom_concat_self, hfifo, hring, List.append_assoc]
  · intro room hroom
    obtain ⟨hgot, htaken⟩ := hsat.absent room hroom
    refine ⟨?_, htaken⟩
    rw [inRoom_gets_ne]
    · exact hgot
    · intro p full hcomes
      obtain ⟨-, r, place, index, seat, hr, -, hlt, hindex, hseat, hwaker, -, -⟩ :=
        Floor.comes_some hcomes
      have htaken : seat.taken = true :=
        ((hf.rooms room r hr).rolled.taken place index seat hindex hseat).mpr hlt
      have hat : seatAt f.rooms room index = some seat := by
        rw [seatAt, hr]
        exact hseat
      exact hroom (List.mem_map.mpr ⟨_, hsat.mem hf hat htaken hwaker, rfl⟩)

/-- A post that comes to an empty seat rings the bell. -/
theorem Sat.looked_other (hf : f.Whole) (hsat : Sat f c conn l got taken lost) {a : Act}
    (ha : a.isOf c = false) {rung : Bool}
    (hconn : (f.act a).conns[c]? = some { conn with rung := rung })
    (hrung : conn.rung = true → rung = true) {l₁ : List (Nat × Ticket)} (hl₁ : ∀ e ∈ l₁, e ∈ l)
    (hlooked : Looked f.rooms conn.rung l₁) : Looked (f.act a).rooms rung l₁ := by
  rcases hlooked with hrang | hempty
  · exact .inl (hrung hrang)
  by_cases hno : rung = true
  · exact .inl hno
  refine .inr ?_
  intro e he seat' hseat'
  have hin := hl₁ e he
  obtain ⟨r, seat, hs, -, hseat⟩ := hsat.sits hin
  obtain ⟨r', seat₁, hs', -, hstep⟩ := hs.act_other hf ha
  have heq := seatAt_sits hs'
  rw [hseat'] at heq
  cases heq
  have hnil := hempty e he seat hseat
  rcases hstep with ⟨hring, -⟩ | ⟨p, hcomes, -⟩
  · rw [hring]
    exact hnil
  · have hstocked := (hf.rooms e.1 r hs.inRoom).stocked
    have hcount := (hstocked.rings _ _ hs.inSeat).whole.count_eq
    have hpos := hstocked.backlog_pos
    rw [hnil, List.length_nil] at hcount
    have hfull : decide (seat.ring.count = r.backlog) = false := by
      rw [decide_eq_false_iff_not]
      omega
    rw [hfull] at hcomes
    have hrings := Floor.comes_rings hcomes hsat.there
    rw [hconn] at hrings
    have hrung' : rung = true := congrArg Conn.rung (Option.some.inj hrings)
    exact absurd hrung' hno

end Sat

/-! ## What the connection does itself -/

section Sat

variable {f f' : Floor} {c : Nat} {conn : Conn} {l : List (Nat × Ticket)}
  {got taken : List (Nat × PostId)} {lost : Bool} {room : Nat} {ticket : Ticket} {p : PostId}

/-- A step that leaves rooms and chain as they are. -/
theorem Sat.same (hsat : Sat f c conn l got taken lost) (hrooms : f'.rooms = f.rooms) {rung : Bool}
    (hconn : f'.conns[c]? = some { conn with rung := rung }) :
    Sat f' c { conn with rung := rung } l got taken lost := by
  refine ⟨hconn, hsat.stays, ?_, ?_, ?_, hsat.absent⟩
  · rw [hrooms]
    exact hsat.chained
  · rw [hrooms]
    exact hsat.textOnly
  · rw [hrooms]
    exact hsat.fifo

/-- The walk's ticket is the one `find` finds. -/
theorem Sat.next_eq (hsat : Sat f c conn l got taken lost) (he : (room, ticket) ∈ l) {r : Room}
    (hr : f.rooms[room]? = some r) : f.next c room = r.take ticket := by
  have hfuel : l.length ≤ f.fuel := Nat.le_succ_of_le hsat.chained.length_le
  have hfind : find f.rooms room f.fuel conn.first = some ticket := by
    rw [find_eq hsat.chained.linked f.fuel hfuel]
    cases hfound : l.find? (·.1 = room) with
    | none =>
      rw [List.find?_eq_none] at hfound
      have hno := hfound _ he
      simp at hno
    | some e =>
      have hmem := List.mem_of_find?_eq_some hfound
      have hroom : e.1 = room := by simpa using List.find?_some hfound
      have heq := List.inj_on_of_nodup_map hsat.chained.nodup hmem he hroom
      rw [heq]
      rfl
  rw [Floor.next, hsat.there]
  dsimp only
  rw [if_neg (by simp [hsat.stays]), hfind, hr]

theorem Sat.takeAt_act (hsat : Sat f c conn l got taken lost) (he : (room, ticket) ∈ l)
    (htake : f.takeAt room ticket = some (p, f')) :
    f' = f.act (.take c room false) ∧ f.takes c room (.take c room false) = [p] := by
  obtain ⟨r, r', hr, hr', rfl⟩ := Floor.takeAt_some htake
  have hnext : f.next c room = some (p, r') := (hsat.next_eq he hr).trans hr'
  refine ⟨?_, ?_⟩
  · rw [Floor.act, Floor.take, if_neg (by simp), hnext]
  · rw [Floor.takes, if_pos ⟨rfl, rfl, rfl⟩, hnext]
    rfl

/-- A seat after the connection took something from one of its seats. -/
theorem Floor.Sits.act_take (hf : f.Whole) {room' i : Nat} {r : Room} {seat : Seat}
    (hs : f.Sits c room' i r seat) (htakes : f.takes c room (.take c room false) = [p]) :
    ∃ r' seat', (f.act (.take c room false)).Sits c room' i r' seat' ∧
      Floor.SameSitter True seat seat' ∧
      (room' = room ∧ seat.ring.toList = p :: seat'.ring.toList ∨
        room' ≠ room ∧ seat'.ring.toList = seat.ring.toList) := by
  obtain ⟨r', seat', hs', hsitter, -, hstep⟩ := hs.act hf (a := .take c room false) nofun
  have hsitter' : Floor.SameSitter True seat seat' :=
    ⟨hsitter.taken, hsitter.waker, hsitter.era, hsitter.textOnly, fun _ => hsitter.next nofun⟩
  refine ⟨r', seat', hs', hsitter', ?_⟩
  by_cases hroom : room' = room
  · subst hroom
    rw [htakes] at hstep
    refine .inl ⟨rfl, ?_⟩
    have hbegins : f.begins room' (.take c room' false) = [] := rfl
    rw [hbegins] at hstep
    cases hstep with
    | took _ l' hqueue hbox _ _ =>
      have hring : seat'.ring.toList = seat.ring.toList.tail := congrArg Mailbox.queue hbox
      have hcons : seat.ring.toList = p :: l' := hqueue
      rw [hring, hcons, List.tail_cons]
  · rw [Floor.takes_none (.inr (.inl (Ne.symm hroom)))] at hstep
    refine .inr ⟨hroom, ?_⟩
    have hbegins : f.begins room' (.take c room false) = [] := rfl
    rw [hbegins] at hstep
    cases hstep with
    | idle hbox _ _ => exact congrArg Mailbox.queue hbox
    | reached _ hput _ _ _ _ => cases hput
    | passed _ _ heq _ _ _ => rw [heq]
    | closed _ _ heq _ _ _ => rw [heq]

theorem Sat.stays_take (hf : f.Whole) (htakes : f.takes c room (.take c room false) = [p]) :
    Stays f (f.act (.take c room false)) c l := by
  intro e he r seat hs
  obtain ⟨r', seat', hs', hsitter, -⟩ := hs.act_take hf htakes
  exact ⟨r', seat', hs', hsitter⟩

theorem Sat.take (hf : f.Whole) (hsat : Sat f c conn l got taken lost) (he : (room, ticket) ∈ l)
    (htakes : f.takes c room (.take c room false) = [p])
    (hconn : (f.act (.take c room false)).conns[c]? = some conn) :
    Sat (f.act (.take c room false)) c conn l got (taken ++ [(room, p)]) lost := by
  have hstays : Stays f (f.act (.take c room false)) c l := Sat.stays_take hf htakes
  refine ⟨hconn, hsat.stays, hsat.chained.same fun e' he' => hsat.sameSeat hstays he', ?_, ?_, ?_⟩
  · intro e' he' seat' hseat'
    obtain ⟨r, seat, hs, hseat, hsitter⟩ := hsat.seat_back he' hseat' (hstays e' he')
    rw [hsitter.textOnly]
    exact hsat.textOnly e' he' seat hseat
  · intro hlost e' he' seat' hseat'
    obtain ⟨r, seat, hs, hseat, hstep⟩ := hsat.seat_back
      (P := fun seat seat' => e'.1 = room ∧ seat.ring.toList = p :: seat'.ring.toList ∨
        e'.1 ≠ room ∧ seat'.ring.toList = seat.ring.toList) he' hseat' (by
      intro r seat hs
      obtain ⟨r', seat', hs', -, hstep⟩ := hs.act_take hf htakes
      exact ⟨r', seat', hs', hstep⟩)
    have hfifo := hsat.fifo hlost e' he' seat hseat
    rcases hstep with ⟨hroom, hring⟩ | ⟨hroom, hring⟩
    · rw [hroom] at hfifo ⊢
      rw [inRoom_concat_self, hfifo, hring]
      simp
    · rw [inRoom_concat_ne (Ne.symm hroom), hfifo, hring]
  · intro room' hroom'
    obtain ⟨hgot, htaken⟩ := hsat.absent room' hroom'
    refine ⟨hgot, ?_⟩
    rw [inRoom_concat_ne]
    · exact htaken
    · rintro rfl
      exact hroom' (List.mem_map.mpr ⟨_, he, rfl⟩)

theorem Sat.looked_take (hf : f.Whole) (hsat : Sat f c conn l got taken lost)
    (htakes : f.takes c room (.take c room false) = [p]) {l₁ : List (Nat × Ticket)}
    (hl₁ : ∀ e ∈ l₁, e ∈ l) {rung : Bool} (hlooked : Looked f.rooms rung l₁) :
    Looked (f.act (.take c room false)).rooms rung l₁ := by
  rcases hlooked with hrang | hempty
  · exact .inl hrang
  refine .inr ?_
  intro e he seat' hseat'
  obtain ⟨r, seat, hs, -, hseat⟩ := hsat.sits (hl₁ e he)
  obtain ⟨r', seat₁, hs', -, hstep⟩ := hs.act_take hf htakes
  have heq := seatAt_sits hs'
  rw [hseat'] at heq
  cases heq
  have hnil := hempty e he seat hseat
  rcases hstep with ⟨-, hring⟩ | ⟨-, hring⟩
  · rw [hnil] at hring
    cases hring
  · rw [hring]
    exact hnil

/-- A seat from which nothing can be taken is empty. -/
theorem Sat.takeAt_none (hf : f.Whole) (hsat : Sat f c conn l got taken lost)
    (he : (room, ticket) ∈ l) (htake : f.takeAt room ticket = none) :
    ∀ seat, seatAt f.rooms room ticket.index = some seat → seat.ring.toList = [] := by
  intro seat hseat
  obtain ⟨r, seat₀, hs, hera, hseat₀⟩ := hsat.sits he
  rw [hseat] at hseat₀
  cases hseat₀
  have hwhole := ((hf.rooms room r hs.inRoom).stocked.rings _ _ hs.inSeat).whole
  by_contra hne
  have hpos : seat.ring.count ≠ 0 := by
    rw [hwhole.count_eq]
    exact fun hzero => hne (List.length_eq_zero_iff.mp hzero)
  obtain ⟨q, l', hcons⟩ := hwhole.exists_cons (by omega)
  have hgot : r.take ticket = some (q, { r with
      seats := r.seats.set ticket.index { seat with ring := seat.ring.pop } }) := by
    have hgone : ¬(seat.taken = false ∨ seat.era ≠ ticket.era) := by
      rintro (hfree | hold)
      · rw [hs.taken] at hfree
        cases hfree
      · exact hold hera
    have hfront := hwhole.front_eq hcons
    have hseat' : r.seats[ticket.index]? = some seat := hs.inSeat
    rw [Room.take, hseat']
    dsimp only
    rw [if_neg hgone, if_neg hpos, hfront]
  have hr : f.rooms[room]? = some r := hs.inRoom
  rw [Floor.takeAt, hr] at htake
  dsimp only at htake
  rw [hgot] at htake
  cases htake

end Sat

section Sat

variable {f : Floor} {c : Nat} {conn : Conn} {l : List (Nat × Ticket)}
  {got taken : List (Nat × PostId)} {lost : Bool} {room into : Nat} {lastId : Text.Bytes}

/-- The other seats of a connection that sits down. -/
theorem Floor.Sits.act_sit (hf : f.Whole) {room' i : Nat} {r : Room} {seat : Seat}
    (hs : f.Sits c room' i r seat) :
    ∃ r' seat', (f.sitAfter c room true lastId into).Sits c room' i r' seat' ∧
      Floor.SameSitter True seat seat' ∧ seat'.ring.toList = seat.ring.toList := by
  obtain ⟨r', seat', hs', hsitter, -, hstep⟩ :=
    hs.act hf (a := .sitAfter c room true lastId into) nofun
  refine ⟨r', seat', hs',
    ⟨hsitter.taken, hsitter.waker, hsitter.era, hsitter.textOnly, fun _ => hsitter.next nofun⟩, ?_⟩
  have hnone : f.begins room' (.sitAfter c room true lastId into) = [] ∧
      f.takes c room' (.sitAfter c room true lastId into) = [] := ⟨rfl, rfl⟩
  rw [hnone.1, hnone.2] at hstep
  cases hstep with
  | idle hbox _ _ => exact congrArg Mailbox.queue hbox
  | reached _ hput _ _ _ _ => cases hput
  | passed _ _ heq _ _ _ => rw [heq]
  | closed _ _ heq _ _ _ => rw [heq]

/-- A text stream that sits down has an empty seat more. -/
theorem Sat.sit (hf : f.Whole) (hsat : Sat f c conn l got taken lost)
    (hsits : f.sitAfter c room true lastId into ≠ f) :
    ∃ ticket, Sat (f.sitAfter c room true lastId into) c
      { conn with first := ⟨some room, ticket⟩ } ((room, ticket) :: l) got taken lost := by
  have hf' : (f.sitAfter c room true lastId into).Whole := hf.sitAfter c room true lastId into
  have hstays : Stays f (f.sitAfter c room true lastId into) c l := by
    intro e he r seat hs
    have hsit : ∃ r' seat', (f.sitAfter c room true lastId into).Sits c e.1 e.2.index r' seat' ∧
        Floor.SameSitter True seat seat' ∧ seat'.ring.toList = seat.ring.toList := hs.act_sit hf
    obtain ⟨r', seat', hs', hsitter, -⟩ := hsit
    exact ⟨r', seat', hs', hsitter⟩
  have hchained' := hsat.chained.same fun e he => hsat.sameSeat hstays he
  have hother : ∀ e ∈ l, ∀ seat', seatAt (f.sitAfter c room true lastId into).rooms e.1 e.2.index =
      some seat' → ∃ seat, seatAt f.rooms e.1 e.2.index = some seat ∧
        seat'.textOnly = seat.textOnly ∧ seat'.ring.toList = seat.ring.toList := by
    intro e he seat' hseat'
    obtain ⟨r, seat, hs, -, hseat⟩ := hsat.sits he
    obtain ⟨r', seat₁, hs', hsitter, hring⟩ := hs.act_sit hf
    have heq := seatAt_sits hs'
    rw [hseat'] at heq
    cases heq
    exact ⟨seat, hseat, hsitter.textOnly, hring⟩
  rcases hf.sitAfter_cases c room true lastId into with hsame |
    ⟨conn', l', r, ticket, seat, hconn, hnone, hl, hout, hr, hroster, htake, hseat, hfree, hera, heq⟩
  · exact absurd hsame hsits
  rw [hsat.there] at hconn
  cases hconn
  rw [hl.chained.linked.unique hsat.chained.linked] at hout
  have hnil := ((hf.rooms room r hr).stocked.rings _ _ hseat).free hfree
  have hnew : seatAt (f.sitAfter c room true lastId into).rooms room ticket.index =
      some (Floor.seated r seat c true conn.first) := by
    rw [heq, seatAt]
    dsimp only
    rw [List.getElem?_set_self (List.getElem?_eq_some_iff.mp hr).1]
    simp only [Option.bind_some, Floor.occupied]
    exact List.getElem?_set_self (List.getElem?_eq_some_iff.mp hseat).1
  have hring : (Floor.seated r seat c true conn.first).ring.toList = [] := hnil
  refine ⟨ticket, ?_, hsat.stays, ⟨⟨rfl, _, hnew, hchained'.linked⟩, ?_, ?_⟩, ?_, ?_, ?_⟩
  · rw [heq]
    exact List.getElem?_set_self (List.getElem?_eq_some_iff.mp hsat.there).1
  · rw [List.map_cons, List.nodup_cons]
    exact ⟨hout, hsat.chained.nodup⟩
  · intro e he
    rcases List.mem_cons.mp he with rfl | he
    · exact ⟨_, hnew, rfl, hera.symm, rfl⟩
    · exact hchained'.mine e he
  · intro e he seat' hseat'
    rcases List.mem_cons.mp he with rfl | he
    · rw [hnew] at hseat'
      cases hseat'
      rfl
    · obtain ⟨seat₀, hseat₀, htext, -⟩ := hother e he seat' hseat'
      rw [htext]
      exact hsat.textOnly e he seat₀ hseat₀
  · intro hlost e he seat' hseat'
    rcases List.mem_cons.mp he with rfl | he
    · rw [hnew] at hseat'
      cases hseat'
      obtain ⟨hgot, htaken⟩ := hsat.absent room hout
      rw [hgot, htaken, hring]
      rfl
    · obtain ⟨seat₀, hseat₀, -, hsame⟩ := hother e he seat' hseat'
      rw [hsame]
      exact hsat.fifo hlost e he seat₀ hseat₀
  · intro room' hroom'
    rw [List.map_cons, List.mem_cons, not_or] at hroom'
    exact hsat.absent room' hroom'.2

end Sat

/-! ## A walk over the seats -/

/-- What a walk has found: the seats it has been to are empty, or the bell has rung since. -/
def Found (rooms : List Room) (rung : Bool) (l : List (Nat × Ticket)) : Phase → Prop
  | .walk seating | .took seating _ =>
    ∃ l₁ l₂, l = l₁ ++ l₂ ∧ Linked rooms seating l₂ ∧ Looked rooms rung l₁
  | .idle (some .drained) => Looked rooms rung l
  | _ => True

theorem Sat.found {f f' : Floor} {c : Nat} {conn : Conn} {l : List (Nat × Ticket)}
    {got taken : List (Nat × PostId)} {lost : Bool} (hsat : Sat f c conn l got taken lost)
    {rung rung' : Bool} (hstays : Stays f f' c l)
    (hlooked : ∀ l₁ : List (Nat × Ticket), (∀ e ∈ l₁, e ∈ l) → Looked f.rooms rung l₁ →
      Looked f'.rooms rung' l₁) {phase : Phase} (hfound : Found f.rooms rung l phase) :
    Found f'.rooms rung' l phase := by
  unfold Found at hfound ⊢
  split
  · obtain ⟨l₁, l₂, rfl, hlink, hl₁⟩ := hfound
    exact ⟨l₁, l₂, rfl, hsat.linked hstays rfl hlink,
      hlooked l₁ (fun e he => List.mem_append_left _ he) hl₁⟩
  · obtain ⟨l₁, l₂, rfl, hlink, hl₁⟩ := hfound
    exact ⟨l₁, l₂, rfl, hsat.linked hstays rfl hlink,
      hlooked l₁ (fun e he => List.mem_append_left _ he) hl₁⟩
  · exact hlooked l (fun _ he => he) hfound
  · trivial

namespace Feed

variable {s : Feed}

/-- Before an error or `leave`: the stream sits in its seats, its bell is rung until it first looks,
and its walk has found what it says. -/
structure Seats (s : Feed) : Prop where
  live : s.phase.live = true → ∃ conn l, Sat s.floor s.c conn l s.got s.taken s.lost ∧
    (s.phase = .seating ∨ s.phase = .idle none → conn.rung = true) ∧
    Found s.floor.rooms conn.rung l s.phase

theorem Sat.rung_eq {conn : Conn} {l : List (Nat × Ticket)} {got taken : List (Nat × PostId)}
    {lost : Bool} (hsat : Sat s.floor s.c conn l got taken lost) : s.rung = conn.rung := by
  rw [rung, hsat.there]

theorem Seats.fresh (hs : s.Seats) (hphase : s.phase = .idle none) : s.rung = true := by
  obtain ⟨conn, l, hsat, hfresh, -⟩ := hs.live (by rw [hphase]; rfl)
  rw [Sat.rung_eq hsat]
  exact hfresh (.inr hphase)

/-- A step of the stream's that leaves the floor's rooms and connections as they are. -/
theorem Seats.move (hs : s.Seats) {s' : Feed} (hlive : s.phase.live = true) (hc : s'.c = s.c)
    (hrooms : s'.floor.rooms = s.floor.rooms) (hconns : s'.floor.conns = s.floor.conns)
    (hgot : s'.got = s.got) (htaken : s'.taken = s.taken) (hlost : s'.lost = s.lost)
    (hfresh : s'.phase ≠ .seating ∧ s'.phase ≠ .idle none)
    (hfound : ∀ conn l, Sat s.floor s.c conn l s.got s.taken s.lost →
      Found s.floor.rooms conn.rung l s.phase → Found s.floor.rooms conn.rung l s'.phase) :
    s'.Seats := by
  obtain ⟨conn, l, hsat, -, hold⟩ := hs.live hlive
  refine ⟨fun _ => ⟨conn, l, ?_, ?_, ?_⟩⟩
  · rw [hc, hgot, htaken, hlost]
    have hsame : Sat s'.floor s.c { conn with rung := conn.rung } l s.got s.taken s.lost := by
      refine hsat.same hrooms ?_
      rw [hconns]
      exact hsat.there
    exact hsame
  · rintro (h | h)
    · exact absurd h hfresh.1
    · exact absurd h hfresh.2
  · rw [hrooms]
    exact hfound conn l hsat hold

theorem release_fields (s : Feed) (item : Held) :
    (s.release item).floor.rooms = s.floor.rooms ∧
      (s.release item).floor.conns = s.floor.conns ∧ (s.release item).c = s.c ∧
      (s.release item).got = s.got ∧ (s.release item).taken = s.taken ∧
      (s.release item).lost = s.lost ∧ (s.release item).phase = s.phase := by
  cases item with
  | retry millis => exact ⟨rfl, rfl, rfl, rfl, rfl, rfl, rfl⟩
  | post p =>
    obtain ⟨heap, held, hfloor, -⟩ := s.floor.letGo_fields p
    rw [release, hfloor]
    exact ⟨rfl, rfl, rfl, rfl, rfl, rfl, rfl⟩

theorem Seats.release (hs : s.Seats) (item : Held) : (s.release item).Seats := by
  obtain ⟨hrooms, hconns, hc, hgot, htaken, hlost, hphase⟩ := s.release_fields item
  refine ⟨fun hlive => ?_⟩
  rw [hphase] at hlive
  obtain ⟨conn, l, hsat, hfresh, hfound⟩ := hs.live hlive
  refine ⟨conn, l, ?_, ?_, ?_⟩
  · rw [hc, hgot, htaken, hlost]
    have hsame : Sat (s.release item).floor s.c { conn with rung := conn.rung } l s.got s.taken
        s.lost := by
      refine hsat.same hrooms ?_
      rw [hconns]
      exact hsat.there
    exact hsame
  · rw [hphase]
    exact hfresh
  · rw [hphase, hrooms]
    exact hfound

theorem not_live_seats (hdead : s.phase.live = false) : s.Seats :=
  ⟨fun hlive => by rw [hdead] at hlive; cases hlive⟩

end Feed

namespace Feed

variable {s : Feed} {retryMs : Option Nat}

/-- The held event is written: whatever comes of it, the walk has not begun. -/
theorem Seats.writeHeld (hs : s.Seats) (hlive : s.phase.live = true) (e : Http2Events) (item : Held)
    (t : Turn) : (Feed.writeHeld { s with events := e } item t .owed).Seats := by
  unfold Feed.writeHeld
  dsimp only
  generalize write (item.text s.floor.heap) e.left t = res
  obtain ⟨w, left', bytes⟩ := res
  cases w with
  | failed => exact not_live_seats rfl
  | part =>
    exact hs.move hlive rfl rfl rfl rfl rfl rfl ⟨nofun, nofun⟩ (fun _ _ _ _ => trivial)
  | whole =>
    dsimp only
    refine Seats.release ?_ item
    exact hs.move hlive rfl rfl rfl rfl rfl rfl ⟨nofun, nofun⟩ (fun _ _ _ _ => trivial)

theorem Seats.writeTaken (hs : s.Seats) {seating : Seating} {p : PostId}
    (hphase : s.phase = .took seating p) (t : Turn) : (s.writeTaken seating p t).Seats := by
  have hlive : s.phase.live = true := by
    rw [hphase]
    rfl
  unfold Feed.writeTaken
  dsimp only
  generalize write ((Held.post p).text s.floor.heap) s.events.left t = res
  obtain ⟨w, left', bytes⟩ := res
  cases w with
  | failed =>
    dsimp only
    exact Seats.release (not_live_seats rfl) _
  | part =>
    dsimp only
    refine Seats.release ?_ _
    exact hs.move hlive rfl rfl rfl rfl rfl rfl ⟨nofun, nofun⟩ (fun _ _ _ _ => trivial)
  | whole =>
    dsimp only
    refine Seats.release ?_ _
    refine hs.move hlive rfl rfl rfl rfl rfl rfl ⟨nofun, nofun⟩ ?_
    intro conn l _ hfound
    rw [hphase] at hfound
    exact hfound

/-- A walk at a seating that is a room is at the first of the seats left. -/
theorem linked_cons {rooms : List Room} {seating : Seating} {room : Nat} {l : List (Nat × Ticket)}
    (hlink : Linked rooms seating l) (hroom : seating.room = some room) :
    ∃ l' seat, l = (room, seating.ticket) :: l' ∧
      seatAt rooms room seating.ticket.index = some seat ∧ Linked rooms seat.next l' := by
  cases l with
  | nil =>
    have hnone : seating.room = none := hlink
    rw [hroom] at hnone
    cases hnone
  | cons e l' =>
    obtain ⟨rfl, seat, hseat, hrest⟩ := hlink
    cases hroom
    exact ⟨l', seat, rfl, hseat, hrest⟩

theorem Seats.go (hs : s.Seats) (hk : s.Keeps) (t : Turn) : (s.go t).Seats := by
  have hwhole := hk.owns.whole
  generalize hs' : s.go t = s'
  have hgo : GoStep s t s' := hs' ▸ s.go_cases t
  cases hgo with
  | rest => exact hs
  | past hphase _ =>
    exact hs.move (by rw [hphase]; rfl) rfl rfl rfl rfl rfl rfl ⟨nofun, nofun⟩
      (fun _ _ _ _ => trivial)
  | write item e hitem =>
    refine hs.writeHeld ?_ e item t
    rcases hitem with ⟨hphase, -⟩ | ⟨_, hphase, -⟩
    · rw [hphase]
      rfl
    · rw [hphase]
      rfl
  | first conn hphase _ hconn =>
    refine hs.move (by rw [hphase]; rfl) rfl rfl rfl rfl rfl rfl ⟨nofun, nofun⟩ ?_
    intro conn' l hsat _
    rw [hsat.there] at hconn
    cases hconn
    exact ⟨[], l, rfl, hsat.chained.linked, .inr nofun⟩
  | drained seating hphase hroom =>
    refine hs.move (by rw [hphase]; rfl) rfl rfl rfl rfl rfl rfl ⟨nofun, nofun⟩ ?_
    intro conn l hsat hfound
    rw [hphase] at hfound
    obtain ⟨l₁, l₂, hl, hlink, hlooked⟩ := hfound
    cases l₂ with
    | nil =>
      rw [List.append_nil] at hl
      rw [hl]
      exact hlooked
    | cons e l₂ =>
      obtain ⟨rfl, -⟩ := hlink
      cases hroom
  | next seating room hphase hroom htake =>
    refine hs.move (by rw [hphase]; rfl) rfl rfl rfl rfl rfl rfl ⟨nofun, nofun⟩ ?_
    intro conn l hsat hfound
    rw [hphase] at hfound
    obtain ⟨l₁, l₂, rfl, hlink, hlooked⟩ := hfound
    obtain ⟨l₂', seat, rfl, hseat, hrest⟩ := linked_cons hlink hroom
    refine ⟨l₁ ++ [(room, seating.ticket)], l₂', by simp, ?_, ?_⟩
    · rw [after_eq hseat]
      exact hrest
    · rcases hlooked with hrang | hempty
      · exact .inl hrang
      · refine .inr ?_
        intro e he
        rcases List.mem_append.mp he with he | he
        · exact hempty e he
        · rw [List.mem_singleton] at he
          rw [he]
          exact hsat.takeAt_none hwhole (by simp) htake
  | take seating room p f hphase hroom htake =>
    obtain ⟨conn, l, hsat, -, hfound⟩ := hs.live (by rw [hphase]; rfl)
    rw [hphase] at hfound
    obtain ⟨l₁, l₂, rfl, hlink, hlooked⟩ := hfound
    obtain ⟨l₂', seat, rfl, hseat, hrest⟩ := linked_cons hlink hroom
    have hin : (room, seating.ticket) ∈ l₁ ++ (room, seating.ticket) :: l₂' := by simp
    obtain ⟨rfl, htakes⟩ := hsat.takeAt_act hin htake
    have hconn : (s.floor.act (.take s.c room false)).conns[s.c]? = some conn := by
      rcases s.floor.take_cases s.c room false with ⟨heq, _⟩ | ⟨_, _, _, _, heq⟩
      · rw [Floor.act, heq]
        exact hsat.there
      · rw [Floor.act, heq]
        exact hsat.there
    refine ⟨fun _ => ⟨conn, _, hsat.take hwhole hin htakes hconn, ?_, ?_⟩⟩
    · rintro (h | h) <;> cases h
    · refine ⟨l₁, _, rfl, hsat.linked (Sat.stays_take hwhole htakes) rfl hlink, ?_⟩
      exact hsat.looked_take hwhole htakes (fun e he => List.mem_append_left _ he) hlooked
  | taken seating p hphase => exact hs.writeTaken hphase t
  | giveUp hphase => exact not_live_seats (by rw [hphase]; rfl)
  | unlink room hphase => exact not_live_seats (by rw [hphase]; rfl)
  | stood hphase => exact not_live_seats rfl
  | letGoNone s' hphase _ heq =>
    subst heq
    exact not_live_seats rfl
  | letGoHeld s' item hphase _ heq =>
    subst heq
    exact Seats.release (not_live_seats rfl) item
  | letGoReplay p replays hphase _ =>
    refine Seats.release (not_live_seats ?_) _
    rw [hphase]
    rfl
  | gone hphase _ => exact not_live_seats rfl

theorem Seats.other (hs : s.Seats) (hk : s.Keeps) {a : Act} (ha : a.isOf s.c = false) :
    Seats { s with
      floor := s.floor.act a
      got := gets s.got (s.floor.comes s.c a)
      lost := loses s.lost (s.floor.comes s.c a) } := by
  have hwhole := hk.owns.whole
  refine ⟨fun hlive => ?_⟩
  obtain ⟨conn, l, hsat, hfresh, hfound⟩ := hs.live hlive
  obtain ⟨rung, hconn, hrung⟩ := Floor.act_conn_other hwhole hsat.there ha
  refine ⟨_, l, hsat.other hwhole ha hconn, ?_, ?_⟩
  · intro hphase
    exact hrung (hfresh hphase)
  · refine hsat.found (Sat.stays_other hwhole ha) ?_ hfound
    intro l₁ hl₁ hlooked
    exact hsat.looked_other hwhole ha hconn hrung hl₁ hlooked

theorem Seats.call (hs : s.Seats) (hw : s.Writes retryMs) : s.call.Seats := by
  rcases s.call_cases with heq | ⟨last, hphase, hcall⟩
  · rw [heq]
    exact hs
  obtain ⟨conn, l, hsat, hfresh, hfound⟩ := hs.live (by rw [hphase]; rfl)
  have hlook : Sat (s.floor.look s.c) s.c { conn with rung := false } l s.got s.taken s.lost := by
    have hrooms : (s.floor.look s.c).rooms = s.floor.rooms := rfl
    refine hsat.same hrooms ?_
    rw [Floor.look]
    dsimp only
    rw [List.getElem?_modify_eq, hsat.there]
    rfl
  rcases hcall with ⟨hquiet, hheld, heq⟩ | heq
  · rw [heq]
    refine ⟨fun _ => ⟨_, l, hlook, ?_, ?_⟩⟩
    · rintro (h | h) <;> cases h
    · -- the bell is as the last look left it, and that found every seat empty
      rw [Sat.rung_eq hsat] at hquiet
      rw [hphase] at hfound
      cases last with
      | none =>
        rw [hfresh (.inr hphase)] at hquiet
        cases hquiet
      | some outcome =>
        cases outcome with
        | blocked => exact absurd hheld (hw.blocked hphase)
        | drained =>
          rcases hfound with hrang | hempty
          · rw [hquiet] at hrang
            cases hrang
          · exact .inr hempty
  · rw [heq]
    refine ⟨fun _ => ⟨_, l, hlook, ?_, trivial⟩⟩
    rintro (h | h) <;> cases h

theorem Seats.step (hs : s.Seats) (hk : s.Keeps) (hw : s.Writes retryMs) (ev : Ev) :
    (s.step ev).Seats := by
  have hwhole := hk.owns.whole
  cases ev with
  | other a =>
    rcases s.other_cases a with heq | ⟨ha, _, ⟨hcomes, heq⟩ | ⟨room, p, full, hcomes, heq⟩⟩
    · rw [Feed.step, heq]
      exact hs
    · have hother := hs.other hk ha
      rw [hcomes] at hother
      rw [Feed.step, heq]
      exact hother
    · have hother := hs.other hk ha
      rw [hcomes] at hother
      rw [Feed.step, heq]
      exact hother
  | sit room lastId into =>
    rcases sit_cases hwhole room lastId into with heq | ⟨posts, hphase, hsits, _, heq⟩
    · rw [Feed.step, heq]
      exact hs
    · rw [Feed.step, heq]
      obtain ⟨conn, l, hsat, hfresh, -⟩ := hs.live (by rw [hphase]; rfl)
      obtain ⟨ticket, hsit⟩ := hsat.sit hwhole hsits
      refine ⟨fun _ => ⟨_, _, hsit, ?_, ?_⟩⟩
      · intro _
        exact hfresh (.inl hphase)
      · dsimp only
        rw [hphase]
        trivial
  | handOver =>
    rw [Feed.step]
    split_ifs with hphase
    · obtain ⟨conn, l, hsat, hfresh, -⟩ := hs.live (by rw [hphase]; rfl)
      exact ⟨fun _ => ⟨conn, l, hsat, fun _ => hfresh (.inl hphase), trivial⟩⟩
    · exact hs
  | call => exact hs.call hw
  | go t => exact hs.go hk t
  | leave =>
    rcases s.leave_cases with heq | ⟨_, heq⟩
    · rw [Feed.step, heq]
      exact hs
    · rw [Feed.step, heq]
      exact not_live_seats rfl

end Feed

/-! ## Whole runs -/

namespace Feed

variable {s : Feed} {retryMs : Option Nat}

theorem run_invariants (hk : s.Keeps) (hw : s.Writes retryMs) (hs : s.Seats) (evs : List Ev) :
    (s.run evs).Keeps ∧ (s.run evs).Writes retryMs ∧ (s.run evs).Seats := by
  induction evs generalizing s with
  | nil => exact ⟨hk, hw, hs⟩
  | cons ev evs ih => exact ih (hk.step ev) (hw.step hk hs.fresh ev) (hs.step hk hw ev)

theorem start_writes (rooms : List Options) (conns c : Nat) (retryMs : Option Nat) :
    (start rooms conns c retryMs).Writes retryMs := by
  refine ⟨by simp [start], List.nil_prefix, ?_, nofun, fun _ => ⟨rfl, rfl⟩, nofun⟩
  intro _
  refine ⟨[], [], ?_, rfl, fun _ => ⟨rfl, rfl⟩, ?_⟩
  · simp [script, start, current, Phase.refs, Http2Events.owed]
  · intro item hitem
    cases hitem

theorem start_seats (rooms : List Options) {conns c : Nat} (hc : c < conns)
    (retryMs : Option Nat) : (start rooms conns c retryMs).Seats := by
  have hconn : (start rooms conns c retryMs).floor.conns[c]? = some ⟨.nowhere, none, true⟩ := by
    simp [start, Floor.start, Floor.ring, hc]
  refine ⟨fun _ => ⟨⟨.nowhere, none, true⟩, [], ⟨hconn, rfl,
    ⟨rfl, by simp, fun e he => absurd he List.not_mem_nil⟩,
    fun e he => absurd he List.not_mem_nil, fun _ e he => absurd he List.not_mem_nil, ?_⟩,
    fun _ => rfl, trivial⟩⟩
  intro room _
  exact ⟨rfl, rfl⟩

/-- In any run: the bytes of a stream are a prefix of its retry line, what the rooms had kept for it
and what it took from its seats, each formatted whole; what came to a seat is what was taken from
it and what is still there; after a `step` that returned `drained`, while the bell is down, all of it
is written and nothing that came is left; and of the references the stream came by, each is let go
once or held still, and none is left when it is gone. -/
theorem run_feed (rooms : List Options) (hbacklog : ∀ o ∈ rooms, 0 < o.backlog) (conns c : Nat)
    (hc : c < conns) (retryMs : Option Nat) (evs : List Ev) :
    let s := (start rooms conns c retryMs).run evs
    s.wire <+: (s.script retryMs).flatMap (Held.text s.floor.heap) ∧
    (s.phase.live = true → s.lost = false → ∀ room i r seat, s.floor.Sits s.c room i r seat →
      inRoom room s.got = inRoom room s.taken ++ seat.ring.toList) ∧
    (s.phase = .idle (some .drained) → s.rung = false →
      s.wire = (s.script retryMs).flatMap (Held.text s.floor.heap) ∧
      (s.lost = false → ∀ room, inRoom room s.got = inRoom room s.taken)) ∧
    (∀ q, s.gained.count q = s.released.count q + s.refs.count q) ∧
    (∀ q ∈ s.refs, 0 < s.floor.heap.refs q) ∧
    (s.phase = .gone → s.released.Perm s.gained) := by
  intro s
  obtain ⟨hk, hw, hs⟩ : s.Keeps ∧ s.Writes retryMs ∧ s.Seats :=
    run_invariants (start_keeps rooms hbacklog conns c retryMs)
      (start_writes rooms conns c retryMs) (start_seats rooms hc retryMs) evs
  have hwhole := hk.owns.whole
  refine ⟨hw.cut, ?_, ?_, hk.owns.balance, ?_, ?_⟩
  · intro hlive hlost room i r seat hsits
    obtain ⟨conn, l, hsat, -, -⟩ := hs.live hlive
    have hin := hsat.mem hwhole (seatAt_sits hsits) hsits.taken hsits.waker
    exact hsat.fifo hlost _ hin seat (seatAt_sits hsits)
  · intro hphase hquiet
    obtain ⟨howed, hnone⟩ := hw.walks (by rw [hphase]; rfl)
    have hscript := hw.quiet (by rw [hphase]; rfl) (by rw [hphase]; rfl)
    rw [howed, hnone] at hscript
    obtain ⟨done, out, hdone, hwire, hout, -⟩ := hscript.parts
    refine ⟨?_, ?_⟩
    · rw [hwire, (hout rfl).1, hdone]
      simp
    · intro hlost room
      obtain ⟨conn, l, hsat, -, hfound⟩ := hs.live (by rw [hphase]; rfl)
      rw [hphase] at hfound
      by_cases hroom : room ∈ l.map (·.1)
      · obtain ⟨e, he, rfl⟩ := List.mem_map.mp hroom
        obtain ⟨r, seat, -, -, hseat⟩ := hsat.sits he
        rw [hsat.fifo hlost e he seat hseat]
        rcases hfound with hrang | hempty
        · rw [← Sat.rung_eq hsat, hquiet] at hrang
          cases hrang
        · rw [hempty e he seat hseat, List.append_nil]
      · obtain ⟨hgot, htaken⟩ := hsat.absent room hroom
        rw [hgot, htaken]
  · intro q hq
    rw [hwhole.counted]
    have hheld := hk.owns.mem_held hq
    exact List.count_pos_iff.mpr (List.mem_append_right _ (List.mem_append_right _ hheld))
  · intro hphase
    have hrefs : s.refs = [] := by
      have hnone := hk.past (by rw [hphase]; rfl)
      simp [Feed.refs, Phase.refs, Http2Events.refs, hphase, hnone, hk.gone hphase]
    rw [List.perm_iff_count]
    intro q
    have hbalance := hk.owns.balance q
    rw [hrefs, List.count_nil] at hbalance
    omega

/-- A stream comes back to a room that kept a post for it: a byte at first, then the rest; a post
comes while it walks its seats, and it leaves in the middle of it. -/
def comesBack : List Ev :=
  let all : Turn := ⟨100, 100, none⟩
  let few : Turn := ⟨3, 3, none⟩
  [.other (.event 0 [] [49] [97]), .other (.handOut 0), .other (.close 0),
    .other (.event 0 [] [50] [98]), .other (.handOut 0), .other (.close 0), .sit 0 [49] 2, .handOver,
    .call, .go few, .go few, .call, .go all, .go all, .go all, .go all, .go all]

def thenMore : List Ev :=
  let all : Turn := ⟨100, 100, none⟩
  let few : Turn := ⟨3, 3, none⟩
  [.other (.event 0 [] [] [99, 10, 100]), .other (.handOut 0), .other (.put 0 false),
    .other (.close 0), .call, .go all, .go all, .go all, .go few, .leave, .go all, .go all, .go all,
    .go all, .go all]

theorem run_feed_back :
    let s := (start [⟨1, 1, 2, 100, .dropOldest⟩] 1 0 none).run comesBack
    let s' := s.run thenMore
    s.phase = .idle (some .drained) ∧ s.wire = [105, 100, 58, 32, 50, 10, 100, 97, 116, 97, 58, 32, 98,
      10, 10] ∧ s'.phase = .gone ∧ s'.released = [1, 2, 2] ∧
    s'.released.Perm s'.gained := by
  intro s s'
  have hrun := run_feed [⟨1, 1, 2, 100, .dropOldest⟩] (by simp) 1 0 (by decide) none
    (comesBack ++ thenMore)
  have hs' : (start [⟨1, 1, 2, 100, .dropOldest⟩] 1 0 none).run (comesBack ++ thenMore) = s' :=
    List.foldl_append
  rw [hs'] at hrun
  have hgone : s'.phase = .gone := by decide
  exact ⟨by decide, by decide, hgone, by decide, hrun.2.2.2.2.2 hgone⟩

end Feed

end Nilo.Rooms
