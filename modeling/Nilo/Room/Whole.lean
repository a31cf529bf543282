import Nilo.Room.Chain
import Nilo.Room.Floor

/-!
# What holds of every room between two steps

The roll of every room, its rings and what it keeps, the chain of every connection, and the
references of every post: `Whole` is all of it at once, and every step keeps it (`Whole.act`).
-/

namespace Nilo.Rooms

open Heap (Trade Covers)

/-! ## Rooms, chains and references -/

/-- What holds of one room. -/
structure Room.Sound (h : Heap) (r : Room) : Prop where
  rolled : r.Rolled
  stocked : r.Stocked h
  roster : ∀ p place, r.roster = some (p, place) → place ≤ r.here

def RoomsSound (rooms : List Room) (h : Heap) : Prop :=
  ∀ (room : Nat) (r : Room), rooms[room]? = some r → r.Sound h

/-- Every seat with a connection's bell is on its chain, or is the one it is giving up. -/
def Owned (rooms : List Room) (c : Nat) (l : List (Nat × Ticket))
    (leaving : Option (Nat × Ticket)) : Prop :=
  ∀ (room i : Nat) (seat : Seat), seatAt rooms room i = some seat → seat.taken = true →
    seat.waker = some c →
    (room, ⟨i, seat.era⟩) ∈ l ∨ leaving = some (room, ⟨i, seat.era⟩)

/-- What holds of one connection: its chain, and the seat it is giving up. -/
structure Settled (rooms : List Room) (c : Nat) (conn : Conn) (l : List (Nat × Ticket)) :
    Prop where
  chained : Chained rooms c conn.first l
  leaving : ∀ e, conn.leaving = some e → Mine rooms c e ∧ e.1 ∉ l.map (·.1)
  owned : Owned rooms c l conn.leaving

def ConnsSound (rooms : List Room) (conns : List Conn) : Prop :=
  ∀ (c : Nat) (conn : Conn), conns[c]? = some conn → ∃ l, Settled rooms c conn l

namespace Floor

/-- Every reference there is. -/
def holding (f : Floor) : List PostId :=
  f.rooms.flatMap Room.holding ++ (f.waiting.map (·.2) ++ f.held)

structure Whole (f : Floor) : Prop where
  rooms : RoomsSound f.rooms f.heap
  conns : ConnsSound f.rooms f.conns
  counted : ∀ q, f.heap.refs q = f.holding.count q
  tidy : f.heap.Tidy

end Floor

section Parts

variable {rooms rooms' : List Room} {conns : List Conn} {h h' : Heap} {r r' : Room}
  {c room : Nat} {conn : Conn} {l : List (Nat × Ticket)}

theorem RoomsSound.set (hs : RoomsSound rooms h) (hposts : h'.posts = h.posts)
    (hr' : r'.Sound h') : RoomsSound (rooms.set room r') h' := by
  intro j s hj
  rcases Lib.of_getElem?_set hj with ⟨_, rfl⟩ | ⟨_, hj⟩
  · exact hr'
  · obtain ⟨hrolled, hstocked, hroster⟩ := hs j s hj
    exact ⟨hrolled, hstocked.congr hposts, hroster⟩

/-- The seats that were taken, after an operation on a room. -/
def Room.Forth (r r' : Room) : Prop :=
  ∀ (i : Nat) (seat : Seat), r.seats[i]? = some seat → seat.taken = true →
    ∃ seat', r'.seats[i]? = some seat' ∧ seat'.taken = true ∧ seat'.era = seat.era ∧
      seat'.waker = seat.waker ∧ seat'.next = seat.next

/-- The seats that are taken, before it. -/
def Room.Back (r r' : Room) : Prop :=
  ∀ (i : Nat) (seat' : Seat), r'.seats[i]? = some seat' → seat'.taken = true →
    ∃ seat, r.seats[i]? = some seat ∧ seat.taken = true ∧ seat.era = seat'.era ∧
      seat.waker = seat'.waker

/-- An operation that changes neither who sits where nor where a chain goes on. -/
structure Room.Steady (r r' : Room) : Prop where
  forth : r.Forth r'
  back : r.Back r'

theorem Room.Steady.of_seats_eq (hseats : r'.seats = r.seats) : r.Steady r' := by
  refine ⟨?_, ?_⟩
  · intro i seat hi htaken
    exact ⟨seat, by rw [hseats]; exact hi, htaken, rfl, rfl, rfl⟩
  · intro i seat hi htaken
    exact ⟨seat, by rw [← hseats]; exact hi, htaken, rfl, rfl⟩

theorem Room.Steady.set_seat {i : Nat} {seat seat' : Seat} (hi : r.seats[i]? = some seat)
    (hseats : r'.seats = r.seats.set i seat') (htaken : seat'.taken = seat.taken)
    (hera : seat'.era = seat.era) (hwaker : seat'.waker = seat.waker)
    (hnext : seat'.next = seat.next) : r.Steady r' := by
  refine ⟨?_, ?_⟩
  · intro j s hj hs
    rw [hseats, List.getElem?_set]
    split_ifs with hij hlt
    · subst hij
      rw [hi] at hj
      cases hj
      exact ⟨seat', rfl, htaken.trans hs, hera, hwaker, hnext⟩
    · subst hij
      exact absurd (List.getElem?_eq_some_iff.mp hi).1 hlt
    · exact ⟨s, hj, hs, rfl, rfl, rfl⟩
  · intro j s hj hs
    rw [hseats] at hj
    rcases Lib.of_getElem?_set hj with ⟨rfl, rfl⟩ | ⟨_, hj⟩
    · exact ⟨seat, hi, htaken ▸ hs, hera.symm, hwaker.symm⟩
    · exact ⟨s, hj, hs, rfl, rfl⟩

theorem sameSeat_set (hr : rooms[room]? = some r) (hforth : r.Forth r') (e : Nat × Ticket) :
    SameSeat rooms (rooms.set room r') e := by
  intro seat hseat htaken
  rw [seatAt, Option.bind_eq_some_iff] at hseat
  obtain ⟨r₀, hr₀, hs⟩ := hseat
  rw [seatAt, List.getElem?_set]
  split_ifs with heq hlt
  · rw [← heq, hr] at hr₀
    cases hr₀
    exact hforth _ seat hs htaken
  · rw [heq] at hr
    rw [heq] at hlt
    exact absurd (List.getElem?_eq_some_iff.mp hr₀).1 hlt
  · exact ⟨seat, by rw [hr₀]; exact hs, htaken, rfl, rfl, rfl⟩

/-- No connection sits where it did not. -/
def OldSeats (rooms rooms' : List Room) (c : Nat) : Prop :=
  ∀ (room i : Nat) (seat' : Seat), seatAt rooms' room i = some seat' → seat'.taken = true →
    seat'.waker = some c →
    ∃ seat, seatAt rooms room i = some seat ∧ seat.taken = true ∧ seat.era = seat'.era ∧
      seat.waker = some c

theorem oldSeats_set (hr : rooms[room]? = some r) (hback : r.Back r') (c : Nat) :
    OldSeats rooms (rooms.set room r') c := by
  intro room' i seat' hseat' htaken hwaker
  rw [seatAt, Option.bind_eq_some_iff] at hseat'
  obtain ⟨r₁, hr₁, hs⟩ := hseat'
  rcases Lib.of_getElem?_set hr₁ with ⟨rfl, rfl⟩ | ⟨_, hr₁⟩
  · obtain ⟨seat, hseat, ht, hera, hw⟩ := hback i seat' hs htaken
    exact ⟨seat, by rw [seatAt, hr]; exact hseat, ht, hera, hw.trans hwaker⟩
  · exact ⟨seat', by rw [seatAt, hr₁]; exact hs, htaken, rfl, hwaker⟩

theorem Owned.old {leaving : Option (Nat × Ticket)} (hs : Owned rooms c l leaving)
    (hold : OldSeats rooms rooms' c) : Owned rooms' c l leaving := by
  intro room i seat' hseat' htaken hwaker
  obtain ⟨seat, hseat, ht, hera, hw⟩ := hold room i seat' hseat' htaken hwaker
  rw [← hera]
  exact hs room i seat hseat ht hw

theorem Settled.same (hs : Settled rooms c conn l) (hsame : ∀ e, SameSeat rooms rooms' e)
    (hold : OldSeats rooms rooms' c) : Settled rooms' c conn l := by
  refine ⟨hs.chained.same fun e _ => hsame e, ?_, hs.owned.old hold⟩
  intro e he
  obtain ⟨hmine, hout⟩ := hs.leaving e he
  exact ⟨hmine.same (hsame e), hout⟩

theorem ConnsSound.set (hs : ConnsSound rooms conns) (hr : rooms[room]? = some r)
    (hsteady : r.Steady r') : ConnsSound (rooms.set room r') conns := by
  intro c conn hc
  obtain ⟨l, hl⟩ := hs c conn hc
  exact ⟨l, hl.same (sameSeat_set hr hsteady.forth) (oldSeats_set hr hsteady.back c)⟩

theorem ConnsSound.rung (hs : ConnsSound rooms conns) (c : Nat) (rung : Bool) :
    ConnsSound rooms (conns.modify c fun conn => { conn with rung := rung }) := by
  intro c' conn hc
  obtain ⟨conn₀, hc₀, rfl⟩ := Lib.of_getElem?_modify hc
  obtain ⟨l, hl⟩ := hs c' conn₀ hc₀
  refine ⟨l, ?_⟩
  split_ifs
  · exact ⟨hl.chained, hl.leaving, hl.owned⟩
  · exact hl

end Parts

namespace Floor

variable {f : Floor} {room : Nat} {r r' : Room} {h' : Heap}

/-- What a room holds is counted. -/
theorem Whole.covers (hf : f.Whole) (hr : f.rooms[room]? = some r) : f.heap.Covers r.holding := by
  intro q
  rw [hf.counted, holding, List.count_append]
  have hle : r.holding.count q ≤ (f.rooms.flatMap Room.holding).count q := by
    rw [Lib.split_at hr]
    simp only [List.flatMap_append, List.flatMap_cons, List.count_append]
    omega
  omega

/-- The references after a trade, by what is held more and less. -/
theorem counted_trade {l l' H H' : List PostId} {h h' : Heap}
    (hcounted : ∀ q, h.refs q = H.count q) (htrade : Trade h h' l l')
    (hmove : ∀ q, H'.count q + l.count q = H.count q + l'.count q) :
    ∀ q, h'.refs q = H'.count q := by
  intro q
  have hq := htrade.refs q
  have hm := hmove q
  have hc := hcounted q
  omega

/-- What is held in all once one room holds something else. -/
theorem count_holding_set (hr : f.rooms[room]? = some r) (r' : Room) (q : PostId) :
    ((f.rooms.set room r').flatMap Room.holding).count q + r.holding.count q =
      (f.rooms.flatMap Room.holding).count q + r'.holding.count q :=
  Lib.count_flatMap_set hr q

end Floor

/-! ## The steps -/

namespace Floor

variable {f : Floor} {room : Nat} {r r' : Room} {h' : Heap}

/-- A step that changes one room and the heap, and lets references go to callers or come from
them. -/
theorem Whole.step_room (hf : f.Whole) (hr : f.rooms[room]? = some r) {waiting : List (Nat × PostId)}
    {held : List PostId} (l l' : List PostId) (hsound : r'.Sound h') (hsteady : r.Steady r')
    (htrade : Trade f.heap h' l l')
    (hmove : ∀ q, r'.holding.count q + (waiting.map (·.2)).count q + held.count q + l.count q =
      r.holding.count q + (f.waiting.map (·.2)).count q + f.held.count q + l'.count q) :
    Whole { f with
      rooms := f.rooms.set room r', heap := h', waiting := waiting, held := held } := by
  refine ⟨hf.rooms.set htrade.posts hsound, hf.conns.set hr hsteady, ?_,
    htrade.tidy hf.tidy⟩
  refine counted_trade hf.counted htrade ?_
  intro q
  have hset := count_holding_set hr r' q
  have hq := hmove q
  simp only [holding, List.count_append]
  omega

/-- The seats of a room whose roster changes hands. -/
theorem Whole.rosterOf (hf : f.Whole) (hr : f.rooms[room]? = some r)
    {roster : Option (PostId × Nat)} (hroster : ∀ p place, roster = some (p, place) → place ≤ r.here) :
    Room.Sound f.heap { r with roster := roster } := by
  obtain ⟨hrolled, hstocked, _⟩ := hf.rooms room r hr
  refine ⟨⟨hrolled.perm, hrolled.here_le, hrolled.taken, hrolled.slot⟩, ?_, hroster⟩
  exact ⟨hstocked.backlog_pos, hstocked.rings, ⟨hstocked.hoard.whole, hstocked.hoard.bytes⟩,
    hstocked.limit⟩

theorem Whole.ring (hf : f.Whole) (waker : Option Nat) : (f.ring waker).Whole := by
  unfold Floor.ring
  split
  · exact hf
  · exact ⟨hf.rooms, hf.conns.rung _ _, hf.counted, hf.tidy⟩

theorem Whole.look (hf : f.Whole) (c : Nat) : (f.look c).Whole :=
  ⟨hf.rooms, hf.conns.rung _ _, hf.counted, hf.tidy⟩

/-- Taking one of a list out. -/
theorem count_eraseIdx {α β : Type} [DecidableEq β] {l : List α} {k : Nat} {a : α} {w : α → β}
    (hk : l[k]? = some a) (q : β) :
    ((l.eraseIdx k).map w).count q + [w a].count q = (l.map w).count q := by
  have hl : (l.map w).count q =
      ((l.take k).map w).count q + ([w a].count q + ((l.drop (k + 1)).map w).count q) := by
    conv_lhs => rw [Lib.split_at hk]
    simp [List.count_append, List.count_cons]
    omega
  rw [List.eraseIdx_eq_take_drop_succ, hl]
  simp only [List.map_append, List.count_append]
  omega

theorem Whole.handOut (hf : f.Whole) (k : Nat) : (f.handOut k).Whole := by
  unfold Floor.handOut
  split
  · exact hf
  · rename_i room p hk
    split
    · exact hf
    · rename_i r hr
      split_ifs with hfree
      · exact hf
      · have hnone : r.roster = none := by simpa using hfree
        refine hf.step_room hr [] [] (hf.rosterOf hr ?_) (.of_seats_eq rfl)
          (.refl _ _) ?_
        · rintro q place heq
          cases heq
          exact Nat.zero_le _
        · intro q
          have hgone := count_eraseIdx (w := (·.2)) hk q
          dsimp only at hgone
          simp only [Room.holding, Room.inSeats, Room.inHand, hnone, List.count_append]
          simp only [Option.map_none, Option.map_some, Option.toList_none, Option.toList_some,
            List.count_nil]
          omega

theorem Whole.cancel (hf : f.Whole) (k : Nat) : (f.cancel k).Whole := by
  unfold Floor.cancel
  split
  · exact hf
  · rename_i room p hk
    refine ⟨hf.rooms, hf.conns, ?_, hf.tidy⟩
    intro q
    have hgone := count_eraseIdx (w := (·.2)) hk q
    have hq := hf.counted q
    simp only [holding, List.count_append, List.count_cons, List.count_nil] at hq hgone ⊢
    omega

theorem Whole.release (hf : f.Whole) (k : Nat) : (f.release k).Whole := by
  unfold Floor.release
  split
  · exact hf
  · rename_i p hk
    have hpos : 0 < f.heap.refs p := by
      have hmem : p ∈ f.holding := by
        refine List.mem_append_right _ (List.mem_append_right _ ?_)
        exact List.mem_of_getElem? hk
      rw [hf.counted]
      exact List.count_pos_iff.mpr hmem
    have htrade := Heap.trade_release hpos
    refine ⟨?_, hf.conns, ?_, htrade.tidy hf.tidy⟩
    · intro room r hr
      obtain ⟨hrolled, hstocked, hroster⟩ := hf.rooms room r hr
      exact ⟨hrolled, hstocked.congr htrade.posts, hroster⟩
    · refine counted_trade hf.counted htrade ?_
      intro q
      have hgone := count_eraseIdx (w := id) hk q
      simp only [List.map_id, id_eq] at hgone
      simp only [holding, List.count_append, List.count_nil]
      omega

/-- What a broadcast does next: the post goes to the seat at its place on the roll. -/
theorem put_cases (f : Floor) (room : Nat) (canceled : Bool) :
    f.put room canceled = f ∨
    ∃ r p place index, f.rooms[room]? = some r ∧ r.roster = some (p, place) ∧ place < r.here ∧
      r.roll[place]? = some index ∧
      (canceled = true ∧ f.put room canceled =
          { f with rooms := f.rooms.set room { r with roster := some (p, place + 1) } } ∨
        canceled = false ∧ f.put room canceled =
          Floor.ring { f with
            rooms := f.rooms.set room { (r.putAt f.heap index p).2 with
              roster := some (p, place + 1) }
            heap := (r.putAt f.heap index p).1 } (f.bell r index p)) := by
  unfold put
  split
  · exact .inl rfl
  · rename_i r hr
    split
    · exact .inl rfl
    · rename_i p place hroster
      by_cases hlt : place < r.here
      · rw [if_pos hlt]
        split
        · exact .inl rfl
        · rename_i index hindex
          refine .inr ⟨r, p, place, index, hr, hroster, hlt, hindex, ?_⟩
          cases canceled
          · exact .inr ⟨rfl, rfl⟩
          · exact .inl ⟨rfl, rfl⟩
      · rw [if_neg hlt]
        exact .inl rfl

/-- A room after a broadcast went to one more of its seats. -/
theorem Whole.putAt_sound (hf : f.Whole) (hr : f.rooms[room]? = some r) {p : PostId}
    {place index : Nat} (hroster : r.roster = some (p, place)) (hlt : place < r.here)
    (hindex : r.roll[place]? = some index) :
    ∃ seat, r.seats[index]? = some seat ∧ seat.taken = true ∧
      Room.Sound (r.putAt f.heap index p).1
        { (r.putAt f.heap index p).2 with roster := some (p, place + 1) } ∧
      r.Steady { (r.putAt f.heap index p).2 with roster := some (p, place + 1) } ∧
      Trade f.heap (r.putAt f.heap index p).1 r.holding (r.putAt f.heap index p).2.holding := by
  obtain ⟨hrolled, hstocked, _⟩ := hf.rooms room r hr
  obtain ⟨seat, hseat⟩ := hrolled.exists_seat hindex
  have htaken : seat.taken = true := (hrolled.taken place index seat hindex hseat).mpr hlt
  have hinHand : r.inHand = [p] := by simp [Room.inHand, hroster]
  obtain ⟨htrade, hstocked'⟩ := Room.putAt_spec hstocked (hf.covers hr) hinHand hseat htaken
  refine ⟨seat, hseat, htaken, ⟨?_, ?_, ?_⟩, ?_, htrade⟩
  · obtain ⟨ring, dropped, hfields⟩ := seat.put_fields f.heap r.backlog r.full p
    rw [Room.putAt_eq hseat, hfields]
    have hset : Room.Rolled { r with
        seats := r.seats.set index { seat with ring := ring, dropped := dropped } } :=
      hrolled.set_seat hseat rfl rfl
    exact ⟨hset.perm, hset.here_le, hset.taken, hset.slot⟩
  · exact ⟨hstocked'.backlog_pos, hstocked'.rings,
      ⟨hstocked'.hoard.whole, hstocked'.hoard.bytes⟩, hstocked'.limit⟩
  · intro q place' heq
    rw [Room.putAt_eq hseat]
    cases heq
    exact hlt
  · obtain ⟨ring, dropped, hfields⟩ := seat.put_fields f.heap r.backlog r.full p
    rw [Room.putAt_eq hseat, hfields]
    exact .set_seat hseat rfl rfl rfl rfl rfl

theorem Whole.put (hf : f.Whole) (room : Nat) (canceled : Bool) : (f.put room canceled).Whole := by
  rcases f.put_cases room canceled with hsame | ⟨r, p, place, index, hr, hroster, hlt, hindex, hput⟩
  · rw [hsame]
    exact hf
  obtain ⟨seat, hseat, htaken, hsound, hsteady, htrade⟩ := hf.putAt_sound hr hroster hlt hindex
  rcases hput with ⟨_, hput⟩ | ⟨_, hput⟩
  · rw [hput]
    refine hf.step_room hr [] [] (hf.rosterOf hr ?_) (.of_seats_eq rfl)
      (.refl _ _) ?_
    · rintro q place' heq
      cases heq
      exact hlt
    · intro q
      simp [Room.holding, Room.inSeats, Room.inHand, hroster, List.count_append]
  · rw [hput]
    refine Whole.ring (hf.step_room hr _ _ hsound hsteady htrade ?_) _
    intro q
    have hhand : ({ (r.putAt f.heap index p).2 with roster := some (p, place + 1) } : Room).holding
        = (r.putAt f.heap index p).2.holding := by
      rw [Room.putAt_eq hseat]
      simp [Room.holding, Room.inSeats, Room.inHand, hroster]
    rw [hhand]
    omega

end Floor

namespace Floor

variable {f : Floor} {room c : Nat} {r : Room}

/-- The end of a broadcast: the post is kept, if the room keeps anything and it is text. -/
theorem close_cases (f : Floor) (room : Nat) :
    f.close room = f ∨
    ∃ r p place out, f.rooms[room]? = some r ∧ r.roster = some (p, place) ∧ r.here ≤ place ∧
      (r.kept.slots.length ≠ 0 ∧ f.heap.kind p = .text ∧ out = r.keep f.heap p ∨
        ¬(r.kept.slots.length ≠ 0 ∧ f.heap.kind p = .text) ∧ out = (f.heap, r)) ∧
      f.close room = { f with
        rooms := f.rooms.set room { out.2 with roster := none }
        heap := out.1
        held := p :: f.held } := by
  unfold close
  split
  · exact .inl rfl
  · rename_i r hr
    split
    · exact .inl rfl
    · rename_i p place hroster
      by_cases hlt : place < r.here
      · rw [if_pos hlt]
        exact .inl rfl
      · rw [if_neg hlt]
        by_cases hkeep : r.kept.slots.length ≠ 0 ∧ f.heap.kind p = .text
        · refine .inr ⟨r, p, place, r.keep f.heap p, hr, hroster, by omega, ?_, ?_⟩
          · exact .inl ⟨hkeep.1, hkeep.2, rfl⟩
          · rw [if_pos hkeep]
        · refine .inr ⟨r, p, place, (f.heap, r), hr, hroster, by omega, ?_, ?_⟩
          · exact .inr ⟨hkeep, rfl⟩
          · rw [if_neg hkeep]

/-- What the room keeps at the end of a broadcast. -/
theorem Whole.close_keeping (hf : f.Whole) (hr : f.rooms[room]? = some r) {p : PostId}
    {place : Nat} (hroster : r.roster = some (p, place)) {out : Heap × Room}
    (hout : r.kept.slots.length ≠ 0 ∧ f.heap.kind p = .text ∧ out = r.keep f.heap p ∨
      ¬(r.kept.slots.length ≠ 0 ∧ f.heap.kind p = .text) ∧ out = (f.heap, r)) :
    ∃ l, Room.Keeping f.heap r out l ∧ (l = r.kept.toList ∨ l <:+ r.kept.toList ++ [p]) ∧
      out.2.keptBytes ≤ r.keptLimit := by
  obtain ⟨-, hstocked, -⟩ := hf.rooms room r hr
  have hcover : f.heap.Covers (p :: r.kept.toList) := by
    refine (hf.covers hr).mono ?_
    intro q
    simp [Room.holding, Room.inHand, hroster, List.count_append, List.count_cons]
  rcases hout with ⟨hslots, _, rfl⟩ | ⟨_, rfl⟩
  · exact Room.keep_keeping hstocked.hoard hstocked.limit hslots hcover
  · exact ⟨_, ⟨.refl _ _, hstocked.hoard, rfl, ⟨_, _, rfl⟩, rfl⟩, .inl rfl, hstocked.limit⟩

theorem Whole.close (hf : f.Whole) (room : Nat) : (f.close room).Whole := by
  rcases f.close_cases room with hsame | ⟨r, p, place, out, hr, hroster, hge, hout, hclose⟩
  · rw [hsame]
    exact hf
  rw [hclose]
  obtain ⟨hrolled, hstocked, _⟩ := hf.rooms room r hr
  obtain ⟨l, hkeep, -, hlimit⟩ := hf.close_keeping hr hroster hout
  have hstocked' := hkeep.stocked hstocked hlimit
  have htrade := hkeep.holding
  obtain ⟨kept, bytes, hsame⟩ := hkeep.same
  rw [hsame] at hstocked' htrade ⊢
  refine hf.step_room hr _ _ ⟨?_, ?_, ?_⟩ (.of_seats_eq rfl) htrade ?_
  · exact ⟨hrolled.perm, hrolled.here_le, hrolled.taken, hrolled.slot⟩
  · exact ⟨hstocked'.backlog_pos, hstocked'.rings,
      ⟨hstocked'.hoard.whole, hstocked'.hoard.bytes⟩, hstocked'.limit⟩
  · rintro q place' heq
    cases heq
  · intro q
    simp [Room.holding, Room.inSeats, Room.inHand, hroster, List.count_append, List.count_cons]
    omega

theorem Whole.forget (hf : f.Whole) (room : Nat) : (f.forget room).Whole := by
  unfold Floor.forget
  split
  · exact hf
  · rename_i r hr
    obtain ⟨hrolled, hstocked, hroster⟩ := hf.rooms room r hr
    split_ifs
    · exact hf
    · have hcover : f.heap.Covers r.kept.toList := by
        refine (hf.covers hr).mono ?_
        intro q
        simp [Room.holding, List.count_append]
        omega
      have hkeep := Room.forget_keeping hstocked.hoard hcover
      have hstocked' := hkeep.stocked hstocked (by
        rw [hkeep.hoard.bytes, hkeep.kept]
        exact Nat.zero_le _)
      have htrade := hkeep.holding
      obtain ⟨kept, bytes, hsame⟩ := hkeep.same
      dsimp only
      rw [hsame] at hstocked' htrade ⊢
      refine hf.step_room hr _ _ ⟨?_, hstocked', hroster⟩ (.of_seats_eq rfl) htrade ?_
      · exact ⟨hrolled.perm, hrolled.here_le, hrolled.taken, hrolled.slot⟩
      · intro q
        omega

theorem next_some {p : PostId} {r' : Room} (hnext : f.next c room = some (p, r')) :
    ∃ conn ticket r, f.conns[c]? = some conn ∧ conn.leaving = none ∧
      find f.rooms room f.fuel conn.first = some ticket ∧ f.rooms[room]? = some r ∧
      r.take ticket = some (p, r') := by
  unfold next at hnext
  split at hnext
  · cases hnext
  · rename_i conn hconn
    split_ifs at hnext with hleaving
    split at hnext
    · rename_i ticket r hfind hr
      exact ⟨conn, ticket, r, hconn, by simpa using hleaving, hfind, hr, hnext⟩
    · cases hnext

/-- A post taken is the next in the connection's seat. -/
theorem take_cases (f : Floor) (c room : Nat) (canceled : Bool) :
    f.take c room canceled = f ∧ (canceled = true ∨ f.next c room = none) ∨
    ∃ p r', canceled = false ∧ f.next c room = some (p, r') ∧
      f.take c room canceled = { f with rooms := f.rooms.set room r', held := p :: f.held } := by
  unfold take
  cases canceled with
  | true => exact .inl ⟨rfl, .inl rfl⟩
  | false =>
    cases hnext : f.next c room with
    | none => exact .inl ⟨rfl, .inr rfl⟩
    | some out => exact .inr ⟨out.1, out.2, rfl, rfl, rfl⟩

/-- The next post of a seat goes to whoever has the ticket. -/
theorem Whole.takeTicket (hf : f.Whole) (hr : f.rooms[room]? = some r) {ticket : Ticket}
    {p : PostId} {r' : Room} (htake : r.take ticket = some (p, r')) :
    Whole { f with rooms := f.rooms.set room r', held := p :: f.held } := by
  obtain ⟨hrolled, hstocked, hroster⟩ := hf.rooms room r hr
  obtain ⟨hstocked', hcount⟩ := Room.take_spec hstocked htake
  obtain ⟨seat, l, hseat, htaken, _, _, _, rfl⟩ := Room.take_some hstocked htake
  refine hf.step_room hr [] [] ⟨?_, hstocked', hroster⟩ ?_ (.refl _ _) ?_
  · exact hrolled.set_seat hseat rfl rfl
  · exact .set_seat hseat rfl rfl rfl rfl rfl
  · intro q
    have hq := hcount q
    simp only [List.count_cons, List.count_nil] at hq ⊢
    omega

theorem Whole.take (hf : f.Whole) (c room : Nat) (canceled : Bool) :
    (f.take c room canceled).Whole := by
  rcases f.take_cases c room canceled with ⟨hsame, _⟩ | ⟨p, r', _, hnext, heq⟩
  · rw [hsame]
    exact hf
  · rw [heq]
    obtain ⟨conn, ticket, r, hconn, _, _, hr, htake⟩ := next_some hnext
    exact hf.takeTicket hr htake

/-- A post that is made. -/
theorem Whole.reserve (hf : f.Whole) (room : Nat) (post : Post) : (f.reserve room post).Whole := by
  unfold Floor.reserve
  split
  · exact hf
  · split_ifs
    · exact hf
    · refine ⟨?_, hf.conns, ?_, Heap.tidy_alloc hf.tidy post⟩
      · intro room' r' hr'
        obtain ⟨hrolled, hstocked, hroster⟩ := hf.rooms room' r' hr'
        refine ⟨hrolled, hstocked.resize ?_, hroster⟩
        intro p hp
        exact Heap.size_alloc ((hf.covers hr').pos (by simp [Room.holding, hp])) post
      · intro q
        have hq := hf.counted q
        rw [Heap.refs_alloc, hq]
        simp only [holding, List.map_append, List.map_cons, List.map_nil, List.count_append]
        omega

theorem Whole.event (hf : f.Whole) (room : Nat) (name id data : Text.Bytes) :
    (f.event room name id data).Whole := by
  unfold Floor.event
  split_ifs
  · exact hf
  · exact hf.reserve room _

end Floor

/-! ## Leaving a room -/

namespace Room

variable {h : Heap} {r : Room} {ticket : Ticket} {seat : Seat}

theorem Sound.relinked {h : Heap} {r : Room} (hs : r.Sound h) (index : Nat)
    (next : Seating) : (r.relinked index next).Sound h :=
  ⟨hs.rolled.relinked index next, hs.stocked.relinked index next, hs.roster⟩

theorem giveUpSlot_seats (r : Room) (slot index : Nat) {i : Nat} {seat : Seat}
    (hi : r.seats[i]? = some seat) :
    ∃ slot', (r.giveUpSlot slot index).seats[i]? = some { seat with slot := slot' } := by
  unfold giveUpSlot
  dsimp only
  split
  · exact ⟨seat.slot, hi⟩
  · rename_i moved _
    dsimp only
    rw [List.getElem?_modify, hi]
    by_cases hmoved : moved = i
    · exact ⟨slot, by simp [hmoved]⟩
    · exact ⟨seat.slot, by simp [hmoved]⟩

theorem giveUpSlot_seats_back (r : Room) (slot index : Nat) {i : Nat} {seat' : Seat}
    (hi : (r.giveUpSlot slot index).seats[i]? = some seat') :
    ∃ seat, r.seats[i]? = some seat ∧ seat' = { seat with slot := seat'.slot } := by
  unfold giveUpSlot at hi
  dsimp only at hi
  split at hi
  · exact ⟨seat', hi, rfl⟩
  · obtain ⟨seat, hseat, rfl⟩ := Lib.of_getElem?_modify hi
    refine ⟨seat, hseat, ?_⟩
    split_ifs <;> rfl

/-- A seat that is taken after another was given up is not that one, and was taken before. -/
theorem giveUp_back (hi : r.seats[ticket.index]? = some seat) (htaken : seat.taken = true)
    (hera : seat.era = ticket.era) {i : Nat} {seat' : Seat}
    (hi' : (r.giveUp h ticket).2.seats[i]? = some seat') (htaken' : seat'.taken = true) :
    i ≠ ticket.index ∧ ∃ s, r.seats[i]? = some s ∧ s.taken = true ∧ s.era = seat'.era ∧
      s.waker = seat'.waker := by
  rw [giveUp_eq hi htaken hera] at hi'
  obtain ⟨s, hs, heq⟩ := giveUpSlot_seats_back _ _ _ hi'
  dsimp only at hs
  rcases Lib.of_getElem?_set hs with ⟨_, rfl⟩ | ⟨hne, hs⟩
  · rw [heq] at htaken'
    cases htaken'
  · rw [heq] at htaken' ⊢
    exact ⟨hne, s, hs, htaken', rfl, rfl⟩

theorem giveUpSlot_roster (r : Room) (slot index : Nat) :
    (r.giveUpSlot slot index).roster = r.roster := by
  unfold giveUpSlot
  dsimp only
  split <;> rfl

theorem giveUpSlot_kept (r : Room) (slot index : Nat) :
    (r.giveUpSlot slot index).kept = r.kept := by
  unfold giveUpSlot
  dsimp only
  split <;> rfl

theorem giveUpSlot_full (r : Room) (slot index : Nat) :
    (r.giveUpSlot slot index).full = r.full := by
  unfold giveUpSlot
  dsimp only
  split <;> rfl

end Room

namespace Floor

variable {f : Floor} {room c : Nat} {r : Room} {ticket : Ticket}

/-- Every seat but the one that is given up. -/
theorem giveUp_sameSeat {rooms : List Room} {h : Heap} (hr : rooms[room]? = some r) {seat : Seat}
    (hi : r.seats[ticket.index]? = some seat) (htaken : seat.taken = true)
    (hera : seat.era = ticket.era) {e : Nat × Ticket}
    (hne : e.1 ≠ room ∨ e.2.index ≠ ticket.index) :
    SameSeat rooms (rooms.set room (r.giveUp h ticket).2) e := by
  intro s hs hst
  rw [seatAt, Option.bind_eq_some_iff] at hs
  obtain ⟨r₀, hr₀, hs⟩ := hs
  rw [seatAt, List.getElem?_set]
  split_ifs with heq hlt
  · rw [← heq, hr] at hr₀
    cases hr₀
    have hindex : e.2.index ≠ ticket.index := by
      rcases hne with hne | hne
      · exact absurd heq.symm hne
      · exact hne
    have hkept : (r.seats.set ticket.index (Room.vacant h seat))[e.2.index]? = some s := by
      rw [List.getElem?_set_ne (Ne.symm hindex)]
      exact hs
    rw [Room.giveUp_eq hi htaken hera]
    obtain ⟨slot, hslot⟩ := Room.giveUpSlot_seats
      { r with seats := r.seats.set ticket.index (Room.vacant h seat) } seat.slot ticket.index hkept
    exact ⟨{ s with slot := slot }, hslot, hst, rfl, rfl, rfl⟩
  · rw [heq] at hlt
    exact absurd (List.getElem?_eq_some_iff.mp hr₀).1 hlt
  · exact ⟨s, by rw [hr₀]; exact hs, hst, rfl, rfl, rfl⟩

theorem giveUp_oldSeat {rooms : List Room} {h : Heap} (hr : rooms[room]? = some r) {seat : Seat}
    (hi : r.seats[ticket.index]? = some seat) (htaken : seat.taken = true)
    (hera : seat.era = ticket.era) {room' i : Nat} {seat' : Seat}
    (hseat' : seatAt (rooms.set room (r.giveUp h ticket).2) room' i = some seat')
    (htaken' : seat'.taken = true) :
    (room' ≠ room ∨ i ≠ ticket.index) ∧ ∃ s, seatAt rooms room' i = some s ∧ s.taken = true ∧
      s.era = seat'.era ∧ s.waker = seat'.waker := by
  rw [seatAt, Option.bind_eq_some_iff] at hseat'
  obtain ⟨r₁, hr₁, hs⟩ := hseat'
  rcases Lib.of_getElem?_set hr₁ with ⟨rfl, rfl⟩ | ⟨hne, hr₁⟩
  · obtain ⟨hne, s, hs, ht, hera', hw⟩ := Room.giveUp_back hi htaken hera hs htaken'
    exact ⟨.inr hne, s, by rw [seatAt, hr]; exact hs, ht, hera', hw⟩
  · exact ⟨.inl hne, seat', by rw [seatAt, hr₁]; exact hs, htaken', rfl, rfl⟩

/-- What `giveUp` does, for a connection that is leaving. -/
theorem giveUp_cases (f : Floor) (c : Nat) :
    f.giveUp c = f ∨
    ∃ conn room ticket r, f.conns[c]? = some conn ∧ conn.leaving = some (room, ticket) ∧
      f.rooms[room]? = some r ∧ r.roster = none ∧
      f.giveUp c = { f with
        rooms := f.rooms.set room (r.giveUp f.heap ticket).2
        heap := (r.giveUp f.heap ticket).1
        conns := f.conns.set c { conn with leaving := none } } := by
  unfold giveUp
  split
  · exact .inl rfl
  · rename_i conn hconn
    split
    · exact .inl rfl
    · rename_i room ticket hleaving
      split
      · exact .inl rfl
      · rename_i r hr
        by_cases hroster : r.roster ≠ none
        · rw [if_pos hroster]
          exact .inl rfl
        · rw [if_neg hroster]
          exact .inr ⟨conn, room, ticket, r, hconn, hleaving, hr, by simpa using hroster, rfl⟩

/-- The seat a connection is leaving is its own. -/
theorem Whole.leaving_seat (hf : f.Whole) {conn : Conn} (hconn : f.conns[c]? = some conn)
    (hleaving : conn.leaving = some (room, ticket)) (hr : f.rooms[room]? = some r) :
    ∃ seat, r.seats[ticket.index]? = some seat ∧ seat.taken = true ∧ seat.era = ticket.era ∧
      seat.waker = some c := by
  obtain ⟨l, hl⟩ := hf.conns c conn hconn
  obtain ⟨⟨seat, hseat, htaken, hera, hwaker⟩, -⟩ := hl.leaving _ hleaving
  rw [seatAt, Option.bind_eq_some_iff] at hseat
  obtain ⟨r₀, hr₀, hseat⟩ := hseat
  rw [hr] at hr₀
  cases hr₀
  exact ⟨seat, hseat, htaken, hera, hwaker⟩

theorem Whole.giveUp (hf : f.Whole) (c : Nat) : (f.giveUp c).Whole := by
  rcases f.giveUp_cases c with hsame | ⟨conn, room, ticket, r, hconn, hleaving, hr, hnone, heq⟩
  · rw [hsame]
    exact hf
  rw [heq]
  obtain ⟨hrolled, hstocked, _⟩ := hf.rooms room r hr
  obtain ⟨seat, hseat, htaken, hera, hwaker⟩ := hf.leaving_seat hconn hleaving hr
  obtain ⟨htrade, hstocked', hrolled'⟩ :=
    Room.giveUp_spec hstocked hrolled (hf.covers hr) hseat htaken hera
  have hroster : (r.giveUp f.heap ticket).2.roster = none := by
    rw [Room.giveUp_eq hseat htaken hera, Room.giveUpSlot_roster]
    exact hnone
  refine ⟨?_, ?_, ?_, htrade.tidy hf.tidy⟩
  · refine hf.rooms.set htrade.posts ⟨hrolled', hstocked', ?_⟩
    intro p place hsome
    rw [hroster] at hsome
    cases hsome
  · intro c' conn' hc'
    rcases Lib.of_getElem?_set hc' with ⟨rfl, rfl⟩ | ⟨hne, hc'⟩
    · obtain ⟨l, hl⟩ := hf.conns c' conn hconn
      have hout := (hl.leaving _ hleaving).2
      refine ⟨l, hl.chained.same ?_, by simp, ?_⟩
      · intro e he
        refine giveUp_sameSeat hr hseat htaken hera (.inl ?_)
        intro heq
        exact hout (List.mem_map.mpr ⟨e, he, heq⟩)
      · intro room' i seat' hseat' htaken' hwaker'
        obtain ⟨hne, s, hs, ht, hera', hw⟩ :=
          giveUp_oldSeat hr hseat htaken hera hseat' htaken'
        rcases hl.owned room' i s hs ht (hw.trans hwaker') with hin | hgone
        · rw [← hera']
          exact .inl hin
        · rw [hleaving] at hgone
          cases hgone
          simp at hne
    · -- the seat has another connection's bell
      obtain ⟨l, hl⟩ := hf.conns c' conn' hc'
      have hother : ∀ e, Mine f.rooms c' e →
          SameSeat f.rooms (f.rooms.set room (r.giveUp f.heap ticket).2) e := by
        intro e hmine
        refine giveUp_sameSeat hr hseat htaken hera ?_
        by_contra hsame
        push Not at hsame
        obtain ⟨seat', hseat', _, _, hwaker'⟩ := hmine
        rw [seatAt, hsame.1, hsame.2, hr] at hseat'
        have heq : seat = seat' := by
          have hs : r.seats[ticket.index]? = some seat' := hseat'
          rw [hseat] at hs
          exact Option.some.inj hs
        rw [heq, hwaker'] at hwaker
        exact hne (Option.some.inj hwaker)
      refine ⟨l, hl.chained.same fun e he => hother e (hl.chained.mine e he), ?_, ?_⟩
      · intro e he
        obtain ⟨hmine, hout⟩ := hl.leaving e he
        exact ⟨hmine.same (hother e hmine), hout⟩
      · refine hl.owned.old ?_
        intro room' i seat' hseat' htaken' hwaker'
        obtain ⟨-, s, hs, ht, hera', hw⟩ := giveUp_oldSeat hr hseat htaken hera hseat' htaken'
        exact ⟨s, hs, ht, hera', hw.trans hwaker'⟩
  · refine counted_trade hf.counted htrade ?_
    intro q
    have hset := count_holding_set hr (r.giveUp f.heap ticket).2 q
    simp only [holding, List.count_append]
    omega

/-- What `unlink` does, for a connection with a seat in the room. -/
theorem Whole.unlink_cases (hf : f.Whole) (c room : Nat) :
    f.unlink c room = f ∨
    ∃ conn l before after ticket first rooms', f.conns[c]? = some conn ∧ conn.leaving = none ∧
      Settled f.rooms c conn l ∧ l = before ++ (room, ticket) :: after ∧
      Relinks c f.rooms rooms' ∧ Linked rooms' first (before ++ after) ∧
      f.unlink c room = { f with
        rooms := rooms'
        conns := f.conns.set c { conn with first := first, leaving := some (room, ticket) } } := by
  unfold Floor.unlink
  split
  · exact .inl rfl
  · rename_i conn hconn
    by_cases hbusy : conn.leaving ≠ none
    · rw [if_pos hbusy]
      exact .inl rfl
    rw [if_neg hbusy]
    obtain ⟨l, hl⟩ := hf.conns c conn hconn
    by_cases hin : room ∈ l.map (·.1)
    · obtain ⟨e, he, hroom⟩ := List.mem_map.mp hin
      obtain ⟨before, after, hsplit⟩ := List.append_of_mem he
      have he' : e = (room, e.2) := by rw [← hroom]
      rw [he'] at hsplit
      have hchain := hl.chained
      rw [hsplit] at hchain
      have hfuel : before.length < f.fuel := by
        have hlen := hl.chained.length_le
        rw [hsplit, List.length_append, List.length_cons] at hlen
        rw [fuel]
        omega
      obtain ⟨first, rooms', hunlink, hrelinks, hlinked⟩ := unlink_spec hchain f.fuel hfuel
      rw [hunlink]
      refine .inr ⟨conn, l, before, after, e.2, first, rooms', hconn, ?_, hl, hsplit, hrelinks,
        hlinked, rfl⟩
      simpa using hbusy
    · rw [unlink_none hl.chained.linked hin]
      exact .inl rfl

theorem Whole.unlink (hf : f.Whole) (c room : Nat) : (f.unlink c room).Whole := by
  rcases hf.unlink_cases c room with hsame |
    ⟨conn, l, before, after, ticket, first, rooms', hconn, hnone, hl, hsplit, hrelinks, hlinked,
      heq⟩
  · rw [hsame]
    exact hf
  rw [heq]
  refine ⟨?_, ?_, ?_, hf.tidy⟩
  · intro room' r' hr'
    refine hrelinks.getElem? hr' (fun r index next hr => hr.relinked index next) ?_
    exact fun r hr => hf.rooms room' r hr
  · intro c' conn' hc'
    rcases Lib.of_getElem?_set hc' with ⟨rfl, rfl⟩ | ⟨hne, hc'⟩
    · have hnodup := hl.chained.nodup
      rw [hsplit, List.map_append, List.map_cons, List.nodup_middle, List.nodup_cons] at hnodup
      refine ⟨before ++ after, ⟨hlinked, ?_, ?_⟩, ?_, ?_⟩
      · simpa using hnodup.2
      · intro e he
        refine hrelinks.mine (hl.chained.mine e ?_)
        rw [hsplit]
        rcases List.mem_append.mp he with he | he
        · exact List.mem_append_left _ he
        · exact List.mem_append_right _ (List.mem_cons_of_mem _ he)
      · intro e he
        cases he
        refine ⟨hrelinks.mine (hl.chained.mine (room, ticket) ?_), ?_⟩
        · simp [hsplit]
        · simpa using hnodup.1
      · intro room' i seat' hseat' htaken' hwaker'
        obtain ⟨s, hs, ht, hera, hw⟩ := hrelinks.oldSeats c' hseat' htaken' hwaker'
        rw [← hera]
        rcases hl.owned room' i s hs ht hw with hin | hgone
        · rw [hsplit, List.mem_append, List.mem_cons] at hin
          rcases hin with hin | hin | hin
          · exact .inl (List.mem_append_left _ hin)
          · exact .inr (by rw [hin])
          · exact .inl (List.mem_append_right _ hin)
        · rw [hnone] at hgone
          cases hgone
    · obtain ⟨l', hl'⟩ := hf.conns c' conn' hc'
      refine ⟨l', hl'.chained.same ?_, ?_, ?_⟩
      · intro e he
        exact hrelinks.sameSeat hne (hl'.chained.mine e he)
      · intro e he
        obtain ⟨hmine, hout⟩ := hl'.leaving e he
        exact ⟨hrelinks.mine hmine, hout⟩
      · refine hl'.owned.old ?_
        intro room' i seat' hseat' htaken' hwaker'
        exact hrelinks.oldSeats c' hseat' htaken' hwaker'
  · intro q
    have hq := hf.counted q
    simp only [holding, List.count_append] at hq ⊢
    rw [hrelinks.flatMap_holding]
    exact hq

end Floor

/-! ## Sitting down -/

namespace Floor

variable {f : Floor} {room c : Nat} {r : Room} {ticket : Ticket}

/-- A seat as its connection finds it when it has sat down. -/
def seated (r : Room) (seat : Seat) (c : Nat) (textOnly : Bool) (next : Seating) : Seat :=
  { r.claimed seat with waker := some c, textOnly := textOnly, next := next }

/-- The room once a connection has sat down in the seat the ticket is for. -/
def occupied (r : Room) (ticket : Ticket) (seat : Seat) (c : Nat) (textOnly : Bool)
    (next : Seating) : Room :=
  { r with
    seats := r.seats.set ticket.index (seated r seat c textOnly next)
    here := r.here + 1 }

/-- What `sitAfter` does, for a connection with no seat in the room. -/
theorem Whole.sitAfter_cases (hf : f.Whole) (c room : Nat) (textOnly : Bool) (lastId : Text.Bytes)
    (into : Nat) :
    f.sitAfter c room textOnly lastId into = f ∨
    ∃ conn l r ticket seat, f.conns[c]? = some conn ∧ conn.leaving = none ∧
      Settled f.rooms c conn l ∧ room ∉ l.map (·.1) ∧ f.rooms[room]? = some r ∧ r.roster = none ∧
      r.takeSeat = some (ticket, { r with
        seats := r.seats.set ticket.index (r.claimed seat), here := r.here + 1 }) ∧
      r.seats[ticket.index]? = some seat ∧ seat.taken = false ∧
      ticket.era = (r.claimed seat).era ∧
      f.sitAfter c room textOnly lastId into = { f with
        rooms := f.rooms.set room (occupied r ticket seat c textOnly conn.first)
        conns := f.conns.set c { conn with first := ⟨some room, ticket⟩ }
        heap := (r.keptAfter f.heap lastId into).1
        held := (r.keptAfter f.heap lastId into).2 ++ f.held } := by
  unfold Floor.sitAfter
  split
  · rename_i conn r hconn hr
    obtain ⟨l, hl⟩ := hf.conns c conn hconn
    have hfuel : l.length ≤ f.fuel := Nat.le_succ_of_le hl.chained.length_le
    split_ifs with hbusy hseated hroster
    · exact .inl rfl
    · exact .inl rfl
    · exact .inl rfl
    · unfold sit
      split
      · exact .inl rfl
      · rename_i ticket r₁ htake
        obtain ⟨seat, hroll, hseat, hfree, hera, rfl⟩ :=
          Room.takeSeat_some (hf.rooms room r hr).rolled htake
        have hnone : find f.rooms room f.fuel conn.first = none := by simpa using hseated
        refine .inr ⟨conn, l, r, ticket, seat, hconn, by simpa using hbusy, hl,
          find_none hl.chained.linked hfuel hnone, hr, by simpa using hroster, htake, hseat, hfree,
          hera, ?_⟩
        simp only [Lib.modify_set_self]
        have hkept : (occupied r ticket seat c textOnly conn.first).kept = r.kept := rfl
        rw [← Room.keptAfter_congr hkept]
        rfl
  · exact .inl rfl

theorem occupied_sound {h : Heap} (hs : r.Sound h) (hroster : r.roster = none) {seat : Seat}
    (htake : r.takeSeat = some (ticket, { r with
      seats := r.seats.set ticket.index (r.claimed seat), here := r.here + 1 }))
    (hseat : r.seats[ticket.index]? = some seat) (c : Nat) (textOnly : Bool) (next : Seating) :
    (occupied r ticket seat c textOnly next).Sound h ∧
      (occupied r ticket seat c textOnly next).holding = r.holding := by
  have hrolled := Room.takeSeat_rolled hs.rolled htake
  obtain ⟨hholding, hstocked⟩ := Room.takeSeat_spec hs.stocked hs.rolled htake
  have hlt : ticket.index < r.seats.length := (List.getElem?_eq_some_iff.mp hseat).1
  have hclaimed : (r.seats.set ticket.index (r.claimed seat))[ticket.index]? =
      some (r.claimed seat) := List.getElem?_set_self hlt
  refine ⟨⟨?_, ?_, ?_⟩, ?_⟩
  · have hset : Room.Rolled { r with
        seats := (r.seats.set ticket.index (r.claimed seat)).set ticket.index
          (seated r seat c textOnly next)
        here := r.here + 1 } := hrolled.set_seat hclaimed rfl rfl
    simp only [List.set_set] at hset
    exact hset
  · have hsound := hstocked.rings _ _ hclaimed
    have hseated : (seated r seat c textOnly next).Sound r.backlog :=
      ⟨hsound.whole, hsound.cap, hsound.free⟩
    have hset := hstocked.set_seat (i := ticket.index) hseated
    simp only [List.set_set] at hset
    exact hset
  · intro p place hsome
    have hnone : (occupied r ticket seat c textOnly next).roster = none := hroster
    rw [hnone] at hsome
    cases hsome
  · rw [← hholding]
    simp only [Room.holding, Room.inSeats, Room.inHand, occupied, Room.inSeats_set hseat]
    rfl

/-- The seats that were taken, when one that was free is sat down in. -/
theorem occupied_forth {seat : Seat} (hseat : r.seats[ticket.index]? = some seat)
    (hfree : seat.taken = false) (c : Nat) (textOnly : Bool) (next : Seating) :
    r.Forth (occupied r ticket seat c textOnly next) := by
  intro i s hi hs
  have hne : ticket.index ≠ i := by
    rintro rfl
    rw [hseat] at hi
    cases hi
    rw [hfree] at hs
    cases hs
  refine ⟨s, ?_, hs, rfl, rfl, rfl⟩
  rw [occupied]
  dsimp only
  rw [List.getElem?_set_ne hne]
  exact hi

/-- A seat that is taken then is the one sat down in, or was taken before. -/
theorem occupied_oldSeat {rooms : List Room} (hr : rooms[room]? = some r) {seat : Seat}
    {textOnly : Bool} {next : Seating} {room' i : Nat} {seat' : Seat}
    (hseat' : seatAt (rooms.set room (occupied r ticket seat c textOnly next)) room' i = some seat')
    (htaken' : seat'.taken = true) :
    room' = room ∧ i = ticket.index ∧ seat' = seated r seat c textOnly next ∨
      seatAt rooms room' i = some seat' := by
  rw [seatAt, Option.bind_eq_some_iff] at hseat'
  obtain ⟨r₁, hr₁, hs⟩ := hseat'
  rcases Lib.of_getElem?_set hr₁ with ⟨rfl, rfl⟩ | ⟨_, hr₁⟩
  · rcases Lib.of_getElem?_set hs with ⟨hi, hs⟩ | ⟨_, hs⟩
    · exact .inl ⟨rfl, hi, hs⟩
    · exact .inr (by rw [seatAt, hr]; exact hs)
  · exact .inr (by rw [seatAt, hr₁]; exact hs)

theorem Whole.sitAfter (hf : f.Whole) (c room : Nat) (textOnly : Bool) (lastId : Text.Bytes)
    (into : Nat) : (f.sitAfter c room textOnly lastId into).Whole := by
  rcases hf.sitAfter_cases c room textOnly lastId into with hsame |
    ⟨conn, l, r, ticket, seat, hconn, hstays, hl, hout, hr, hroster, htake, hseat, hfree, hera, heq⟩
  · rw [hsame]
    exact hf
  rw [heq]
  have hs := hf.rooms room r hr
  obtain ⟨hsound, hholding⟩ := occupied_sound hs hroster htake hseat c textOnly conn.first
  have hsame := sameSeat_set hr (occupied_forth hseat hfree c textOnly conn.first)
  have hcover : f.heap.Covers r.kept.toList := by
    refine (hf.covers hr).mono ?_
    intro q
    simp only [Room.holding, List.count_append]
    omega
  have htrade := Room.keptAfter_spec hs.stocked.hoard.whole hcover lastId into
  have hsound' : (occupied r ticket seat c textOnly conn.first).Sound
      (r.keptAfter f.heap lastId into).1 :=
    ⟨hsound.rolled, hsound.stocked.congr htrade.posts, hsound.roster⟩
  refine ⟨hf.rooms.set htrade.posts hsound', ?_, ?_, htrade.tidy hf.tidy⟩
  · intro c' conn' hc'
    rcases Lib.of_getElem?_set hc' with ⟨rfl, rfl⟩ | ⟨hne, hc'⟩
    · -- the seat is put in front of the chain
      have hl' : Chained _ c' conn.first l := hl.chained.same fun e _ => hsame e
      have hlt : ticket.index < r.seats.length := (List.getElem?_eq_some_iff.mp hseat).1
      have hroom : room < f.rooms.length := (List.getElem?_eq_some_iff.mp hr).1
      have hnew : seatAt (f.rooms.set room (occupied r ticket seat c' textOnly conn.first)) room
          ticket.index = some (seated r seat c' textOnly conn.first) := by
        rw [seatAt, List.getElem?_set_self hroom]
        simp only [Option.bind_some, occupied]
        exact List.getElem?_set_self hlt
      refine ⟨(room, ticket) :: l, ⟨⟨rfl, _, hnew, hl'.linked⟩, ?_, ?_⟩, ?_, ?_⟩
      · rw [List.map_cons, List.nodup_cons]
        exact ⟨hout, hl.chained.nodup⟩
      · intro e he
        rcases List.mem_cons.mp he with rfl | he
        · exact ⟨_, hnew, rfl, hera.symm, rfl⟩
        · exact hl'.mine e he
      · intro e he
        rw [hstays] at he
        cases he
      · intro room' i seat' hseat' htaken' hwaker'
        rcases occupied_oldSeat hr hseat' htaken' with ⟨rfl, rfl, rfl⟩ | hold
        · refine .inl (List.mem_cons.mpr (.inl ?_))
          have hera' : (seated r seat c' textOnly conn.first).era = ticket.era := hera.symm
          rw [hera']
        · rcases hl.owned room' i seat' hold htaken' hwaker' with hin | hgone
          · exact .inl (List.mem_cons_of_mem _ hin)
          · exact .inr hgone
    · obtain ⟨l', hl'⟩ := hf.conns c' conn' hc'
      refine ⟨l', hl'.same hsame ?_⟩
      intro room' i seat' hseat' htaken' hwaker'
      rcases occupied_oldSeat hr hseat' htaken' with ⟨rfl, rfl, rfl⟩ | hold
      · exact absurd (Option.some.inj hwaker').symm hne
      · exact ⟨seat', hold, htaken', rfl, hwaker'⟩
  · refine counted_trade hf.counted htrade ?_
    intro q
    have hset := count_holding_set hr (occupied r ticket seat c textOnly conn.first) q
    rw [hholding] at hset
    simp only [holding, List.count_append, List.count_nil]
    omega

theorem Whole.act (hf : f.Whole) (a : Act) : (f.act a).Whole := by
  cases a with
  | sitAfter c room textOnly lastId into => exact hf.sitAfter c room textOnly lastId into
  | unlink c room => exact hf.unlink c room
  | giveUp c => exact hf.giveUp c
  | say room kind data => exact hf.reserve room _
  | event room name id data => exact hf.event room name id data
  | handOut k => exact hf.handOut k
  | cancel k => exact hf.cancel k
  | put room canceled => exact hf.put room canceled
  | close room => exact hf.close room
  | take c room canceled => exact hf.take c room canceled
  | release k => exact hf.release k
  | forget room => exact hf.forget room
  | look c => exact hf.look c

theorem Whole.run (hf : f.Whole) (acts : List Act) : (f.run acts).Whole := by
  induction acts generalizing f with
  | nil => exact hf
  | cons a acts ih => exact ih (hf.act a)

end Floor

/-! ## Whole runs -/

theorem initWith_sound (o : Options) (hbacklog : 0 < o.backlog) (h : Heap) :
    (initWith o).Sound h := by
  have hseat : ∀ (i : Nat) (seat : Seat), (initWith o).seats[i]? = some seat →
      seat = ⟨false, 0, 0, none, false, .empty o.backlog, 0, .nowhere⟩ := by
    intro i seat hi
    exact (List.mem_replicate.mp (List.mem_of_getElem? hi)).2
  refine ⟨⟨?_, Nat.zero_le _, ?_, ?_⟩, ⟨hbacklog, ?_, ⟨?_, ?_⟩, ?_⟩, ?_⟩
  · simp [initWith]
  · intro k i seat _ hi
    rw [hseat i seat hi]
    simp [initWith]
  · intro k i seat _ _ hlt
    simp [initWith] at hlt
  · intro i seat hi
    rw [hseat i seat hi]
    exact ⟨Lib.RingBuf.whole_empty _, by simp [Lib.RingBuf.empty, initWith], fun _ => rfl⟩
  · exact Lib.RingBuf.whole_empty _
  · simp [initWith]
  · simp [initWith]
  · intro p place heq
    cases heq

theorem holding_initWith (o : Options) : (initWith o).holding = [] := by
  simp [Room.holding, Room.inSeats, Room.inHand, initWith]

namespace Floor

theorem start_whole (rooms : List Options) (hbacklog : ∀ o ∈ rooms, 0 < o.backlog) (conns : Nat) :
    (start rooms conns).Whole := by
  refine ⟨?_, ?_, ?_, by simp [start, Heap.Tidy]⟩
  · intro room r hr
    rw [start, List.getElem?_map, Option.map_eq_some_iff] at hr
    obtain ⟨o, ho, rfl⟩ := hr
    exact initWith_sound o (hbacklog o (List.mem_of_getElem? ho)) _
  · intro c conn hc
    have hconn : conn = ⟨.nowhere, none, false⟩ :=
      (List.mem_replicate.mp (List.mem_of_getElem? hc)).2
    rw [hconn]
    refine ⟨[], ⟨rfl, by simp, by simp⟩, by simp, ?_⟩
    intro room i seat hseat htaken _
    rw [seatAt, Option.bind_eq_some_iff] at hseat
    obtain ⟨r, hr, hs⟩ := hseat
    rw [start, List.getElem?_map, Option.map_eq_some_iff] at hr
    obtain ⟨o, -, rfl⟩ := hr
    rw [(List.mem_replicate.mp (List.mem_of_getElem? hs)).2] at htaken
    cases htaken
  · intro q
    have hnone : (rooms.map initWith).flatMap Room.holding = [] := by
      rw [List.flatMap_eq_nil_iff]
      intro r hr
      obtain ⟨o, _, rfl⟩ := List.mem_map.mp hr
      exact holding_initWith o
    simp [holding, start, hnone, Heap.refs]

/-- Between any two steps of any run: the roll of every room has each seat once, the taken ones in
front and each where it says; every ring holds its posts from its head on and nothing elsewhere;
what a room keeps is counted and within its limit; a connection's chain visits a room once, only
seats it holds, and all of them but one it is giving up; and every post has as many references as there are that hold it, and was
freed once if there are none, and not if there are. -/
theorem run_rooms (rooms : List Options) (hbacklog : ∀ o ∈ rooms, 0 < o.backlog) (conns : Nat)
    (acts : List Act) :
    let f := (start rooms conns).run acts
    (∀ r ∈ f.rooms, r.Rolled) ∧
    (∀ r ∈ f.rooms, ∀ seat ∈ r.seats, seat.ring.Holds seat.ring.toList ∧
      seat.ring.slots.length = r.backlog) ∧
    (∀ r ∈ f.rooms, r.kept.Holds r.kept.toList ∧
      r.keptBytes = (r.kept.toList.map f.heap.size).sum ∧ r.keptBytes ≤ r.keptLimit) ∧
    (∀ (c : Nat) (conn : Conn), f.conns[c]? = some conn →
      ∃ l, Chained f.rooms c conn.first l ∧ Owned f.rooms c l conn.leaving) ∧
    (∀ p ∈ f.holding, ∃ cell, f.heap[p]? = some cell) ∧
    ∀ (p : Nat) (cell : Cell), f.heap[p]? = some cell →
      cell.refs = f.holding.count p ∧
      cell.freed = if f.holding.count p = 0 then 1 else 0 := by
  intro f
  have hf : f.Whole := (start_whole rooms hbacklog conns).run acts
  refine ⟨?_, ?_, ?_, ?_, ?_, ?_⟩
  · intro r hr
    obtain ⟨room, hroom⟩ := List.mem_iff_getElem?.mp hr
    exact (hf.rooms room r hroom).rolled
  · intro r hr seat hseat
    obtain ⟨room, hroom⟩ := List.mem_iff_getElem?.mp hr
    obtain ⟨i, hi⟩ := List.mem_iff_getElem?.mp hseat
    have hsound := (hf.rooms room r hroom).stocked.rings i seat hi
    exact ⟨hsound.whole, hsound.cap⟩
  · intro r hr
    obtain ⟨room, hroom⟩ := List.mem_iff_getElem?.mp hr
    have hstocked := (hf.rooms room r hroom).stocked
    exact ⟨hstocked.hoard.whole, hstocked.hoard.bytes, hstocked.limit⟩
  · intro c conn hc
    obtain ⟨l, hl⟩ := hf.conns c conn hc
    exact ⟨l, hl.chained, hl.owned⟩
  · intro p hp
    have hpos : 0 < f.heap.refs p := by
      rw [hf.counted]
      exact List.count_pos_iff.mpr hp
    obtain ⟨cell, hcell, _⟩ := Heap.exists_cell hpos
    exact ⟨cell, hcell⟩
  · intro p cell hcell
    have hrefs : cell.refs = f.holding.count p := by
      rw [← hf.counted, Heap.refs, hcell]
    refine ⟨hrefs, ?_⟩
    rw [hf.tidy cell (List.mem_of_getElem? hcell), hrefs]

/-- Two connections in a room of one place a seat that keeps one post: the first takes what is
said, the second leaves without. -/
def twoInARoom : List Act :=
  [.sitAfter 0 0 false [] 0, .sitAfter 1 0 true [] 0, .event 0 [] [49] [104, 105], .handOut 0,
    .put 0 false, .put 0 false, .close 0, .release 0, .take 0 0 false, .unlink 1 0, .giveUp 1,
    .release 0]

theorem run_rooms_two :
    let f := (start [⟨2, 1, 1, 64, .dropOldest⟩] 2).run twoInARoom
    f.heap.map (fun cell => (cell.refs, cell.freed)) = [(1, 0)] ∧ f.holding = [0] ∧
    ∀ r ∈ f.rooms, r.Rolled := by
  intro f
  have hrun := run_rooms [⟨2, 1, 1, 64, .dropOldest⟩] (by simp) 2 twoInARoom
  exact ⟨by decide, by decide, hrun.1⟩

end Floor

end Nilo.Rooms
