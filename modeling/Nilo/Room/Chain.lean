import Nilo.Room.Roll

/-!
# The chain of a connection's rooms

A connection holds its first seating and every seat the one after it. `Linked` is the list of
rooms and tickets a chain visits; `Chained` says that it visits a room once and only seats that
have the connection's bell. `find` and `unlink` walk it: with a step for each room they always
come to its end.
-/

namespace Nilo.Rooms

open Heap (Trade Covers)

/-! ## Seats by room and place -/

def seatAt (rooms : List Room) (room index : Nat) : Option Seat :=
  (rooms[room]?).bind fun r => r.seats[index]?

variable {rooms rooms' : List Room} {c room self index : Nat} {ticket : Ticket} {seat : Seat}

theorem after_eq (h : seatAt rooms room ticket.index = some seat) :
    after rooms room ticket = seat.next := by
  rw [seatAt, Option.bind_eq_some_iff] at h
  obtain ⟨r, hr, hs⟩ := h
  rw [after, hr]
  dsimp only
  rw [hs]

theorem seatAt_relink_self (h : seatAt rooms room ticket.index = some seat) (next : Seating) :
    seatAt (relink rooms room ticket next) room ticket.index = some { seat with next := next } := by
  rw [seatAt, Option.bind_eq_some_iff] at h
  obtain ⟨r, hr, hs⟩ := h
  rw [seatAt, relink, List.getElem?_modify_eq, hr]
  simp [hs]

theorem seatAt_relink_room {room' : Nat} (hne : room' ≠ room) (next : Seating) (i : Nat) :
    seatAt (relink rooms room ticket next) room' i = seatAt rooms room' i := by
  rw [seatAt, relink, List.getElem?_modify_ne _ _ (Ne.symm hne), seatAt]

theorem seatAt_relink_index {i : Nat} (hne : i ≠ ticket.index) (next : Seating) :
    seatAt (relink rooms room ticket next) room i = seatAt rooms room i := by
  rw [seatAt, relink, List.getElem?_modify_eq, seatAt]
  cases rooms[room]? with
  | none => rfl
  | some r => simp [List.getElem?_modify_ne _ _ (Ne.symm hne)]

/-- A change of some `next`s, all in seats with the connection's bell. -/
inductive Relinks (c : Nat) (rooms : List Room) : List Room → Prop where
  | refl : Relinks c rooms rooms
  | step {mid : List Room} {room : Nat} {ticket : Ticket} {seat : Seat} (next : Seating) :
      Relinks c rooms mid → seatAt mid room ticket.index = some seat → seat.waker = some c →
      Relinks c rooms (relink mid room ticket next)

theorem Relinks.seat_forth (h : Relinks c rooms rooms') {room i : Nat} {seat : Seat}
    (hs : seatAt rooms room i = some seat) :
    ∃ next, seatAt rooms' room i = some { seat with next := next } ∧
      (seat.waker ≠ some c → next = seat.next) := by
  induction h with
  | refl => exact ⟨seat.next, hs, fun _ => rfl⟩
  | @step mid room' ticket' seat' next' _ hseat' hwaker ih =>
    obtain ⟨next, hmid, hsame⟩ := ih
    by_cases hroom : room = room'
    · subst hroom
      by_cases hindex : i = ticket'.index
      · subst hindex
        rw [hmid] at hseat'
        cases hseat'
        exact ⟨next', seatAt_relink_self hmid next', fun hne => absurd hwaker hne⟩
      · exact ⟨next, by rw [seatAt_relink_index hindex, hmid], hsame⟩
    · exact ⟨next, by rw [seatAt_relink_room hroom, hmid], hsame⟩

/-! ## Chains -/

/-- The rooms a chain visits from a seating on. -/
def Linked (rooms : List Room) : Seating → List (Nat × Ticket) → Prop
  | s, [] => s.room = none
  | s, e :: l => s = ⟨some e.1, e.2⟩ ∧
      ∃ seat, seatAt rooms e.1 e.2.index = some seat ∧ Linked rooms seat.next l

/-- The seat a ticket is for is taken, by the connection it says. -/
def Mine (rooms : List Room) (c : Nat) (e : Nat × Ticket) : Prop :=
  ∃ seat, seatAt rooms e.1 e.2.index = some seat ∧ seat.taken = true ∧ seat.era = e.2.era ∧
    seat.waker = some c

structure Chained (rooms : List Room) (c : Nat) (s : Seating) (l : List (Nat × Ticket)) :
    Prop where
  linked : Linked rooms s l
  nodup : (l.map (·.1)).Nodup
  mine : ∀ e ∈ l, Mine rooms c e

/-- A chain only reads the `next` of the seats it visits. -/
theorem Linked.congr {s : Seating} {l : List (Nat × Ticket)} (h : Linked rooms s l)
    (hsame : ∀ e ∈ l, ∀ seat, seatAt rooms e.1 e.2.index = some seat →
      ∃ seat', seatAt rooms' e.1 e.2.index = some seat' ∧ seat'.next = seat.next) :
    Linked rooms' s l := by
  induction l generalizing s with
  | nil => exact h
  | cons e l ih =>
    obtain ⟨hs, seat, hseat, hrest⟩ := h
    obtain ⟨seat', hseat', hnext⟩ := hsame e (by simp) seat hseat
    refine ⟨hs, seat', hseat', ?_⟩
    rw [hnext]
    exact ih hrest fun e' he' => hsame e' (List.mem_cons_of_mem e he')

/-- What an operation leaves a seat that stays taken. -/
def SameSeat (rooms rooms' : List Room) (e : Nat × Ticket) : Prop :=
  ∀ seat, seatAt rooms e.1 e.2.index = some seat → seat.taken = true →
    ∃ seat', seatAt rooms' e.1 e.2.index = some seat' ∧ seat'.taken = true ∧
      seat'.era = seat.era ∧ seat'.waker = seat.waker ∧ seat'.next = seat.next

theorem Mine.same {e : Nat × Ticket} (h : Mine rooms c e) (hsame : SameSeat rooms rooms' e) :
    Mine rooms' c e := by
  obtain ⟨seat, hseat, htaken, hera, hwaker⟩ := h
  obtain ⟨seat', hseat', htaken', hera', hwaker', _⟩ := hsame seat hseat htaken
  exact ⟨seat', hseat', htaken', hera'.trans hera, hwaker'.trans hwaker⟩

theorem Chained.same {s : Seating} {l : List (Nat × Ticket)} (h : Chained rooms c s l)
    (hsame : ∀ e ∈ l, SameSeat rooms rooms' e) : Chained rooms' c s l := by
  refine ⟨h.linked.congr ?_, h.nodup, fun e he => (h.mine e he).same (hsame e he)⟩
  intro e he seat hseat
  obtain ⟨seat₀, hseat₀, htaken, _, _⟩ := h.mine e he
  rw [hseat] at hseat₀
  cases hseat₀
  obtain ⟨seat', hseat', _, _, _, hnext⟩ := hsame e he seat hseat htaken
  exact ⟨seat', hseat', hnext⟩

/-- A chain has at most a seat a room. -/
theorem Chained.length_le {s : Seating} {l : List (Nat × Ticket)} (h : Chained rooms c s l) :
    l.length ≤ rooms.length := by
  have hsub : l.map (·.1) ⊆ List.range rooms.length := by
    intro room hroom
    obtain ⟨e, he, rfl⟩ := List.mem_map.mp hroom
    obtain ⟨seat, hseat, _⟩ := h.mine e he
    rw [seatAt, Option.bind_eq_some_iff] at hseat
    obtain ⟨r, hr, _⟩ := hseat
    exact List.mem_range.mpr (List.getElem?_eq_some_iff.mp hr).1
  have hlen := h.nodup.length_le_of_subset hsub
  simpa using hlen

/-! ## Walking a chain -/

theorem find_eq {s : Seating} {l : List (Nat × Ticket)} (h : Linked rooms s l) (n : Nat)
    (hn : l.length ≤ n) : find rooms self n s = (l.find? (·.1 = self)).map (·.2) := by
  induction l generalizing s n with
  | nil =>
    cases n with
    | zero => rfl
    | succ n =>
      have hnone : s.room = none := h
      rw [find, hnone]
      rfl
  | cons e l ih =>
    obtain ⟨rfl, seat, hseat, hrest⟩ := h
    obtain ⟨m, rfl⟩ : ∃ m, n = m + 1 := ⟨n - 1, by simp at hn; omega⟩
    rw [find]
    dsimp only
    rw [after_eq hseat, List.find?_cons]
    by_cases hself : e.1 = self
    · simp [hself]
    · rw [if_neg hself, ih hrest m (by simpa using hn)]
      simp [hself]

/-- A ticket that is found is one of the chain's. -/
theorem find_some {s : Seating} {l : List (Nat × Ticket)} (h : Linked rooms s l) {n : Nat}
    (hn : l.length ≤ n) (hfind : find rooms self n s = some ticket) : (self, ticket) ∈ l := by
  rw [find_eq h n hn, Option.map_eq_some_iff] at hfind
  obtain ⟨e, he, rfl⟩ := hfind
  have hmem := List.mem_of_find?_eq_some he
  have hself : e.1 = self := by simpa using List.find?_some he
  rw [← hself]
  exact hmem

theorem find_none {s : Seating} {l : List (Nat × Ticket)} (h : Linked rooms s l) {n : Nat}
    (hn : l.length ≤ n) (hfind : find rooms self n s = none) : self ∉ l.map (·.1) := by
  rw [find_eq h n hn, Option.map_eq_none_iff, List.find?_eq_none] at hfind
  intro hmem
  obtain ⟨e, he, rfl⟩ := List.mem_map.mp hmem
  simpa using hfind e he

/-- `unlink` takes the room's seat out of the chain and leaves the others in order. -/
theorem unlink_spec {s : Seating} {before after : List (Nat × Ticket)}
    (h : Chained rooms c s (before ++ (self, ticket) :: after)) (n : Nat)
    (hn : before.length < n) :
    ∃ first rooms', unlink rooms self n s = some (ticket, first, rooms') ∧
      Relinks c rooms rooms' ∧ Linked rooms' first (before ++ after) := by
  induction before generalizing s n with
  | nil =>
    obtain ⟨⟨rfl, seat, hseat, hrest⟩, hnodup, hmine⟩ := h
    obtain ⟨m, rfl⟩ : ∃ m, n = m + 1 := ⟨n - 1, by simp at hn; omega⟩
    obtain ⟨seat₀, hseat₀, _, _, hwaker⟩ := hmine (self, ticket) (by simp)
    rw [hseat] at hseat₀
    cases hseat₀
    dsimp only at hseat hnodup hrest
    refine ⟨seat.next, relink rooms self ticket .nowhere, ?_, .step _ .refl hseat hwaker, ?_⟩
    · rw [unlink]
      dsimp only
      rw [if_pos rfl, after_eq hseat]
    · -- the rest of the chain is in other rooms
      refine hrest.congr ?_
      intro e he seat' hseat'
      have hne : e.1 ≠ self := by
        intro heq
        rw [List.nil_append, List.map_cons, List.nodup_cons] at hnodup
        exact hnodup.1 (List.mem_map.mpr ⟨e, he, heq⟩)
      exact ⟨seat', by rw [seatAt_relink_room hne]; exact hseat', rfl⟩
  | cons e before ih =>
    obtain ⟨⟨rfl, seat, hseat, hrest⟩, hnodup, hmine⟩ := h
    obtain ⟨m, rfl⟩ : ∃ m, n = m + 1 := ⟨n - 1, by simp at hn; omega⟩
    have hchain : Chained rooms c seat.next (before ++ (self, ticket) :: after) := by
      refine ⟨hrest, ?_, fun e' he' => hmine e' (List.mem_cons_of_mem e he')⟩
      rw [List.cons_append, List.map_cons, List.nodup_cons] at hnodup
      exact hnodup.2
    obtain ⟨next, rooms', hunlink, hrelinks, hlinked⟩ := ih hchain m (by simpa using hn)
    have hfresh : e.1 ∉ (before ++ (self, ticket) :: after).map (·.1) := by
      rw [List.cons_append, List.map_cons, List.nodup_cons] at hnodup
      exact hnodup.1
    have hne : e.1 ≠ self := by
      intro heq
      exact hfresh (by simp [heq])
    obtain ⟨seat₀, hseat₀, _, _, hwaker⟩ := hmine e (by simp)
    rw [hseat] at hseat₀
    cases hseat₀
    obtain ⟨next₀, hseat', _⟩ := hrelinks.seat_forth hseat
    refine ⟨⟨some e.1, e.2⟩, relink rooms' e.1 e.2 next, ?_, .step _ hrelinks hseat' hwaker, ?_⟩
    · rw [unlink]
      dsimp only
      rw [if_neg hne, after_eq hseat, hunlink]
    · refine ⟨rfl, { seat with next := next }, ?_, ?_⟩
      · exact seatAt_relink_self hseat' next
      · refine hlinked.congr ?_
        intro e' he' seat' hseat'
        have hroom : e'.1 ≠ e.1 := by
          intro heq
          refine hfresh (List.mem_map.mpr ⟨e', ?_, heq⟩)
          rcases List.mem_append.mp he' with he' | he'
          · exact List.mem_append_left _ he'
          · exact List.mem_append_right _ (List.mem_cons_of_mem _ he')
        exact ⟨seat', by rw [seatAt_relink_room hroom]; exact hseat', rfl⟩

/-! ## What relinking leaves alone -/

/-- A room with the `next` of one of its seats changed. -/
def Room.relinked (r : Room) (index : Nat) (next : Seating) : Room :=
  { r with seats := r.seats.modify index fun seat => { seat with next := next } }

theorem Room.Rolled.relinked {r : Room} (hr : r.Rolled) (index : Nat) (next : Seating) :
    (r.relinked index next).Rolled := by
  refine ⟨by simpa [Room.relinked] using hr.perm, by simpa [Room.relinked] using hr.here_le,
    ?_, ?_⟩
  · intro k i seat hk hi
    obtain ⟨seat₀, hi₀, rfl⟩ := Lib.of_getElem?_modify hi
    have htaken := hr.taken k i seat₀ hk hi₀
    split_ifs <;> exact htaken
  · intro k i seat hk hi hlt
    obtain ⟨seat₀, hi₀, rfl⟩ := Lib.of_getElem?_modify hi
    have hslot := hr.slot k i seat₀ hk hi₀ hlt
    split_ifs <;> exact hslot

theorem Room.Stocked.relinked {h : Heap} {r : Room} (hs : r.Stocked h) (index : Nat)
    (next : Seating) : (r.relinked index next).Stocked h := by
  refine ⟨hs.backlog_pos, ?_, ⟨hs.hoard.whole, hs.hoard.bytes⟩, hs.limit⟩
  intro i seat hi
  obtain ⟨seat₀, hi₀, rfl⟩ := Lib.of_getElem?_modify hi
  have hsound := hs.rings i seat₀ hi₀
  split_ifs
  · exact ⟨hsound.whole, hsound.cap, hsound.free⟩
  · exact hsound

theorem Room.holding_relinked (r : Room) (index : Nat) (next : Seating) :
    (r.relinked index next).holding = r.holding := by
  have hsame : (r.seats.modify index fun seat => { seat with next := next }).flatMap
      (·.ring.toList) = r.seats.flatMap (·.ring.toList) := by
    rw [List.flatMap_def, List.flatMap_def]
    congr 1
    exact Lib.map_modify_same fun _ => rfl
  simp only [Room.holding, Room.inSeats, Room.relinked, hsame, Room.inHand]

theorem Relinks.getElem? (h : Relinks c rooms rooms') {room : Nat} {r' : Room}
    (hr : rooms'[room]? = some r') {P : Room → Prop}
    (hrelink : ∀ r index next, P r → P (r.relinked index next))
    (hP : ∀ r, rooms[room]? = some r → P r) : P r' := by
  induction h generalizing r' with
  | refl => exact hP r' hr
  | step next _ _ _ ih =>
    obtain ⟨r, hr₀, rfl⟩ := Lib.of_getElem?_modify hr
    split_ifs
    · exact hrelink _ _ _ (ih hr₀)
    · exact ih hr₀

theorem Relinks.length_eq (h : Relinks c rooms rooms') : rooms'.length = rooms.length := by
  induction h with
  | refl => rfl
  | step next _ _ _ ih => simpa [relink] using ih

theorem Relinks.flatMap_holding (h : Relinks c rooms rooms') :
    rooms'.flatMap Room.holding = rooms.flatMap Room.holding := by
  induction h with
  | refl => rfl
  | step next _ _ _ ih =>
    rw [← ih, List.flatMap_def, List.flatMap_def]
    congr 1
    exact Lib.map_modify_same fun r => r.holding_relinked _ _

theorem unlink_none {s : Seating} {l : List (Nat × Ticket)} (h : Linked rooms s l)
    (hself : self ∉ l.map (·.1)) (n : Nat) : unlink rooms self n s = none := by
  induction l generalizing s n with
  | nil =>
    cases n with
    | zero => rfl
    | succ n =>
      have hnone : s.room = none := h
      rw [unlink, hnone]
  | cons e l ih =>
    obtain ⟨rfl, seat, hseat, hrest⟩ := h
    rw [List.map_cons, List.mem_cons, not_or] at hself
    cases n with
    | zero => rfl
    | succ n =>
      rw [unlink]
      dsimp only
      rw [if_neg (fun heq => hself.1 heq.symm), after_eq hseat, ih hrest hself.2 n]

/-- A seat of another connection. -/
theorem Relinks.sameSeat (h : Relinks c rooms rooms') {c' : Nat} (hne : c' ≠ c)
    {e : Nat × Ticket} (hmine : Mine rooms c' e) : SameSeat rooms rooms' e := by
  intro seat hseat htaken
  obtain ⟨seat₀, hseat₀, _, _, hwaker⟩ := hmine
  rw [hseat] at hseat₀
  cases hseat₀
  obtain ⟨next, hseat', hsame⟩ := h.seat_forth hseat
  refine ⟨{ seat with next := next }, hseat', htaken, rfl, rfl, hsame ?_⟩
  rw [hwaker]
  intro heq
  cases heq
  exact hne rfl

/-- And one of its own, but for where it leads. -/
theorem Relinks.mine (h : Relinks c rooms rooms') {c' : Nat} {e : Nat × Ticket}
    (hmine : Mine rooms c' e) : Mine rooms' c' e := by
  obtain ⟨seat, hseat, htaken, hera, hwaker⟩ := hmine
  obtain ⟨next, hseat', _⟩ := h.seat_forth hseat
  exact ⟨{ seat with next := next }, hseat', htaken, hera, hwaker⟩

/-- A seat before some of the `next`s were changed. -/
theorem Relinks.seat_back (h : Relinks c rooms rooms') {room i : Nat} {seat' : Seat}
    (hs : seatAt rooms' room i = some seat') :
    ∃ seat, seatAt rooms room i = some seat ∧ seat' = { seat with next := seat'.next } := by
  induction h generalizing seat' with
  | refl => exact ⟨seat', hs, rfl⟩
  | step next _ _ _ ih =>
    rw [seatAt, Option.bind_eq_some_iff] at hs
    obtain ⟨r', hr', hs'⟩ := hs
    obtain ⟨r, hr, rfl⟩ := Lib.of_getElem?_modify hr'
    split_ifs at hs' with hroom
    · obtain ⟨s, hs, rfl⟩ := Lib.of_getElem?_modify hs'
      obtain ⟨seat, hseat, heq⟩ := @ih s (by rw [seatAt, hr]; exact hs)
      refine ⟨seat, hseat, ?_⟩
      split_ifs
      · rw [heq]
      · exact heq
    · exact ih (by rw [seatAt, hr]; exact hs')

theorem Relinks.oldSeats (h : Relinks c rooms rooms') (c' : Nat) {room i : Nat} {seat' : Seat}
    (hs : seatAt rooms' room i = some seat') (htaken : seat'.taken = true)
    (hwaker : seat'.waker = some c') :
    ∃ seat, seatAt rooms room i = some seat ∧ seat.taken = true ∧ seat.era = seat'.era ∧
      seat.waker = some c' := by
  obtain ⟨seat, hseat, heq⟩ := h.seat_back hs
  rw [heq] at htaken hwaker ⊢
  exact ⟨seat, hseat, htaken, rfl, hwaker⟩

end Nilo.Rooms
