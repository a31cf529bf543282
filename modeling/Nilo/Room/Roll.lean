import Nilo.Room.Rings

/-!
# The roll of a room

`roll` has every seat once, the first `here` of them taken and the rest free, and a taken seat
knows its place. Taking a seat moves the border by one; giving one up swaps it with the last taken
one first. Nothing else touches the roll.
-/

namespace Nilo.Rooms

open Heap (Trade Covers)

namespace Room

variable {h : Heap} {r : Room} {seat : Seat} {i k index : Nat}

structure Rolled (r : Room) : Prop where
  perm : r.roll.Perm (List.range r.seats.length)
  here_le : r.here ≤ r.seats.length
  taken : ∀ (k i : Nat) (seat : Seat), r.roll[k]? = some i → r.seats[i]? = some seat →
    (seat.taken = true ↔ k < r.here)
  slot : ∀ (k i : Nat) (seat : Seat), r.roll[k]? = some i → r.seats[i]? = some seat →
    k < r.here → seat.slot = k

namespace Rolled

theorem length_eq (hr : r.Rolled) : r.roll.length = r.seats.length := by
  simpa using hr.perm.length_eq

theorem lt_of_roll (hr : r.Rolled) (hk : r.roll[k]? = some i) : i < r.seats.length := by
  have hmem := hr.perm.mem_iff.mp (List.mem_of_getElem? hk)
  exact List.mem_range.mp hmem

theorem exists_seat (hr : r.Rolled) (hk : r.roll[k]? = some i) : ∃ seat, r.seats[i]? = some seat :=
  ⟨_, List.getElem?_eq_getElem (hr.lt_of_roll hk)⟩

theorem exists_roll (hr : r.Rolled) (hk : k < r.seats.length) : ∃ i, r.roll[k]? = some i :=
  ⟨_, List.getElem?_eq_getElem (by rwa [hr.length_eq])⟩

theorem inj (hr : r.Rolled) {k' : Nat} (hk : r.roll[k]? = some i) (hk' : r.roll[k']? = some i) :
    k = k' := by
  have hlt : k < r.roll.length := (List.getElem?_eq_some_iff.mp hk).1
  have hnodup : r.roll.Nodup := hr.perm.nodup_iff.mpr List.nodup_range
  exact (List.getElem?_inj hlt hnodup).mp (hk.trans hk'.symm)

/-- A taken seat is on the roll's taken half, where it says. -/
theorem at_slot (hr : r.Rolled) (hi : r.seats[i]? = some seat) (htaken : seat.taken = true) :
    r.roll[seat.slot]? = some i ∧ seat.slot < r.here := by
  have hlt : i < r.seats.length := (List.getElem?_eq_some_iff.mp hi).1
  have hmem : i ∈ r.roll := hr.perm.mem_iff.mpr (List.mem_range.mpr hlt)
  obtain ⟨k, hk⟩ := List.mem_iff_getElem?.mp hmem
  have hhere : k < r.here := (hr.taken k i seat hk hi).mp htaken
  rw [hr.slot k i seat hk hi hhere]
  exact ⟨hk, hhere⟩

/-- A seat that is changed and stays as it is for the roll. -/
theorem set_seat (hr : r.Rolled) {seat' : Seat} (hi : r.seats[i]? = some seat)
    (htaken : seat'.taken = seat.taken) (hslot : seat'.slot = seat.slot) :
    { r with seats := r.seats.set i seat' }.Rolled := by
  have hget : ∀ (j : Nat) (s : Seat), (r.seats.set i seat')[j]? = some s →
      ∃ s₀, r.seats[j]? = some s₀ ∧ s.taken = s₀.taken ∧ s.slot = s₀.slot := by
    intro j s hj
    rcases Lib.of_getElem?_set hj with ⟨rfl, rfl⟩ | ⟨_, hj⟩
    · exact ⟨seat, hi, htaken, hslot⟩
    · exact ⟨s, hj, rfl, rfl⟩
  refine ⟨by simpa using hr.perm, by simpa using hr.here_le, ?_, ?_⟩
  · intro k j s hk hj
    obtain ⟨s₀, hj₀, ht, _⟩ := hget j s hj
    rw [ht]
    exact hr.taken k j s₀ hk hj₀
  · intro k j s hk hj hlt
    obtain ⟨s₀, hj₀, _, hs⟩ := hget j s hj
    rw [hs]
    exact hr.slot k j s₀ hk hj₀ hlt

end Rolled

/-! ## Taking a seat -/

/-- A seat just taken: its own again, with nothing missed and nothing after it. -/
def claimed (r : Room) (seat : Seat) : Seat :=
  { seat with
    taken := true, era := (seat.era + 1) % 2 ^ 32, slot := r.here, dropped := 0, next := .nowhere }

theorem takeSeat_some {ticket : Ticket} {r' : Room} (hr : r.Rolled)
    (ht : r.takeSeat = some (ticket, r')) :
    ∃ seat, r.roll[r.here]? = some ticket.index ∧ r.seats[ticket.index]? = some seat ∧
      seat.taken = false ∧ ticket.era = (r.claimed seat).era ∧
      r' = { r with
        seats := r.seats.set ticket.index (r.claimed seat)
        here := r.here + 1 } := by
  unfold takeSeat at ht
  split_ifs at ht with hfull
  split at ht
  · cases ht
  · rename_i index hroll
    split at ht
    · cases ht
    · rename_i seat hseat
      cases ht
      refine ⟨seat, hroll, hseat, ?_, rfl, rfl⟩
      have htaken := hr.taken r.here index seat hroll hseat
      simpa using htaken

theorem takeSeat_rolled {ticket : Ticket} {r' : Room} (hr : r.Rolled)
    (ht : r.takeSeat = some (ticket, r')) : r'.Rolled := by
  obtain ⟨seat, hroll, hseat, hfree, -, rfl⟩ := takeSeat_some hr ht
  have hlt : r.here < r.seats.length := by
    have hk := (List.getElem?_eq_some_iff.mp hroll).1
    rwa [hr.length_eq] at hk
  refine ⟨by simpa using hr.perm, by simp; omega, ?_, ?_⟩
  · intro k i s hk hi
    dsimp only at hk hi ⊢
    rcases Lib.of_getElem?_set hi with ⟨rfl, rfl⟩ | ⟨hother, hi⟩
    · have hkk := hr.inj hk hroll
      simp [claimed, hkk]
    · have hne : k ≠ r.here := by
        rintro rfl
        rw [hroll] at hk
        cases hk
        exact hother rfl
      rw [hr.taken k i s hk hi]
      omega
  · intro k i s hk hi hlt'
    dsimp only at hk hi hlt'
    rcases Lib.of_getElem?_set hi with ⟨rfl, rfl⟩ | ⟨hother, hi⟩
    · exact (hr.inj hk hroll).symm
    · have hne : k ≠ r.here := by
        rintro rfl
        rw [hroll] at hk
        cases hk
        exact hother rfl
      exact hr.slot k i s hk hi (by omega)

end Room

/-! ## Giving one up -/

namespace Room

variable {h : Heap} {r : Room} {seat seat' : Seat} {index moved : Nat}

/-- Two places of a list changed over. -/
theorem swap_perm {roll : List Nat} {slot last : Nat} (hslot : roll[slot]? = some index)
    (hlast : roll[last]? = some moved) : ((roll.set last index).set slot moved).Perm roll := by
  obtain ⟨hlt, hget⟩ := List.getElem?_eq_some_iff.mp hlast
  have hback : (roll.set last index)[slot]? = some index := by
    rw [List.getElem?_set]
    split_ifs with heq
    · rfl
    · exact hslot
  obtain ⟨hlt', hget'⟩ := List.getElem?_eq_some_iff.mp hback
  have hcount : 1 ≤ roll.count moved := List.count_pos_iff.mpr (List.mem_of_getElem? hlast)
  rw [List.perm_iff_count]
  intro b
  rw [List.count_set hlt', hget', List.count_set hlt, hget]
  by_cases hmb : moved = b
  · subst hmb
    simp
    omega
  · simp [hmb]

/-- What stands where on the roll once the seat at `slot` and the last taken one have changed
over. -/
theorem getElem?_swap {roll : List Nat} {slot last : Nat} (hslot : slot < roll.length)
    (hlast : last < roll.length) (k : Nat) :
    ((roll.set last index).set slot moved)[k]? =
      if k = slot then some moved else if k = last then some index else roll[k]? := by
  rw [List.getElem?_set, List.getElem?_set]
  by_cases hk : k = slot
  · subst hk
    simp [hslot]
  · rw [if_neg (fun heq => hk heq.symm), if_neg hk]
    by_cases hl : k = last
    · subst hl
      simp [hlast]
    · rw [if_neg (fun heq => hl heq.symm), if_neg hl]

theorem giveUpSlot_eq (hmoved : r.roll[r.here - 1]? = some moved) (slot : Nat) :
    r.giveUpSlot slot index =
      { r with
        roll := (r.roll.set (r.here - 1) index).set slot moved
        seats := r.seats.modify moved fun seat => { seat with slot := slot }
        here := r.here - 1 } := by
  rw [giveUpSlot, hmoved]

/-- A seat given up goes to the free half. -/
theorem giveUpSlot_rolled (hr : r.Rolled) (hi : r.seats[index]? = some seat)
    (htaken : seat.taken = true) (hfree : seat'.taken = false) :
    (giveUpSlot { r with seats := r.seats.set index seat' } seat.slot index).Rolled := by
  obtain ⟨hslot, hlt⟩ := hr.at_slot hi htaken
  obtain ⟨moved, hmoved⟩ : ∃ moved, r.roll[r.here - 1]? = some moved := by
    refine hr.exists_roll ?_
    have hle := hr.here_le
    omega
  rw [giveUpSlot_eq (by exact hmoved)]
  dsimp only
  have hslot_lt : seat.slot < r.roll.length := (List.getElem?_eq_some_iff.mp hslot).1
  have hlast_lt : r.here - 1 < r.roll.length := (List.getElem?_eq_some_iff.mp hmoved).1
  -- the seats, by who was where
  have hseat : ∀ (j : Nat) (s : Seat),
      ((r.seats.set index seat').modify moved fun seat' => { seat' with slot := seat.slot })[j]? =
        some s →
      j = index ∧ s.taken = false ∨
      j ≠ index ∧ ∃ s₀, r.seats[j]? = some s₀ ∧ s.taken = s₀.taken ∧
        s.slot = if j = moved then seat.slot else s₀.slot := by
    intro j s hj
    obtain ⟨s₁, hj₁, rfl⟩ := Lib.of_getElem?_modify hj
    rcases Lib.of_getElem?_set hj₁ with ⟨rfl, rfl⟩ | ⟨hne, hj₀⟩
    · refine .inl ⟨rfl, ?_⟩
      split_ifs <;> exact hfree
    · refine .inr ⟨hne, s₁, hj₀, ?_, ?_⟩
      · split_ifs <;> rfl
      · split_ifs <;> rfl
  -- the last taken place has the seat that moves, and no other place has it
  have hplace : ∀ k j, (if k = seat.slot then some moved
      else if k = r.here - 1 then some index else r.roll[k]?) = some j →
      k = seat.slot ∧ j = moved ∨ k ≠ seat.slot ∧ k = r.here - 1 ∧ j = index ∨
      k ≠ seat.slot ∧ k ≠ r.here - 1 ∧ r.roll[k]? = some j ∧ j ≠ index ∧ j ≠ moved := by
    intro k j hk
    split_ifs at hk with h₁ h₂
    · cases hk
      exact .inl ⟨h₁, rfl⟩
    · cases hk
      exact .inr (.inl ⟨h₁, h₂, rfl⟩)
    · refine .inr (.inr ⟨h₁, h₂, hk, ?_, ?_⟩)
      · rintro rfl
        exact h₁ (hr.inj hk hslot)
      · rintro rfl
        exact h₂ (hr.inj hk hmoved)
  have hmove : moved ≠ index → seat.slot < r.here - 1 := by
    intro hne
    have hneq : seat.slot ≠ r.here - 1 := by
      intro heq
      rw [heq, hmoved] at hslot
      cases hslot
      exact hne rfl
    omega
  refine ⟨?_, ?_, ?_, ?_⟩
  · simpa using (swap_perm hslot hmoved).trans hr.perm
  · have hle := hr.here_le
    simp
    omega
  · intro k j s hk hj
    rw [getElem?_swap hslot_lt hlast_lt] at hk
    rcases hseat j s hj with ⟨rfl, hgone⟩ | ⟨hne, s₀, hj₀, ht, -⟩
    · rcases hplace k j hk with ⟨rfl, rfl⟩ | ⟨_, rfl, _⟩ | ⟨_, _, _, hother, _⟩
      · have heq := hr.inj hslot hmoved
        simp [hgone]
        omega
      · simp [hgone]
      · exact absurd rfl hother
    · rw [ht]
      rcases hplace k j hk with ⟨rfl, rfl⟩ | ⟨_, _, rfl⟩ | ⟨h₁, h₂, hk₀, _, _⟩
      · have hlast := (hr.taken _ j s₀ hmoved hj₀).mpr (by omega)
        have hmv := hmove hne
        simp [hlast, hmv]
      · exact absurd rfl hne
      · rw [hr.taken k j s₀ hk₀ hj₀]
        dsimp only
        omega
  · intro k j s hk hj hlt'
    rw [getElem?_swap hslot_lt hlast_lt] at hk
    rcases hseat j s hj with ⟨rfl, hgone⟩ | ⟨hne, s₀, hj₀, -, hs⟩
    · rcases hplace k j hk with ⟨rfl, rfl⟩ | ⟨_, rfl, _⟩ | ⟨_, _, _, hother, _⟩
      · have heq := hr.inj hslot hmoved
        dsimp only at hlt'
        omega
      · dsimp only at hlt'
        omega
      · exact absurd rfl hother
    · rw [hs]
      rcases hplace k j hk with ⟨rfl, rfl⟩ | ⟨_, _, rfl⟩ | ⟨h₁, h₂, hk₀, _, hnm⟩
      · simp
      · exact absurd rfl hne
      · rw [if_neg hnm]
        exact hr.slot k j s₀ hk₀ hj₀ (by dsimp only at hlt'; omega)

end Room

namespace Room

variable {h : Heap} {r : Room} {seat : Seat} {ticket : Ticket}

/-- A seat nobody sits in. -/
def vacant (h : Heap) (seat : Seat) : Seat :=
  { (seat.drain h).2 with taken := false, waker := none }

theorem giveUp_eq (hi : r.seats[ticket.index]? = some seat) (htaken : seat.taken = true)
    (hera : seat.era = ticket.era) :
    r.giveUp h ticket = ((seat.drain h).1,
      giveUpSlot { r with seats := r.seats.set ticket.index (vacant h seat) }
        seat.slot ticket.index) := by
  rw [giveUp, hi]
  dsimp only
  rw [if_neg (by simp [htaken, hera])]
  rfl

theorem giveUpSlot_holding (r : Room) (slot index : Nat) :
    (r.giveUpSlot slot index).holding = r.holding := by
  unfold giveUpSlot
  dsimp only
  split
  · rfl
  · have hsame : ∀ moved, (r.seats.modify moved fun seat => { seat with slot := slot }).flatMap
        (·.ring.toList) = r.seats.flatMap (·.ring.toList) := by
      intro moved
      rw [List.flatMap_def, List.flatMap_def]
      congr 1
      exact Lib.map_modify_same fun _ => rfl
    simp only [holding, inSeats, hsame, inHand]

theorem giveUpSlot_stocked (hs : r.Stocked h) (slot index : Nat) :
    (r.giveUpSlot slot index).Stocked h := by
  unfold giveUpSlot
  dsimp only
  split
  · exact hs
  · refine ⟨hs.backlog_pos, ?_, ⟨hs.hoard.whole, hs.hoard.bytes⟩, hs.limit⟩
    intro j s hj
    obtain ⟨s₀, hj₀, rfl⟩ := Lib.of_getElem?_modify hj
    have hsound := hs.rings j s₀ hj₀
    split_ifs
    · exact ⟨hsound.whole, hsound.cap, hsound.free⟩
    · exact hsound

theorem giveUp_spec (hs : r.Stocked h) (hr : r.Rolled) (hc : h.Covers r.holding)
    (hi : r.seats[ticket.index]? = some seat) (htaken : seat.taken = true)
    (hera : seat.era = ticket.era) :
    Trade h (r.giveUp h ticket).1 r.holding (r.giveUp h ticket).2.holding ∧
      (r.giveUp h ticket).2.Stocked (r.giveUp h ticket).1 ∧ (r.giveUp h ticket).2.Rolled := by
  have hcover : h.Covers seat.ring.toList := by
    refine (covers_seat hc hi).mono ?_
    intro q
    simp [List.count_append]
  obtain ⟨htrade, hwhole, hnil, hcap⟩ := seat.drain_spec (hs.rings _ seat hi) hcover
  rw [giveUp_eq hi htaken hera]
  refine ⟨?_, ?_, giveUpSlot_rolled hr hi htaken rfl⟩
  · rw [giveUpSlot_holding]
    refine trade_seat hi ?_
    rw [vacant, hnil]
    exact htrade
  · refine giveUpSlot_stocked ?_ _ _
    have hvacant : (vacant h seat).Sound r.backlog := ⟨hwhole, hcap, fun _ => hnil⟩
    exact (hs.set_seat hvacant).congr htrade.posts

/-- Taking a seat changes nothing of what is held: a free seat holds nothing. -/
theorem takeSeat_spec {r' : Room} (hs : r.Stocked h) (hr : r.Rolled)
    (ht : r.takeSeat = some (ticket, r')) : r'.holding = r.holding ∧ r'.Stocked h := by
  obtain ⟨seat, -, hi, hfree, -, rfl⟩ := takeSeat_some hr ht
  have hsound := hs.rings _ seat hi
  refine ⟨?_, ?_⟩
  · have hset : (r.seats.set ticket.index (r.claimed seat)).flatMap (·.ring.toList) = r.inSeats := by
      rw [inSeats_set hi, inSeats_split hi]
      rfl
    simp only [holding, inSeats, hset, inHand]
  · have hclaimed : (r.claimed seat).Sound r.backlog := by
      refine ⟨hsound.whole, hsound.cap, ?_⟩
      intro hno
      cases hno
    have hset := hs.set_seat (i := ticket.index) hclaimed
    exact ⟨hset.backlog_pos, hset.rings, ⟨hset.hoard.whole, hset.hoard.bytes⟩, hset.limit⟩

end Room

end Nilo.Rooms
