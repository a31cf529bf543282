import Nilo.Room.Refs
import Nilo.Lib.Mailbox

/-!
# The rings of a room

The posts a seat or a room holds are the lists its rings stand for. Every operation keeps the
rings whole, and trades the references of what a room held for those of what it holds after.
-/

namespace Nilo.Rooms

open Lib (RingBuf Mailbox)
open Heap (Trade Covers)

/-! ## One seat -/

namespace Seat

variable {h : Heap} {seat : Seat} {backlog : Nat} {full : Full} {p : PostId}

/-- A seat as its connection sees it. -/
def box (seat : Seat) : Mailbox PostId := ⟨seat.ring.toList, seat.dropped⟩

/-- What `put` does not queue. -/
def refuses (h : Heap) (seat : Seat) (p : PostId) : Bool :=
  decide (seat.textOnly = true ∧ h.kind p = .binary)

structure Sound (backlog : Nat) (seat : Seat) : Prop where
  whole : seat.ring.Whole
  cap : seat.ring.slots.length = backlog
  free : seat.taken = false → seat.ring.toList = []

/-- What `put` changes. -/
theorem put_fields (h : Heap) (backlog : Nat) (full : Full) (seat : Seat) (p : PostId) :
    ∃ ring dropped, (seat.put h backlog full p).2 = { seat with ring := ring, dropped := dropped } := by
  unfold put queue miss
  split_ifs
  · exact ⟨_, _, rfl⟩
  · split
    · exact ⟨_, _, rfl⟩
    · split
      · exact ⟨_, _, rfl⟩
      · exact ⟨_, _, rfl⟩
  · exact ⟨_, _, rfl⟩

theorem queue_trade (hs : seat.ring.Whole) (hroom : seat.ring.count < seat.ring.slots.length)
    (hp : 0 < h.refs p) :
    Trade h (seat.queue h p).1 seat.ring.toList (seat.queue h p).2.ring.toList := by
  have hadd := (Heap.trade_addRef hp).context seat.ring.toList []
  simp only [List.append_nil] at hadd
  rw [queue, hs.toList_push hroom]
  exact hadd

/-- One post more in a seat, and one less if it was full. -/
theorem put_spec (hs : seat.Sound backlog) (hpos : 0 < backlog)
    (hcover : h.Covers (p :: seat.ring.toList)) :
    Trade h (seat.put h backlog full p).1 seat.ring.toList
        (seat.put h backlog full p).2.ring.toList ∧
      (seat.put h backlog full p).2.ring.Whole ∧
      (seat.put h backlog full p).2.ring.slots.length = backlog ∧
      (seat.put h backlog full p).2.box =
        seat.box.put backlog (decide (full = .dropOldest)) (seat.refuses h p) p := by
  have hcount : seat.ring.count = seat.ring.toList.length := hs.whole.count_eq
  have hp : 0 < h.refs p := hcover.pos (by simp)
  unfold put
  by_cases hrefuse : seat.textOnly = true ∧ h.kind p = .binary
  · rw [if_pos hrefuse]
    refine ⟨.refl h _, hs.whole, hs.cap, ?_⟩
    simp [box, miss, refuses, Mailbox.put, Mailbox.miss, hrefuse.1, hrefuse.2]
  rw [if_neg hrefuse]
  have hnot : seat.refuses h p = false := by simpa [refuses] using hrefuse
  by_cases hfull : seat.ring.count = backlog
  · rw [if_pos hfull]
    cases full with
    | dropNewest =>
      refine ⟨.refl h _, hs.whole, hs.cap, ?_⟩
      simp [box, miss, Mailbox.put, Mailbox.miss, hnot]
      omega
    | dropOldest =>
      obtain ⟨old, l, hcons⟩ := hs.whole.exists_cons (by omega)
      have hpop := hs.whole.toList_pop hcons
      have hold : 0 < h.refs old := hcover.pos (by simp [hcons])
      -- the speaker's own reference to `p` is there besides those in the ring
      have hrel : Trade h (h.release old) (p :: seat.ring.toList) (p :: l) := by
        have htrade := (Heap.trade_release hold).context [p] l
        rw [hcons]
        simpa using htrade
      have hp' : 0 < (h.release old).refs p := (hcover.trade hrel).pos (by simp)
      have hlen : seat.ring.pop.count < seat.ring.pop.slots.length := by
        simp only [RingBuf.pop, List.length_set, hs.cap]
        omega
      have hwhole : seat.ring.pop.Whole := hs.whole.pop hcons
      have hrel' : Trade h (h.release old) seat.ring.toList seat.ring.pop.toList := by
        have htrade := (Heap.trade_release hold).context [] l
        rw [hpop, hcons]
        simpa using htrade
      simp only [hs.whole.front_eq hcons]
      refine ⟨hrel'.trans ?_, hwhole.push hlen p, ?_, ?_⟩
      · exact @queue_trade _ { seat.miss with ring := seat.ring.pop } _ hwhole hlen hp'
      · simp [queue, miss, hs.cap]
      · simp only [box, queue, miss, hwhole.toList_push hlen, hpop, Mailbox.put, hnot, hcons]
        have hl : (old :: l).length = backlog := by rw [← hcons, ← hcount, hfull]
        simp [hl]
  · rw [if_neg hfull]
    have hfits := Lib.RingBuf.Holds.fits hs.whole
    have hroom : seat.ring.count < seat.ring.slots.length := by
      rw [hs.cap] at hfits ⊢
      omega
    refine ⟨queue_trade hs.whole hroom hp, hs.whole.push hroom p, ?_, ?_⟩
    · simp [queue, hs.cap]
    · have hne : seat.ring.toList.length ≠ backlog := by omega
      simp [box, queue, hs.whole.toList_push hroom, Mailbox.put, hnot, hne]

theorem drainGo_spec (n : Nat) (ring : RingBuf PostId) (hs : ring.Whole) (hn : ring.count = n)
    (h : Heap) (hcover : h.Covers ring.toList) :
    Trade h (drainGo n h ring).1 ring.toList [] ∧ (drainGo n h ring).2.Whole ∧
      (drainGo n h ring).2.toList = [] ∧
      (drainGo n h ring).2.slots.length = ring.slots.length := by
  induction n generalizing ring h with
  | zero =>
    have hnil : ring.toList = [] := by
      rw [← List.length_eq_zero_iff, ← hs.count_eq, hn]
    refine ⟨?_, hs, hnil, rfl⟩
    rw [hnil]
    exact .refl h []
  | succ n ih =>
    obtain ⟨p, l, hcons⟩ := hs.exists_cons (by omega)
    have hpop := hs.toList_pop hcons
    have hp : 0 < h.refs p := hcover.pos (by simp [hcons])
    have hrel : Trade h (h.release p) ring.toList ring.pop.toList := by
      have htrade := (Heap.trade_release hp).context [] l
      rw [hpop, hcons]
      simpa using htrade
    have hcount : ring.pop.count = n := by simp [RingBuf.pop, hn]
    obtain ⟨htrade, hwhole, hnil, hcap⟩ :=
      ih ring.pop (hs.pop hcons) hcount (h.release p) (hcover.trade hrel)
    simp only [drainGo, hs.front_eq hcons]
    exact ⟨hrel.trans htrade, hwhole, hnil, by rw [hcap, RingBuf.pop_length]⟩

/-- A seat that is given up holds nothing. -/
theorem drain_spec (hs : seat.Sound backlog) (hcover : h.Covers seat.ring.toList) :
    Trade h (seat.drain h).1 seat.ring.toList [] ∧ (seat.drain h).2.ring.Whole ∧
      (seat.drain h).2.ring.toList = [] ∧ (seat.drain h).2.ring.slots.length = backlog := by
  obtain ⟨htrade, hwhole, hnil, hcap⟩ :=
    drainGo_spec seat.ring.count seat.ring hs.whole rfl h hcover
  exact ⟨htrade, hwhole, hnil, by rw [← hs.cap]; exact hcap⟩

end Seat

/-! ## A room -/

namespace Room

variable {h h' : Heap} {r : Room} {p : PostId}

def inSeats (r : Room) : List PostId := r.seats.flatMap (·.ring.toList)

/-- The post a broadcast is handing out. -/
def inHand (r : Room) : List PostId := (r.roster.map (·.1)).toList

/-- Every reference the room holds. -/
def holding (r : Room) : List PostId := r.inSeats ++ r.kept.toList ++ r.inHand

/-- The kept posts: in their ring, and their bytes counted. -/
structure Hoard (h : Heap) (r : Room) : Prop where
  whole : r.kept.Whole
  bytes : r.keptBytes = (r.kept.toList.map h.size).sum

structure Stocked (h : Heap) (r : Room) : Prop where
  backlog_pos : 0 < r.backlog
  rings : ∀ (i : Nat) (seat : Seat), r.seats[i]? = some seat → seat.Sound r.backlog
  hoard : r.Hoard h
  limit : r.keptBytes ≤ r.keptLimit

theorem Hoard.resize (hs : r.Hoard h) (hsize : ∀ p ∈ r.kept.toList, h'.size p = h.size p) :
    r.Hoard h' := by
  refine ⟨hs.whole, ?_⟩
  rw [hs.bytes]
  congr 1
  exact List.map_congr_left fun p hp => (hsize p hp).symm

theorem Hoard.congr (hs : r.Hoard h) (hposts : h'.posts = h.posts) : r.Hoard h' :=
  hs.resize fun p _ => Heap.size_congr hposts p

theorem Stocked.resize (hs : r.Stocked h) (hsize : ∀ p ∈ r.kept.toList, h'.size p = h.size p) :
    r.Stocked h' :=
  ⟨hs.backlog_pos, hs.rings, hs.hoard.resize hsize, hs.limit⟩

theorem Stocked.congr (hs : r.Stocked h) (hposts : h'.posts = h.posts) : r.Stocked h' :=
  hs.resize fun p _ => Heap.size_congr hposts p

theorem inSeats_split {i : Nat} {seat : Seat} (hi : r.seats[i]? = some seat) :
    r.inSeats = (r.seats.take i).flatMap (·.ring.toList) ++ seat.ring.toList ++
      (r.seats.drop (i + 1)).flatMap (·.ring.toList) := by
  rw [inSeats]
  conv_lhs => rw [Lib.split_at hi]
  simp [List.flatMap_append]

theorem inSeats_set {i : Nat} {seat seat' : Seat} (hi : r.seats[i]? = some seat) :
    (r.seats.set i seat').flatMap (·.ring.toList) =
      (r.seats.take i).flatMap (·.ring.toList) ++ seat'.ring.toList ++
      (r.seats.drop (i + 1)).flatMap (·.ring.toList) := by
  rw [Lib.set_at hi]
  simp [List.flatMap_append]

/-- A change of what one seat holds, seen from the room. -/
theorem trade_seat {i : Nat} {seat seat' : Seat} (hi : r.seats[i]? = some seat)
    (ht : Trade h h' seat.ring.toList seat'.ring.toList) :
    Trade h h' r.holding { r with seats := r.seats.set i seat' }.holding := by
  have hctx := ht.context ((r.seats.take i).flatMap (·.ring.toList))
    ((r.seats.drop (i + 1)).flatMap (·.ring.toList) ++ (r.kept.toList ++ r.inHand))
  refine hctx.perm (List.Perm.of_eq ?_) (List.Perm.of_eq ?_)
  · rw [holding, inSeats_split hi]
    simp
  · rw [holding, inSeats, inSeats_set hi]
    simp [inHand]

theorem Stocked.set_seat (hs : r.Stocked h) {i : Nat} {seat' : Seat}
    (hseat : seat'.Sound r.backlog) : { r with seats := r.seats.set i seat' }.Stocked h := by
  refine ⟨hs.backlog_pos, ?_, ⟨hs.hoard.whole, hs.hoard.bytes⟩, hs.limit⟩
  intro j s hj
  rw [List.getElem?_set] at hj
  split_ifs at hj
  · cases hj
    exact hseat
  · exact hs.rings j s hj

/-- What one seat holds is held by the room, besides what is in hand. -/
theorem covers_seat {i : Nat} {seat : Seat} (hc : h.Covers r.holding)
    (hi : r.seats[i]? = some seat) : h.Covers (r.inHand ++ seat.ring.toList) := by
  refine hc.mono ?_
  intro q
  rw [holding, inSeats_split hi]
  simp only [List.count_append]
  omega

theorem putAt_eq {i : Nat} {seat : Seat} (hi : r.seats[i]? = some seat) :
    r.putAt h i p = ((seat.put h r.backlog r.full p).1,
      { r with seats := r.seats.set i (seat.put h r.backlog r.full p).2 }) := by
  rw [putAt, hi]

theorem putAt_spec {i : Nat} {seat : Seat} (hs : r.Stocked h) (hc : h.Covers r.holding)
    (hhand : r.inHand = [p]) (hi : r.seats[i]? = some seat) (htaken : seat.taken = true) :
    Trade h (r.putAt h i p).1 r.holding (r.putAt h i p).2.holding ∧
      (r.putAt h i p).2.Stocked (r.putAt h i p).1 := by
  have hcover : h.Covers (p :: seat.ring.toList) := by
    have hseat := covers_seat hc hi
    rwa [hhand] at hseat
  obtain ⟨htrade, hwhole, hcap, _⟩ := seat.put_spec (hs.rings i seat hi) hs.backlog_pos hcover
  obtain ⟨ring, dropped, hfields⟩ := seat.put_fields h r.backlog r.full p
  rw [putAt_eq hi]
  refine ⟨trade_seat hi htrade, ?_⟩
  refine (hs.set_seat ⟨hwhole, hcap, ?_⟩).congr htrade.posts
  intro hfree
  rw [hfields] at hfree
  rw [htaken] at hfree
  cases hfree

/-- A post that is taken was the oldest in the ring of the seat the ticket is for. -/
theorem take_some {ticket : Ticket} {r' : Room} (hs : r.Stocked h)
    (ht : r.take ticket = some (p, r')) :
    ∃ seat l, r.seats[ticket.index]? = some seat ∧ seat.taken = true ∧ seat.era = ticket.era ∧
      seat.ring.toList = p :: l ∧ seat.ring.pop.toList = l ∧
      r' = { r with seats := r.seats.set ticket.index { seat with ring := seat.ring.pop } } := by
  unfold take at ht
  split at ht
  · cases ht
  · rename_i seat hi
    split_ifs at ht with hgone hnone
    push Not at hgone
    have hwhole := (hs.rings _ seat hi).whole
    obtain ⟨q, l, hcons⟩ := hwhole.exists_cons (by omega)
    rw [hwhole.front_eq hcons] at ht
    cases ht
    exact ⟨seat, l, hi, by simpa using hgone.1, hgone.2, hcons, hwhole.toList_pop hcons, rfl⟩

theorem take_spec {ticket : Ticket} {r' : Room} (hs : r.Stocked h)
    (ht : r.take ticket = some (p, r')) :
    r'.Stocked h ∧ ∀ q, r.holding.count q = r'.holding.count q + [p].count q := by
  obtain ⟨seat, l, hi, htaken, _, hcons, hpop, rfl⟩ := take_some hs ht
  have hseat := hs.rings _ seat hi
  refine ⟨hs.set_seat ⟨hseat.whole.pop hcons, ?_, ?_⟩, ?_⟩
  · simpa using hseat.cap
  · intro hfree
    rw [htaken] at hfree
    cases hfree
  · intro q
    rw [holding, holding, inSeats_split hi, inSeats, inSeats_set hi, hcons, hpop]
    simp only [inHand, List.count_append, List.count_cons, List.count_nil]
    omega

end Room

/-! ## The kept posts -/

namespace Room

variable {h : Heap} {r : Room} {p : PostId}

/-- The same room but for what it keeps. -/
def SameButKept (r r' : Room) : Prop := ∃ kept bytes, r' = { r with kept := kept, keptBytes := bytes }

theorem SameButKept.trans {r' r'' : Room} (h₁ : r.SameButKept r') (h₂ : r'.SameButKept r'') :
    r.SameButKept r'' := by
  obtain ⟨_, _, rfl⟩ := h₁
  obtain ⟨kept, bytes, rfl⟩ := h₂
  exact ⟨kept, bytes, rfl⟩

/-- What an operation on the kept posts does: `l` is kept after it. -/
structure Keeping (h : Heap) (r : Room) (out : Heap × Room) (l : List PostId) : Prop where
  trade : Trade h out.1 r.kept.toList l
  hoard : out.2.Hoard out.1
  kept : out.2.kept.toList = l
  same : r.SameButKept out.2
  slots : out.2.kept.slots.length = r.kept.slots.length

theorem Keeping.trans {out out' : Heap × Room} {l l' : List PostId} (h₁ : Keeping h r out l)
    (h₂ : Keeping out.1 out.2 out' l') : Keeping h r out' l' := by
  refine ⟨?_, h₂.hoard, h₂.kept, h₁.same.trans h₂.same, h₂.slots.trans h₁.slots⟩
  have htrade := h₂.trade
  rw [h₁.kept] at htrade
  exact h₁.trade.trans htrade

/-- From the kept posts to all the room holds. -/
theorem Keeping.holding {out : Heap × Room} {l : List PostId} (hk : Keeping h r out l) :
    Trade h out.1 r.holding out.2.holding := by
  have hkept := hk.kept
  obtain ⟨kept, bytes, hsame⟩ := hk.same
  rw [hsame] at hkept
  have hctx := hk.trade.context r.inSeats r.inHand
  rw [← hkept] at hctx
  rw [hsame]
  exact hctx

theorem Keeping.stocked {out : Heap × Room} {l : List PostId} (hk : Keeping h r out l)
    (hs : r.Stocked h) (hlimit : out.2.keptBytes ≤ r.keptLimit) : out.2.Stocked out.1 := by
  have hhoard := hk.hoard
  obtain ⟨kept, bytes, hsame⟩ := hk.same
  rw [hsame] at hhoard hlimit ⊢
  exact ⟨hs.backlog_pos, hs.rings, hhoard, hlimit⟩

theorem forgetOldest_keeping {old : PostId} {l : List PostId} (hs : r.Hoard h)
    (hcons : r.kept.toList = old :: l) (hold : 0 < h.refs old) :
    Keeping h r (r.forgetOldest h) l := by
  have hrel := Heap.trade_release hold
  have heq : r.forgetOldest h =
      (h.release old, { r with kept := r.kept.pop, keptBytes := r.keptBytes - h.size old }) := by
    rw [forgetOldest, hs.whole.front_eq hcons]
  rw [heq]
  have hpop : r.kept.pop.toList = l := hs.whole.toList_pop hcons
  refine ⟨?_, ?_, hpop, ⟨_, _, rfl⟩, by simp⟩
  · have htrade := hrel.context [] l
    rw [hcons]
    simpa using htrade
  · have hhoard : Hoard h { r with kept := r.kept.pop, keptBytes := r.keptBytes - h.size old } := by
      refine ⟨hs.whole.pop hcons, ?_⟩
      simp only [hpop, hs.bytes, hcons, List.map_cons, List.sum_cons]
      omega
    exact hhoard.congr hrel.posts

theorem forgetGo_keeping (n : Nat) (h : Heap) (r : Room) (hs : r.Hoard h) (hn : r.kept.count = n)
    (hc : h.Covers r.kept.toList) : Keeping h r (forgetGo n h r) [] := by
  induction n generalizing h r with
  | zero =>
    have hnil : r.kept.toList = [] := by
      rw [← List.length_eq_zero_iff, ← hs.whole.count_eq, hn]
    rw [forgetGo]
    refine ⟨?_, hs, hnil, ⟨_, _, rfl⟩, rfl⟩
    rw [hnil]
    exact .refl h []
  | succ n ih =>
    obtain ⟨old, l, hcons⟩ := hs.whole.exists_cons (by omega)
    have hstep := forgetOldest_keeping hs hcons (hc.pos (by simp [hcons]))
    have hcount : (r.forgetOldest h).2.kept.count = n := by
      rw [hstep.hoard.whole.count_eq, hstep.kept]
      have hlen := hs.whole.count_eq
      rw [hcons, List.length_cons, hn] at hlen
      omega
    have hcover : (r.forgetOldest h).1.Covers (r.forgetOldest h).2.kept.toList := by
      rw [hstep.kept]
      exact hc.trade hstep.trade
    exact hstep.trans (ih _ _ hstep.hoard hcount hcover)

theorem forget_keeping (hs : r.Hoard h) (hc : h.Covers r.kept.toList) :
    Keeping h r (r.forget h) [] :=
  forgetGo_keeping r.kept.count h r hs rfl hc

/-- What is left of the kept posts is the newest of them, within the limit. -/
theorem trimGo_keeping (n : Nat) (h : Heap) (r : Room) (hs : r.Hoard h) (hn : r.kept.count = n)
    (hc : h.Covers r.kept.toList) :
    ∃ l, Keeping h r (trimGo n h r) l ∧ l <:+ r.kept.toList ∧
      (trimGo n h r).2.keptBytes ≤ r.keptLimit := by
  induction n generalizing h r with
  | zero =>
    have hnil : r.kept.toList = [] := by
      rw [← List.length_eq_zero_iff, ← hs.whole.count_eq, hn]
    refine ⟨[], ⟨?_, hs, hnil, ⟨_, _, rfl⟩, rfl⟩, by simp, ?_⟩
    · rw [hnil]
      exact .refl h []
    · have hbytes := hs.bytes
      rw [hnil] at hbytes
      simp only [trimGo]
      simp [hbytes]
  | succ n ih =>
    rw [trimGo]
    split_ifs with hmore
    · obtain ⟨old, l, hcons⟩ := hs.whole.exists_cons (by omega)
      have hstep := forgetOldest_keeping hs hcons (hc.pos (by simp [hcons]))
      have hcount : (r.forgetOldest h).2.kept.count = n := by
        rw [hstep.hoard.whole.count_eq, hstep.kept]
        have hlen := hs.whole.count_eq
        rw [hcons, List.length_cons, hn] at hlen
        omega
      have hcover : (r.forgetOldest h).1.Covers (r.forgetOldest h).2.kept.toList := by
        rw [hstep.kept]
        exact hc.trade hstep.trade
      have hlimit : (r.forgetOldest h).2.keptLimit = r.keptLimit := by
        obtain ⟨kept, bytes, hsame⟩ := hstep.same
        rw [hsame]
      obtain ⟨l', hkeep, hsuffix, hbytes⟩ := ih _ _ hstep.hoard hcount hcover
      refine ⟨l', hstep.trans hkeep, ?_, hlimit ▸ hbytes⟩
      rw [hstep.kept] at hsuffix
      rw [hcons]
      exact hsuffix.trans (List.suffix_cons old l)
    · exact ⟨_, ⟨.refl h _, hs, rfl, ⟨_, _, rfl⟩, rfl⟩, List.suffix_refl _, by simpa using hmore⟩

/-- The ring has a place for a post once the oldest of a full one is gone. -/
theorem makeRoom_keeping (hs : r.Hoard h) (hslots : r.kept.slots.length ≠ 0)
    (hc : h.Covers r.kept.toList) :
    ∃ l, Keeping h r (if r.kept.count = r.kept.slots.length then r.forgetOldest h else (h, r)) l ∧
      l <:+ r.kept.toList ∧ l.length < r.kept.slots.length := by
  have hcount := hs.whole.count_eq
  have hfits := Lib.RingBuf.Holds.fits hs.whole
  split_ifs with hfull
  · obtain ⟨old, l, hcons⟩ := hs.whole.exists_cons (by omega)
    refine ⟨l, forgetOldest_keeping hs hcons (hc.pos (by simp [hcons])), ?_, ?_⟩
    · rw [hcons]
      exact List.suffix_cons old l
    · rw [hcons, List.length_cons] at hcount
      omega
  · exact ⟨_, ⟨.refl h _, hs, rfl, ⟨_, _, rfl⟩, rfl⟩, List.suffix_refl _, by omega⟩

end Room

namespace Room

variable {h : Heap} {r : Room} {p : PostId}

/-- `keep`: the newest of what was kept and the post, within the limit. -/
theorem keep_keeping (hs : r.Hoard h) (hlimit : r.keptBytes ≤ r.keptLimit)
    (hslots : r.kept.slots.length ≠ 0) (hc : h.Covers (p :: r.kept.toList)) :
    ∃ l, Keeping h r (r.keep h p) l ∧ (l = r.kept.toList ∨ l <:+ r.kept.toList ++ [p]) ∧
      (r.keep h p).2.keptBytes ≤ r.keptLimit := by
  unfold keep
  by_cases hbig : h.size p > r.keptLimit
  · rw [if_pos hbig]
    exact ⟨_, ⟨.refl h _, hs, rfl, ⟨_, _, rfl⟩, rfl⟩, .inl rfl, hlimit⟩
  rw [if_neg hbig]
  dsimp only
  have hp : 0 < h.refs p := hc.pos (by simp)
  have hadd : Trade h (h.addRef p) r.kept.toList (r.kept.toList ++ [p]) := by
    simpa using (Heap.trade_addRef hp).context r.kept.toList []
  have hc₁ : (h.addRef p).Covers (r.kept.toList ++ [p]) := by
    refine Covers.trade (hc.mono ?_) hadd
    intro q
    simp [List.count_cons]
  have hkept₁ : (h.addRef p).Covers r.kept.toList := by
    refine hc₁.mono ?_
    intro q
    simp [List.count_append]
  obtain ⟨l, hroom, hsuffix, hlen⟩ := makeRoom_keeping (hs.congr hadd.posts) hslots hkept₁
  -- from here on with the ring that has a place for it
  generalize (if r.kept.count = r.kept.slots.length then r.forgetOldest (h.addRef p)
    else (h.addRef p, r)) = out₁ at hroom ⊢
  have hplace : out₁.2.kept.count < out₁.2.kept.slots.length := by
    rw [hroom.hoard.whole.count_eq, hroom.kept, hroom.slots]
    exact hlen
  have hpush := hroom.hoard.whole.toList_push hplace p
  rw [hroom.kept] at hpush
  have hhoard₂ : Hoard out₁.1 { out₁.2 with
      kept := out₁.2.kept.push p, keptBytes := out₁.2.keptBytes + out₁.1.size p } := by
    refine ⟨hroom.hoard.whole.push hplace p, ?_⟩
    simp only [hpush, hroom.hoard.bytes, hroom.kept, List.map_append, List.sum_append]
    simp
  have htrade₁ : Trade h out₁.1 r.kept.toList (l ++ [p]) := by
    refine hadd.trans ?_
    simpa using hroom.trade.context [] [p]
  have hc₂ : out₁.1.Covers (l ++ [p]) := hc₁.trade (by simpa using hroom.trade.context [] [p])
  obtain ⟨l', htrim, hsuffix', hbytes⟩ := trimGo_keeping _ out₁.1 _ hhoard₂ rfl (by rwa [hpush])
  dsimp only at htrim hsuffix' hbytes ⊢
  have hsame : r.SameButKept out₁.2 := hroom.same
  refine ⟨l', ⟨?_, htrim.hoard, htrim.kept, ?_, ?_⟩, .inr ?_, ?_⟩
  · have htrade₂ := htrim.trade
    dsimp only at htrade₂
    rw [hpush] at htrade₂
    exact htrade₁.trans htrade₂
  · exact hsame.trans (SameButKept.trans ⟨_, _, rfl⟩ htrim.same)
  · rw [htrim.slots]
    simp [hroom.slots]
  · rw [hpush] at hsuffix'
    refine hsuffix'.trans ?_
    obtain ⟨gone, hgone⟩ := hsuffix
    exact ⟨gone, by rw [← hgone, List.append_assoc]⟩
  · obtain ⟨kept, bytes, hr⟩ := hsame
    rw [hr] at hbytes
    rw [hr]
    exact hbytes

end Room

/-! ## What a stream that comes back is given -/

namespace Room

variable {h : Heap} {r : Room} {p : PostId} {lastId : Text.Bytes}

/-- The place `findKept` answers is the last with that id. -/
theorem findKept_eq (hs : r.kept.Whole) {before after : List PostId}
    (hkept : r.kept.toList = before ++ p :: after) (hid : h.id p = lastId)
    (hlast : ∀ q ∈ after, h.id q ≠ lastId) {n : Nat} (hlow : before.length < n)
    (hn : n ≤ r.kept.count) : r.findKept h lastId n = some before.length := by
  induction n with
  | zero => omega
  | succ n ih =>
    have hfits := Lib.RingBuf.Holds.fits hs
    have hcount := hs.count_eq
    have hget : r.kept.get n = r.kept.toList[n]? := hs.get_eq (by omega)
    rw [findKept, hget, hkept]
    by_cases hend : n = before.length
    · subst hend
      simp [hid]
    · have hmore : before.length < n := by omega
      have hlt : n < (before ++ p :: after).length := by
        rw [← hkept, ← hcount]
        omega
      obtain ⟨q, hq⟩ : ∃ q, (before ++ p :: after)[n]? = some q :=
        ⟨_, List.getElem?_eq_getElem hlt⟩
      have hmem : q ∈ after := by
        rw [List.getElem?_append_right (by omega)] at hq
        obtain ⟨m, hm⟩ : ∃ m, n - before.length = m + 1 := ⟨n - before.length - 1, by omega⟩
        rw [hm, List.getElem?_cons_succ] at hq
        exact List.mem_of_getElem? hq
      rw [hq]
      dsimp only
      rw [if_neg (hlast q hmem)]
      exact ih hmore (by omega)

/-- Every post after it, when there is room for all of them. -/
theorem keptAfter_eq (hs : r.kept.Whole) {before after : List PostId}
    (hkept : r.kept.toList = before ++ p :: after) (hid : h.id p = lastId) (hne : lastId ≠ [])
    (hlast : ∀ q ∈ after, h.id q ≠ lastId) {into : Nat} (hinto : after.length ≤ into) :
    (r.keptAfter h lastId into).2 = after := by
  have hcount : r.kept.count = before.length + (after.length + 1) := by
    rw [hs.count_eq, hkept]
    simp
  have hfind : r.findKept h lastId r.kept.count = some before.length :=
    findKept_eq hs hkept hid hlast (by omega) (Nat.le_refl _)
  have hgo : ¬(lastId = [] ∨ r.kept.count = 0) := by
    rintro (hnil | hzero)
    · exact hne hnil
    · omega
  rw [keptAfter, if_neg hgo, hfind]
  dsimp only
  rw [hs.read, hkept, List.take_of_length_le]
  · simp [List.drop_append]
  · simp only [List.length_drop, List.length_append, List.length_cons]
    omega

theorem findKept_congr {r' : Room} (hkept : r'.kept = r.kept) (h : Heap) (lastId : Text.Bytes)
    (n : Nat) : r'.findKept h lastId n = r.findKept h lastId n := by
  induction n with
  | zero => rfl
  | succ n ih => rw [findKept, findKept, hkept, ih]

/-- It is read off what is kept alone. -/
theorem keptAfter_congr {r' : Room} (hkept : r'.kept = r.kept) (h : Heap) (lastId : Text.Bytes)
    (into : Nat) : r'.keptAfter h lastId into = r.keptAfter h lastId into := by
  rw [keptAfter, keptAfter, hkept, findKept_congr hkept]

/-- Whatever is given was kept, and is held once more. -/
theorem keptAfter_spec (hs : r.kept.Whole) (hc : h.Covers r.kept.toList) (lastId : Text.Bytes)
    (into : Nat) :
    Trade h (r.keptAfter h lastId into).1 [] (r.keptAfter h lastId into).2 := by
  unfold keptAfter
  split_ifs
  · exact .refl h []
  · split
    · exact .refl h []
    · rename_i found _
      refine Heap.trade_addRefs _ ?_
      intro q hq
      rw [hs.read] at hq
      exact hc.pos (List.mem_of_mem_drop (List.mem_of_mem_take hq))

end Room

end Nilo.Rooms
