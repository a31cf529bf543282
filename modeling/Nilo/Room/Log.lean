import Nilo.Room.Whole

/-!
# The posts a room hands out

What a room hands out has an order: that in which the posts took the roster's lock. `begins` is
what one step adds to it and `collect` what a run does; `Logged` says that no post is in it twice
and that what the room keeps is among its text posts, in that order too.
-/

namespace Nilo.Rooms

open Heap (Trade Covers)
open Lib (Mailbox)

/-! ## What a post says stays -/

namespace Heap

variable {h : Heap}

theorem posts_addRef (h : Heap) (p : PostId) : (h.addRef p).posts = h.posts := by
  unfold addRef
  split
  · rfl
  · rename_i cell hcell
    exact posts_set hcell rfl

theorem posts_release (h : Heap) (p : PostId) : (h.release p).posts = h.posts := by
  unfold release
  split
  · rfl
  · rename_i cell hcell
    exact posts_set hcell rfl

theorem posts_addRefs (ps : List PostId) (h : Heap) : (ps.foldl addRef h).posts = h.posts := by
  induction ps generalizing h with
  | nil => rfl
  | cons p ps ih => rw [List.foldl_cons, ih, posts_addRef]

theorem kind_extend {h' : Heap} (hposts : h.posts <+: h'.posts) {p : Nat} (hp : p < h.length) :
    h'.kind p = h.kind p := by
  have hlt : p < h.posts.length := by simpa [posts] using hp
  obtain ⟨more, hmore⟩ := hposts
  rw [kind_eq, kind_eq, ← hmore, List.getElem?_append_left hlt]

end Heap

theorem Seat.posts_put (h : Heap) (backlog : Nat) (full : Full) (seat : Seat) (p : PostId) :
    (seat.put h backlog full p).1.posts = h.posts := by
  unfold Seat.put Seat.queue
  split_ifs
  · rfl
  · split
    · rfl
    · split
      · rfl
      · rw [Heap.posts_addRef, Heap.posts_release]
  · exact Heap.posts_addRef h p

theorem Seat.posts_drainGo (n : Nat) (h : Heap) (ring : Lib.RingBuf PostId) :
    (Seat.drainGo n h ring).1.posts = h.posts := by
  induction n generalizing h ring with
  | zero => rfl
  | succ n ih =>
    unfold Seat.drainGo
    split
    · rfl
    · rw [ih, Heap.posts_release]

namespace Room

variable (h : Heap) (r : Room) (p : PostId)

theorem posts_putAt (index : Nat) : (r.putAt h index p).1.posts = h.posts := by
  unfold putAt
  split
  · rfl
  · exact Seat.posts_put _ _ _ _ _

theorem posts_giveUp (ticket : Ticket) : (r.giveUp h ticket).1.posts = h.posts := by
  unfold giveUp
  split
  · rfl
  · split_ifs
    · rfl
    · exact Seat.posts_drainGo _ _ _

theorem posts_forgetOldest : (r.forgetOldest h).1.posts = h.posts := by
  unfold forgetOldest
  split
  · rfl
  · exact Heap.posts_release _ _

theorem posts_forgetGo (n : Nat) : (forgetGo n h r).1.posts = h.posts := by
  induction n generalizing h r with
  | zero => rfl
  | succ n ih =>
    rw [forgetGo]
    exact (ih _ _).trans (posts_forgetOldest h r)

theorem posts_trimGo (n : Nat) : (trimGo n h r).1.posts = h.posts := by
  induction n generalizing h r with
  | zero => rfl
  | succ n ih =>
    rw [trimGo]
    split_ifs
    · exact (ih _ _).trans (posts_forgetOldest h r)
    · rfl

theorem posts_keep : (r.keep h p).1.posts = h.posts := by
  unfold keep
  by_cases hbig : h.size p > r.keptLimit
  · rw [if_pos hbig]
  rw [if_neg hbig]
  dsimp only
  by_cases hfull : r.kept.count = r.kept.slots.length
  · rw [if_pos hfull, posts_trimGo, posts_forgetOldest, Heap.posts_addRef]
  · rw [if_neg hfull, posts_trimGo, Heap.posts_addRef]

theorem posts_keptAfter (lastId : Text.Bytes) (into : Nat) :
    (r.keptAfter h lastId into).1.posts = h.posts := by
  unfold keptAfter
  split_ifs
  · rfl
  · split
    · rfl
    · exact Heap.posts_addRefs _ _

end Room

namespace Floor

variable {f : Floor}

@[simp] theorem ring_heap (f : Floor) (waker : Option Nat) : (f.ring waker).heap = f.heap := by
  unfold Floor.ring
  split <;> rfl

@[simp] theorem ring_rooms (f : Floor) (waker : Option Nat) : (f.ring waker).rooms = f.rooms := by
  unfold Floor.ring
  split <;> rfl

@[simp] theorem ring_held (f : Floor) (waker : Option Nat) : (f.ring waker).held = f.held := by
  unfold Floor.ring
  split <;> rfl

@[simp] theorem ring_waiting (f : Floor) (waker : Option Nat) :
    (f.ring waker).waiting = f.waiting := by
  unfold Floor.ring
  split <;> rfl

theorem act_posts (hf : f.Whole) (a : Act) : f.heap.posts <+: (f.act a).heap.posts := by
  have hsame : ∀ {h' : Heap}, h'.posts = f.heap.posts → f.heap.posts <+: h'.posts := by
    intro h' heq
    exact heq ▸ List.prefix_refl _
  have hreserve : ∀ room post, f.heap.posts <+: (f.reserve room post).heap.posts := by
    intro room post
    unfold reserve
    split
    · exact List.prefix_refl _
    · split_ifs
      · exact List.prefix_refl _
      · exact ⟨[post], by simp [Heap.posts, Heap.alloc]⟩
  cases a with
  | sitAfter c room textOnly lastId into =>
    rcases hf.sitAfter_cases c room textOnly lastId into with heq |
      ⟨_, _, r, _, _, _, _, _, _, _, _, _, _, _, _, heq⟩
    · exact hsame (by rw [act, heq])
    · exact hsame (by rw [act, heq]; exact r.posts_keptAfter f.heap lastId into)
  | unlink c room =>
    rcases hf.unlink_cases c room with heq | ⟨_, _, _, _, _, _, _, _, _, _, _, _, _, heq⟩
    · exact hsame (by rw [act, heq])
    · exact hsame (by rw [act, heq])
  | giveUp c =>
    rcases f.giveUp_cases c with heq | ⟨_, _, ticket, r, _, _, _, _, heq⟩
    · exact hsame (by rw [act, heq])
    · exact hsame (by rw [act, heq]; exact r.posts_giveUp f.heap ticket)
  | say room kind data => exact hreserve room _
  | event room name id data =>
    rw [act, event]
    split_ifs
    · exact List.prefix_refl _
    · exact hreserve room _
  | handOut k =>
    rw [act, handOut]
    split
    · exact List.prefix_refl _
    · split
      · exact List.prefix_refl _
      · split_ifs <;> exact List.prefix_refl _
  | cancel k =>
    rw [act, cancel]
    split <;> exact List.prefix_refl _
  | put room canceled =>
    rcases f.put_cases room canceled with heq | ⟨r, p, place, index, _, _, _, _, hput⟩
    · exact hsame (by rw [act, heq])
    · rcases hput with ⟨_, heq⟩ | ⟨_, heq⟩
      · exact hsame (by rw [act, heq])
      · refine hsame ?_
        rw [act, heq, ring_heap]
        exact r.posts_putAt f.heap p index
  | close room =>
    rcases f.close_cases room with heq | ⟨r, p, _, out, _, _, _, hout, heq⟩
    · exact hsame (by rw [act, heq])
    · refine hsame ?_
      rw [act, heq]
      rcases hout with ⟨_, _, rfl⟩ | ⟨_, rfl⟩
      · exact r.posts_keep f.heap p
      · rfl
  | take c room canceled =>
    rcases f.take_cases c room canceled with ⟨heq, _⟩ | ⟨_, _, _, _, heq⟩
    · exact hsame (by rw [act, heq])
    · exact hsame (by rw [act, heq])
  | release k =>
    rw [act, release]
    split
    · exact List.prefix_refl _
    · exact hsame (Heap.posts_release _ _)
  | forget room =>
    rw [act, forget]
    split
    · exact List.prefix_refl _
    · split_ifs
      · exact List.prefix_refl _
      · exact hsame (Room.posts_forgetGo _ _ _)
  | look c => exact List.prefix_refl _

theorem run_posts (hf : f.Whole) (acts : List Act) : f.heap.posts <+: (f.run acts).heap.posts := by
  induction acts generalizing f with
  | nil => exact List.prefix_refl _
  | cons a acts ih => exact (act_posts hf a).trans (ih (hf.act a))

end Floor

/-! ## The posts a room hands out, in order -/

namespace Floor

/-- The post that a step begins to hand out in a room. -/
def begins (room : Nat) (f : Floor) : Act → List PostId
  | .handOut k =>
    match f.waiting[k]?, f.rooms[room]? with
    | some (room', p), some r => if room' = room ∧ r.roster = none then [p] else []
    | _, _ => []
  | _ => []

/-- The post that a step takes for a connection from a room. -/
def takes (c room : Nat) (f : Floor) : Act → List PostId
  | .take c' room' canceled =>
    if c' = c ∧ room' = room ∧ canceled = false then ((f.next c room).map (·.1)).toList else []
  | _ => []

/-- What the steps of a run do, one after another. -/
def collect (g : Floor → Act → List PostId) : Floor → List Act → List PostId
  | _, [] => []
  | f, a :: acts => g f a ++ collect g (f.act a) acts

variable {f : Floor} {room : Nat} {r : Room}

theorem begins_handOut {k room' : Nat} {p : PostId} (hk : f.waiting[k]? = some (room', p)) :
    f.begins room (.handOut k) =
      if room' = room ∧ (∃ r, f.rooms[room]? = some r ∧ r.roster = none) then [p] else [] := by
  unfold begins
  dsimp only
  rw [hk]
  cases hr : f.rooms[room]? with
  | none => simp
  | some r => simp

/-- A broadcast begins when the roster's lock is free. -/
theorem handOut_cases (f : Floor) (k : Nat) :
    f.handOut k = f ∧ (∀ room, f.begins room (.handOut k) = []) ∨
    ∃ room p r, f.waiting[k]? = some (room, p) ∧ f.rooms[room]? = some r ∧ r.roster = none ∧
      (∀ room', f.begins room' (.handOut k) = if room' = room then [p] else []) ∧
      f.handOut k = { f with
        rooms := f.rooms.set room { r with roster := some (p, 0) }
        waiting := f.waiting.eraseIdx k } := by
  unfold handOut
  cases hk : f.waiting[k]? with
  | none =>
    refine .inl ⟨rfl, ?_⟩
    intro room
    simp only [begins, hk]
  | some e =>
    obtain ⟨room, p⟩ := e
    dsimp only
    by_cases hfree : ∃ r, f.rooms[room]? = some r ∧ r.roster = none
    · obtain ⟨r, hr, hroster⟩ := hfree
      refine .inr ⟨room, p, r, rfl, hr, hroster, ?_, ?_⟩
      · intro room'
        rw [begins_handOut hk]
        by_cases hroom : room' = room
        · subst hroom
          rw [if_pos ⟨rfl, r, hr, hroster⟩, if_pos rfl]
        · rw [if_neg (fun h => hroom h.1.symm), if_neg hroom]
      · rw [hr]
        dsimp only
        rw [if_neg (by simpa using hroster)]
    · refine .inl ⟨?_, ?_⟩
      · cases hr : f.rooms[room]? with
        | none => rfl
        | some r =>
          dsimp only
          rw [if_pos (fun hroster => hfree ⟨r, hr, hroster⟩)]
      · intro room'
        rw [begins_handOut hk, if_neg]
        rintro ⟨rfl, hfree'⟩
        exact hfree hfree'

theorem reserve_cases (f : Floor) (room : Nat) (post : Post) :
    f.reserve room post = f ∨
    f.reserve room post = { f with
      heap := f.heap.alloc post, waiting := f.waiting ++ [(room, f.heap.length)] } := by
  unfold reserve
  split
  · exact .inl rfl
  · split_ifs
    · exact .inl rfl
    · exact .inr rfl

/-- Who waits to hand something out. -/
theorem act_waiting (hf : f.Whole) (a : Act) (room : Nat) :
    (f.act a).waiting = f.waiting ∧ f.begins room a = [] ∨
    (∃ room', (f.act a).waiting = f.waiting ++ [(room', f.heap.length)] ∧
      (f.act a).heap.length = f.heap.length + 1 ∧ f.begins room a = []) ∨
    ∃ k e, f.waiting[k]? = some e ∧ (f.act a).waiting = f.waiting.eraseIdx k ∧
      (f.begins room a = [] ∨ f.begins room a = [e.2]) := by
  have hreserve : ∀ room' post, (f.reserve room' post).waiting = f.waiting ∨
      (f.reserve room' post).waiting = f.waiting ++ [(room', f.heap.length)] ∧
      (f.reserve room' post).heap.length = f.heap.length + 1 := by
    intro room' post
    rcases f.reserve_cases room' post with heq | heq
    · exact .inl (by rw [heq])
    · exact .inr ⟨by rw [heq], by rw [heq]; simp [Heap.alloc]⟩
  cases a with
  | sitAfter c room' textOnly lastId into =>
    rcases hf.sitAfter_cases c room' textOnly lastId into with heq |
      ⟨_, _, r, _, _, _, _, _, _, _, _, _, _, _, _, heq⟩
    · exact .inl ⟨by rw [act, heq], rfl⟩
    · exact .inl ⟨by rw [act, heq], rfl⟩
  | unlink c room' =>
    rcases hf.unlink_cases c room' with heq | ⟨_, _, _, _, _, _, _, _, _, _, _, _, _, heq⟩
    · exact .inl ⟨by rw [act, heq], rfl⟩
    · exact .inl ⟨by rw [act, heq], rfl⟩
  | giveUp c =>
    rcases f.giveUp_cases c with heq | ⟨_, _, _, _, _, _, _, _, heq⟩
    · exact .inl ⟨by rw [act, heq], rfl⟩
    · exact .inl ⟨by rw [act, heq], rfl⟩
  | say room' kind data =>
    rcases hreserve room' ⟨kind, [], [], data⟩ with heq | ⟨heq, hlen⟩
    · exact .inl ⟨heq, rfl⟩
    · exact .inr (.inl ⟨room', heq, hlen, rfl⟩)
  | event room' name id data =>
    rw [act, event]
    split_ifs
    · exact .inl ⟨rfl, rfl⟩
    · rcases hreserve room' ⟨.text, name, id, data⟩ with heq | ⟨heq, hlen⟩
      · exact .inl ⟨heq, rfl⟩
      · exact .inr (.inl ⟨room', heq, hlen, rfl⟩)
  | handOut k =>
    rcases f.handOut_cases k with ⟨heq, hnone⟩ | ⟨room', p, r, hk, _, _, hbegins, heq⟩
    · exact .inl ⟨by rw [act, heq], hnone room⟩
    · refine .inr (.inr ⟨k, (room', p), hk, by rw [act, heq], ?_⟩)
      rw [hbegins]
      split_ifs
      · exact .inr rfl
      · exact .inl rfl
  | cancel k =>
    rw [act, cancel]
    cases hk : f.waiting[k]? with
    | none => exact .inl ⟨rfl, rfl⟩
    | some e => exact .inr (.inr ⟨k, e, hk, rfl, .inl rfl⟩)
  | put room' canceled =>
    rcases f.put_cases room' canceled with heq | ⟨_, _, _, _, _, _, _, _, hput⟩
    · exact .inl ⟨by rw [act, heq], rfl⟩
    · rcases hput with ⟨_, heq⟩ | ⟨_, heq⟩
      · exact .inl ⟨by rw [act, heq], rfl⟩
      · exact .inl ⟨by rw [act, heq, ring_waiting], rfl⟩
  | close room' =>
    rcases f.close_cases room' with heq | ⟨_, _, _, _, _, _, _, _, heq⟩
    · exact .inl ⟨by rw [act, heq], rfl⟩
    · exact .inl ⟨by rw [act, heq], rfl⟩
  | take c room' canceled =>
    rcases f.take_cases c room' canceled with ⟨heq, _⟩ | ⟨_, _, _, _, heq⟩
    · exact .inl ⟨by rw [act, heq], rfl⟩
    · exact .inl ⟨by rw [act, heq], rfl⟩
  | release k =>
    refine .inl ⟨?_, rfl⟩
    rw [act, release]
    split <;> rfl
  | forget room' =>
    refine .inl ⟨?_, rfl⟩
    rw [act, forget]
    split
    · rfl
    · split_ifs <;> rfl
  | look c => exact .inl ⟨rfl, rfl⟩

end Floor

namespace Floor

/-- What a step does to a room's broadcast and to what it keeps. -/
inductive RoomStep (f : Floor) (r r' : Room) : List PostId → Prop where
  | same : r'.roster = r.roster → r'.kept.toList.Sublist r.kept.toList → RoomStep f r r' []
  | first (p : PostId) : r.roster = none → r'.roster = some (p, 0) → r'.kept = r.kept →
      RoomStep f r r' [p]
  | next (p : PostId) (place : Nat) : r.roster = some (p, place) →
      r'.roster = some (p, place + 1) → r'.kept = r.kept → RoomStep f r r' []
  | last (p : PostId) (place : Nat) : r.roster = some (p, place) → r'.roster = none →
      (r'.kept.toList = r.kept.toList ∨
        f.heap.kind p = .text ∧ r'.kept.toList <:+ r.kept.toList ++ [p]) → RoomStep f r r' []

variable {f : Floor} {room : Nat} {r : Room}

/-- A step on another room, or on this one. -/
theorem exists_set {rooms : List Room} {room' : Nat} {r₀ r₁ : Room} (hr : rooms[room]? = some r)
    (hr₀ : rooms[room']? = some r₀) {P : Room → Prop} (hother : room' ≠ room → P r)
    (hself : room' = room → r₀ = r → P r₁) :
    ∃ r', (rooms.set room' r₁)[room]? = some r' ∧ P r' := by
  rw [List.getElem?_set]
  split_ifs with heq hlt
  · subst heq
    rw [hr] at hr₀
    cases hr₀
    exact ⟨r₁, rfl, hself rfl rfl⟩
  · subst heq
    exact absurd (List.getElem?_eq_some_iff.mp hr).1 hlt
  · exact ⟨r, hr, hother heq⟩

theorem act_room (hf : f.Whole) (hr : f.rooms[room]? = some r) (a : Act) :
    ∃ r', (f.act a).rooms[room]? = some r' ∧ RoomStep f r r' (f.begins room a) := by
  have hsame : RoomStep f r r [] := .same rfl (List.Sublist.refl _)
  cases a with
  | sitAfter c room' textOnly lastId into =>
    rcases hf.sitAfter_cases c room' textOnly lastId into with heq |
      ⟨_, _, r₀, _, _, _, _, _, _, hr₀, _, _, _, _, _, heq⟩
    · exact ⟨r, by rw [act, heq]; exact hr, hsame⟩
    · rw [act, heq]
      refine exists_set hr hr₀ (fun _ => hsame) ?_
      rintro rfl rfl
      exact .same rfl (List.Sublist.refl _)
  | unlink c room' =>
    rcases hf.unlink_cases c room' with heq | ⟨_, _, _, _, _, _, rooms', _, _, _, _, hrel, _, heq⟩
    · exact ⟨r, by rw [act, heq]; exact hr, hsame⟩
    · rw [act, heq]
      dsimp only
      obtain ⟨r', hr'⟩ : ∃ r', rooms'[room]? = some r' := by
        refine ⟨_, List.getElem?_eq_getElem ?_⟩
        rw [hrel.length_eq]
        exact (List.getElem?_eq_some_iff.mp hr).1
      have hkept : r'.roster = r.roster ∧ r'.kept = r.kept := by
        refine hrel.getElem? (P := fun r' => r'.roster = r.roster ∧ r'.kept = r.kept) hr' ?_ ?_
        · exact fun _ _ _ h => h
        · intro r₁ hr₁
          rw [hr] at hr₁
          cases hr₁
          exact ⟨rfl, rfl⟩
      exact ⟨r', hr', .same hkept.1 (by rw [hkept.2])⟩
  | giveUp c =>
    rcases f.giveUp_cases c with heq | ⟨conn, room', ticket, r₀, hconn, hleaving, hr₀, _, heq⟩
    · exact ⟨r, by rw [act, heq]; exact hr, hsame⟩
    · rw [act, heq]
      refine exists_set hr hr₀ (fun _ => hsame) ?_
      rintro rfl rfl
      obtain ⟨seat, hseat, htaken, hera, _⟩ := hf.leaving_seat hconn hleaving hr₀
      rw [Room.giveUp_eq hseat htaken hera]
      refine .same (Room.giveUpSlot_roster _ _ _) ?_
      rw [Room.giveUpSlot_kept]
  | say room' kind data =>
    rcases f.reserve_cases room' ⟨kind, [], [], data⟩ with heq | heq
    · exact ⟨r, by rw [act, heq]; exact hr, hsame⟩
    · exact ⟨r, by rw [act, heq]; exact hr, hsame⟩
  | event room' name id data =>
    rw [act, event]
    split_ifs
    · exact ⟨r, hr, hsame⟩
    · rcases f.reserve_cases room' ⟨.text, name, id, data⟩ with heq | heq
      · exact ⟨r, by rw [heq]; exact hr, hsame⟩
      · exact ⟨r, by rw [heq]; exact hr, hsame⟩
  | handOut k =>
    rcases f.handOut_cases k with ⟨heq, hnone⟩ | ⟨room', p, r₀, hk, hr₀, hroster, hbegins, heq⟩
    · rw [hnone]
      exact ⟨r, by rw [act, heq]; exact hr, hsame⟩
    · rw [act, heq, hbegins]
      refine exists_set hr hr₀ ?_ ?_
      · intro hne
        rw [if_neg (Ne.symm hne)]
        exact hsame
      · rintro rfl rfl
        rw [if_pos rfl]
        exact .first p hroster rfl rfl
  | cancel k =>
    refine ⟨r, ?_, hsame⟩
    rw [act, cancel]
    split <;> exact hr
  | put room' canceled =>
    rcases f.put_cases room' canceled with heq | ⟨r₀, p, place, index, hr₀, hroster, hlt, hi, hput⟩
    · exact ⟨r, by rw [act, heq]; exact hr, hsame⟩
    · rcases hput with ⟨_, heq⟩ | ⟨_, heq⟩
      · rw [act, heq]
        refine exists_set hr hr₀ (fun _ => hsame) ?_
        rintro rfl rfl
        exact .next p place hroster rfl rfl
      · rw [act, heq, ring_rooms]
        refine exists_set hr hr₀ (fun _ => hsame) ?_
        rintro rfl rfl
        obtain ⟨seat, hseat, _⟩ := hf.putAt_sound hr₀ hroster hlt hi
        refine .next p place hroster rfl ?_
        rw [Room.putAt_eq hseat]
  | close room' =>
    rcases f.close_cases room' with heq | ⟨r₀, p, place, out, hr₀, hroster, _, hout, heq⟩
    · exact ⟨r, by rw [act, heq]; exact hr, hsame⟩
    · rw [act, heq]
      refine exists_set hr hr₀ (fun _ => hsame) ?_
      rintro rfl rfl
      obtain ⟨l, hkeep, hl, _⟩ := hf.close_keeping hr₀ hroster hout
      refine .last p place hroster rfl ?_
      dsimp only
      rw [hkeep.kept]
      rcases hout with ⟨_, htext, _⟩ | ⟨_, hout⟩
      · rcases hl with hl | hl
        · exact .inl hl
        · exact .inr ⟨htext, hl⟩
      · rw [hout] at hkeep
        exact .inl hkeep.kept.symm
  | take c room' canceled =>
    rcases f.take_cases c room' canceled with ⟨heq, _⟩ | ⟨p, r₁, _, hnext, heq⟩
    · exact ⟨r, by rw [act, heq]; exact hr, hsame⟩
    · obtain ⟨conn, ticket, r₀, _, _, _, hr₀, htake⟩ := next_some hnext
      rw [act, heq]
      refine exists_set hr hr₀ (fun _ => hsame) ?_
      rintro rfl rfl
      obtain ⟨seat, l, _, _, _, _, _, rfl⟩ := Room.take_some (hf.rooms _ _ hr₀).stocked htake
      exact .same rfl (List.Sublist.refl _)
  | release k =>
    refine ⟨r, ?_, hsame⟩
    rw [act, release]
    split <;> exact hr
  | forget room' =>
    rw [act, forget]
    split
    · exact ⟨r, hr, hsame⟩
    · rename_i r₀ hr₀
      split_ifs
      · exact ⟨r, hr, hsame⟩
      · refine exists_set hr hr₀ (fun _ => hsame) ?_
        rintro rfl rfl
        have hstocked := (hf.rooms _ _ hr₀).stocked
        have hcover : f.heap.Covers r₀.kept.toList := by
          refine (hf.covers hr₀).mono ?_
          intro q
          simp only [Room.holding, List.count_append]
          omega
        have hkeep := Room.forget_keeping hstocked.hoard hcover
        refine .same ?_ ?_
        · obtain ⟨kept, bytes, heq⟩ := hkeep.same
          rw [heq]
        · rw [hkeep.kept]
          exact List.nil_sublist _
  | look c => exact ⟨r, hr, hsame⟩

end Floor

namespace Floor

/-- Rooms are there from the start. -/
theorem act_length {f : Floor} (hf : f.Whole) (a : Act) :
    (f.act a).rooms.length = f.rooms.length := by
  cases a with
  | sitAfter c room textOnly lastId into =>
    rcases hf.sitAfter_cases c room textOnly lastId into with heq |
      ⟨_, _, _, _, _, _, _, _, _, _, _, _, _, _, _, heq⟩
    · rw [act, heq]
    · rw [act, heq, List.length_set]
  | unlink c room =>
    rcases hf.unlink_cases c room with heq | ⟨_, _, _, _, _, _, _, _, _, _, _, hrel, _, heq⟩
    · rw [act, heq]
    · rw [act, heq, hrel.length_eq]
  | giveUp c =>
    rcases f.giveUp_cases c with heq | ⟨_, _, _, _, _, _, _, _, heq⟩
    · rw [act, heq]
    · rw [act, heq, List.length_set]
  | say room kind data =>
    rcases f.reserve_cases room ⟨kind, [], [], data⟩ with heq | heq
    · rw [act, heq]
    · rw [act, heq]
  | event room name id data =>
    rw [act, event]
    split_ifs
    · rfl
    · rcases f.reserve_cases room ⟨.text, name, id, data⟩ with heq | heq <;> rw [heq]
  | handOut k =>
    rcases f.handOut_cases k with ⟨heq, _⟩ | ⟨_, _, _, _, _, _, _, heq⟩
    · rw [act, heq]
    · rw [act, heq, List.length_set]
  | cancel k =>
    rw [act, cancel]
    split <;> rfl
  | put room canceled =>
    rcases f.put_cases room canceled with heq | ⟨_, _, _, _, _, _, _, _, ⟨_, heq⟩ | ⟨_, heq⟩⟩
    · rw [act, heq]
    · rw [act, heq, List.length_set]
    · rw [act, heq, ring_rooms, List.length_set]
  | close room =>
    rcases f.close_cases room with heq | ⟨_, _, _, _, _, _, _, _, heq⟩
    · rw [act, heq]
    · rw [act, heq, List.length_set]
  | take c room canceled =>
    rcases f.take_cases c room canceled with ⟨heq, _⟩ | ⟨_, _, _, _, heq⟩
    · rw [act, heq]
    · rw [act, heq, List.length_set]
  | release k =>
    rw [act, release]
    split <;> rfl
  | forget room =>
    rw [act, forget]
    split
    · rfl
    · split_ifs
      · rfl
      · exact List.length_set
  | look c => rfl

end Floor

/-! ## A room's log, and what it keeps of it -/

/-- The text posts of a list. -/
def texts (h : Heap) (l : List PostId) : List PostId := l.filter fun p => decide (h.kind p = .text)

theorem texts_append (h : Heap) (l l' : List PostId) : texts h (l ++ l') = texts h l ++ texts h l' :=
  List.filter_append ..

theorem texts_extend {h h' : Heap} (hposts : h.posts <+: h'.posts) {l : List PostId}
    (hl : ∀ p ∈ l, p < h.length) : texts h' l = texts h l := by
  refine List.filter_congr ?_
  intro p hp
  rw [Heap.kind_extend hposts (hl p hp)]

theorem length_le_of_posts {h h' : Heap} (hposts : h.posts <+: h'.posts) :
    h.length ≤ h'.length := by
  simpa [Heap.posts] using hposts.length_le

namespace Floor

variable {f : Floor} {room : Nat} {r : Room} {log : List PostId}

/-- `log` is what the room has handed out: each post once, none of them waiting any more, and what
the room keeps is among its text posts, in order. -/
structure Logged (f : Floor) (room : Nat) (log : List PostId) : Prop where
  nodup : (log ++ f.waiting.map (·.2)).Nodup
  known : ∀ p ∈ log ++ f.waiting.map (·.2), p < f.heap.length
  free : ∀ r, f.rooms[room]? = some r → r.roster = none →
    r.kept.toList.Sublist (texts f.heap log)
  busy : ∀ r, f.rooms[room]? = some r → ∀ p place, r.roster = some (p, place) →
    ∃ before, log = before ++ [p] ∧ r.kept.toList.Sublist (texts f.heap before)

theorem eraseIdx_perm {α β : Type} [DecidableEq β] {l : List α} {k : Nat} {a : α} {w : α → β}
    (hk : l[k]? = some a) : (w a :: (l.eraseIdx k).map w).Perm (l.map w) := by
  rw [List.perm_iff_count]
  intro q
  have hgone := count_eraseIdx (w := w) hk q
  rw [List.count_cons]
  rw [List.count_singleton] at hgone
  exact hgone

/-- The posts handed out and those that wait are different, and there. -/
theorem Logged.fresh (hf : f.Whole) (hl : f.Logged room log) (a : Act) :
    (log ++ f.begins room a ++ (f.act a).waiting.map (·.2)).Nodup ∧
    ∀ p ∈ log ++ f.begins room a ++ (f.act a).waiting.map (·.2), p < (f.act a).heap.length := by
  have hle : f.heap.length ≤ (f.act a).heap.length := length_le_of_posts (act_posts hf a)
  have hknown : ∀ p ∈ log ++ f.waiting.map (·.2), p < (f.act a).heap.length := by
    intro p hp
    exact Nat.lt_of_lt_of_le (hl.known p hp) hle
  rcases act_waiting hf a room with ⟨hwaiting, hbegins⟩ | ⟨room', hwaiting, hlen, hbegins⟩ |
    ⟨k, e, hk, hwaiting, hbegins⟩
  · rw [hwaiting, hbegins, List.append_nil]
    exact ⟨hl.nodup, hknown⟩
  · rw [hwaiting, hbegins, List.append_nil, List.map_append, ← List.append_assoc]
    have hnew : f.heap.length ∉ log ++ f.waiting.map (·.2) := by
      intro hmem
      exact absurd (hl.known _ hmem) (Nat.lt_irrefl _)
    refine ⟨?_, ?_⟩
    · rw [List.nodup_append]
      refine ⟨hl.nodup, by simp, ?_⟩
      intro p hp q hq heq
      rw [List.map_cons, List.map_nil, List.mem_singleton] at hq
      rw [heq, hq] at hp
      exact hnew hp
    · intro p hp
      rcases List.mem_append.mp hp with hp | hp
      · exact hknown p hp
      · rw [List.map_cons, List.map_nil, List.mem_singleton] at hp
        rw [hp, hlen]
        exact Nat.lt_succ_self _
  · have hperm := eraseIdx_perm (w := (·.2)) hk
    rw [hwaiting]
    have hall : (log ++ [e.2] ++ (f.waiting.eraseIdx k).map (·.2)).Perm
        (log ++ f.waiting.map (·.2)) := by
      rw [List.append_assoc, List.singleton_append]
      exact hperm.append_left log
    have hsub : (log ++ f.begins room a ++ (f.waiting.eraseIdx k).map (·.2)).Sublist
        (log ++ [e.2] ++ (f.waiting.eraseIdx k).map (·.2)) := by
      refine List.Sublist.append_right ?_ _
      refine List.Sublist.append_left ?_ _
      rcases hbegins with hb | hb <;> simp [hb]
    refine ⟨(hall.nodup_iff.mpr hl.nodup).sublist hsub, ?_⟩
    intro p hp
    exact hknown p (hall.mem_iff.mp (hsub.subset hp))

theorem Logged.act (hf : f.Whole) (hl : f.Logged room log) (a : Act) :
    (f.act a).Logged room (log ++ f.begins room a) := by
  obtain ⟨hnodup, hknown⟩ := hl.fresh hf a
  have hlog : ∀ l, l <+: log → texts (f.act a).heap l = texts f.heap l := by
    intro l hahead
    refine texts_extend (act_posts hf a) ?_
    intro p hp
    exact hl.known p (List.mem_append_left _ (hahead.subset hp))
  have hcases : ∀ r', (f.act a).rooms[room]? = some r' →
      ∃ r, f.rooms[room]? = some r ∧ RoomStep f r r' (f.begins room a) := by
    intro r' hr'
    have hlen : (f.act a).rooms.length = f.rooms.length := act_length hf a
    have hlt : room < f.rooms.length := by
      rw [← hlen]
      exact (List.getElem?_eq_some_iff.mp hr').1
    obtain ⟨r₁, hr₁, hstep⟩ := act_room hf (List.getElem?_eq_getElem hlt) a
    rw [hr'] at hr₁
    cases hr₁
    exact ⟨_, List.getElem?_eq_getElem hlt, hstep⟩
  refine ⟨hnodup, hknown, ?_, ?_⟩
  · intro r' hr' hnone
    obtain ⟨r, hr, hstep⟩ := hcases r' hr'
    generalize f.begins room a = begun at hstep ⊢
    cases hstep with
    | same hroster hkept =>
      rw [List.append_nil, hlog log (List.prefix_refl _)]
      exact hkept.trans (hl.free r hr (hroster.symm.trans hnone))
    | first p _ hsome _ =>
      rw [hnone] at hsome
      cases hsome
    | next p place _ hsome _ =>
      rw [hnone] at hsome
      cases hsome
    | last p place hroster _ hkept =>
      rw [List.append_nil, hlog log (List.prefix_refl _)]
      obtain ⟨before, rfl, hsub⟩ := hl.busy r hr p place hroster
      rw [texts_append]
      rcases hkept with hkept | ⟨htext, hsuffix⟩
      · rw [hkept]
        exact hsub.trans (List.sublist_append_left _ _)
      · refine hsuffix.sublist.trans (hsub.append ?_)
        simp [texts, htext]
  · intro r' hr' p place hsome
    obtain ⟨r, hr, hstep⟩ := hcases r' hr'
    generalize f.begins room a = begun at hstep ⊢
    cases hstep with
    | same hroster hkept =>
      obtain ⟨before, hbefore, hsub⟩ := hl.busy r hr p place (hroster.symm.trans hsome)
      refine ⟨before, by rw [List.append_nil, hbefore], hkept.trans ?_⟩
      rw [hlog before (hbefore ▸ List.prefix_append _ _)]
      exact hsub
    | first q hnone hroster hkept =>
      rw [hsome] at hroster
      cases hroster
      refine ⟨log, rfl, ?_⟩
      rw [hkept, hlog log (List.prefix_refl _)]
      exact hl.free r hr hnone
    | next q place' hroster hroster' hkept =>
      rw [hsome] at hroster'
      cases hroster'
      obtain ⟨before, hbefore, hsub⟩ := hl.busy r hr _ _ hroster
      refine ⟨before, by rw [List.append_nil, hbefore], ?_⟩
      rw [hkept, hlog before (hbefore ▸ List.prefix_append _ _)]
      exact hsub
    | last q place' _ hnone _ =>
      rw [hsome] at hnone
      cases hnone

theorem Logged.run (hf : f.Whole) (hl : f.Logged room log) (acts : List Act) :
    (f.run acts).Logged room (log ++ collect (begins room) f acts) := by
  induction acts generalizing f log with
  | nil =>
    rw [collect, List.append_nil]
    exact hl
  | cons a acts ih =>
    have hrun := ih (hf.act a) (hl.act hf a)
    rw [collect, ← List.append_assoc]
    exact hrun

theorem start_logged (rooms : List Options) (conns room : Nat) :
    (start rooms conns).Logged room [] := by
  refine ⟨by simp [start], by simp [start], ?_, ?_⟩
  · intro r hr _
    rw [start, List.getElem?_map, Option.map_eq_some_iff] at hr
    obtain ⟨o, -, rfl⟩ := hr
    exact List.Sublist.refl _
  · intro r hr p place hroster
    rw [start, List.getElem?_map, Option.map_eq_some_iff] at hr
    obtain ⟨o, -, rfl⟩ := hr
    cases hroster

end Floor

end Nilo.Rooms
