import Nilo.Job.Memory

/-!
# Runs of the queue

Any sequence of operations with any arguments. `Edit` says once what an operation makes of
the slot it changes, `next_cases` that an operation changes one slot so, fills a free one
with a new row, empties the slots of the dead it sweeps, or changes nothing. From it:

* the numbers of the rows stay different, and no two queued or running rows of a kind hold
  one unique key (`Kept`);
* a row leaves only by `done`, `cancel` or `sweepDead`;
* a refused push and a claim without memory change nothing;
* a claim takes the row that is ahead of every other it may take, and finds none just when
  there is none.
-/

namespace Nilo.Job

open Text (Bytes)

/-! ## Operations and what they make of a slot -/

inductive Op where
  | push (kind : Kind) (payload : Bytes) (enq : Enqueue)
  | claim (room : Bool) (kinds : List Kind) (now leaseUntil : Int)
  | done (id : Id) (attempts : Nat)
  | retry (id : Id) (attempts : Nat) (runAt : Int) (err : Bytes)
  | dead (id : Id) (attempts : Nat) (err : Bytes) (now : Int)
  | unkey (id : Id) (attempts : Nat)
  | release (id : Id) (attempts : Nat)
  | cancel (id : Id)
  | retryDead (id : Id) (now : Int) (scheduledKinds : List Kind)
  | sweepDead (before : Int)
deriving DecidableEq, Repr

/-- The operations a row may leave the queue by. -/
def Op.removes : Op → Bool
  | .done _ _ | .cancel _ | .sweepDead _ => true
  | _ => false

namespace Memory

def next (m : Memory) : Op → Memory
  | .push kind payload enq => (m.push kind payload enq).2
  | .claim room kinds now leaseUntil => (m.claim room kinds now leaseUntil).2
  | .done id attempts => (m.done id attempts).2
  | .retry id attempts runAt err => (m.retry id attempts runAt err).2
  | .dead id attempts err now => (m.dead id attempts err now).2
  | .unkey id attempts => (m.unkey id attempts).2
  | .release id attempts => (m.release id attempts).2
  | .cancel id => (m.cancel id).2
  | .retryDead id now scheduledKinds => (m.retryDead id now scheduledKinds).2
  | .sweepDead before => (m.sweepDead before).2

/-- The queue after a sequence of operations. -/
def after (m : Memory) : List Op → Memory
  | [] => m
  | op :: rest => (m.next op).after rest

end Memory

/-- What an operation makes of the one slot it changes. -/
inductive Edit : Op → Slot → Slot → Prop where
  | claimed {s : Slot} {kinds : List Kind} {now : Int} (room : Bool) (leaseUntil : Int) :
      s.claimable kinds now = true →
      Edit (.claim room kinds now leaseUntil) s (Memory.taken s leaseUntil)
  | done {s : Slot} : s.state = .running → Edit (.done s.id s.attempts) s {}
  | retried {s : Slot} (runAt : Int) (err : Bytes) : s.state = .running →
      Edit (.retry s.id s.attempts runAt err) s
        ({ s with state := .queued, runAt, leaseUntil := 0 }.setError err)
  | died {s : Slot} (err : Bytes) (now : Int) : s.state = .running →
      Edit (.dead s.id s.attempts err now) s
        ({ s with state := .dead, finishedAt := now, leaseUntil := 0, unique := [] }.setError err)
  | unkeyed {s : Slot} : s.state = .running →
      Edit (.unkey s.id s.attempts) s { s with unique := [] }
  | released {s : Slot} : s.state = .running →
      Edit (.release s.id s.attempts) s
        { s with state := .queued, leaseUntil := 0, attempts := s.attempts - 1 }
  | cancelled {s : Slot} : s.state = .queued → Edit (.cancel s.id) s { s with state := .free }
  | revived {s : Slot} (now : Int) {scheduledKinds : List Kind} : s.state = .dead →
      scheduledKinds.contains s.kind = false →
      Edit (.retryDead s.id now scheduledKinds) s
        { s with state := .queued, runAt := now, attempts := 0, err := [] }

/-- A row as `push` makes it. -/
structure Pushed (m : Memory) (k : Kind) (enq : Enqueue) (row : Slot) : Prop where
  state : row.state = .queued
  id : row.id = m.nextId
  attempts : row.attempts = 0
  kind : row.kind = k
  unique : row.unique = enq.unique.getD []
  free : ∀ u, enq.unique = some u → u ≠ [] ∧ (k, u) ∉ m.slots.filterMap Slot.keyOf

namespace Memory

variable {m : Memory} {op : Op}

/-- What an operation can do to the queue. -/
theorem next_cases (m : Memory) (op : Op) :
    m.next op = m ∨
    (∃ i s s', m.slots[i]? = some s ∧ Edit op s s' ∧
      m.next op = { m with slots := m.slots.set i s' }) ∨
    (∃ kind payload enq i s row, op = .push kind payload enq ∧ m.slots[i]? = some s ∧
      s.state = .free ∧ Pushed m kind enq row ∧
      m.next op = { m with slots := m.slots.set i row, nextId := m.nextId + 1 }) ∨
    ∃ before, op = .sweepDead before ∧
      m.next op = { m with slots := m.slots.map fun s => if swept before s then {} else s } := by
  -- the calls about a held row
  have fence : ∀ {id : Id} {a : Nat} {f : Slot → Slot},
      (∀ s, s.state = .running → s.id = id → s.attempts = a → Edit op s (f s)) →
      m.next op = (m.fenced id a f).2 → m.next op = m ∨
        ∃ i s s', m.slots[i]? = some s ∧ Edit op s s' ∧
          m.next op = { m with slots := m.slots.set i s' } := by
    intro id a f hedit hn
    rcases m.fenced_cases id a f with h | ⟨i, s, hi, hst, hid, ha, h⟩
    · exact .inl (by rw [hn, h])
    · exact .inr ⟨i, s, f s, hi, hedit s hst hid ha, by rw [hn, h]⟩
  cases op with
  | push kind payload enq =>
    rcases m.push_cases kind payload enq with ⟨e, h⟩ | ⟨h, -⟩ |
        ⟨i, s, row, hi, hfree, hst, hid, ha, hk, hu, hkey, h⟩
    · exact .inl (by rw [next, h])
    · exact .inl (by rw [next, h])
    · refine .inr (.inr (.inl ⟨kind, payload, enq, i, s, row, rfl, hi, hfree, ?_, ?_⟩))
      · exact ⟨hst, hid, ha, hk, hu, hkey⟩
      · rw [next, h]
  | claim room kinds now leaseUntil =>
    rcases m.claim_cases room kinds now leaseUntil with ⟨-, h⟩ | ⟨-, -, h⟩ |
        ⟨i, s, -, -, hi, hc, -, h⟩
    · exact .inl (by rw [next, h])
    · exact .inl (by rw [next, h])
    · exact .inr (.inl ⟨i, s, _, hi, .claimed room leaseUntil hc, by rw [next, h]⟩)
  | done id a => exact (fence (fun s hst hid ha => hid ▸ ha ▸ .done hst) rfl).imp_right .inl
  | retry id a runAt err =>
    exact (fence (fun s hst hid ha => hid ▸ ha ▸ .retried runAt err hst) rfl).imp_right .inl
  | dead id a err now =>
    exact (fence (fun s hst hid ha => hid ▸ ha ▸ .died err now hst) rfl).imp_right .inl
  | unkey id a => exact (fence (fun s hst hid ha => hid ▸ ha ▸ .unkeyed hst) rfl).imp_right .inl
  | release id a => exact (fence (fun s hst hid ha => hid ▸ ha ▸ .released hst) rfl).imp_right .inl
  | cancel id =>
    rcases m.cancel_cases id with h | ⟨i, s, hi, hst, rfl, h⟩
    · exact .inl (by rw [next, h])
    · exact .inr (.inl ⟨i, s, _, hi, .cancelled hst, by rw [next, h]⟩)
  | retryDead id now scheduled =>
    rcases m.retryDead_cases id now scheduled with ⟨h, -⟩ | ⟨i, s, hi, hst, rfl, hk, h⟩
    · exact .inl (by rw [next, h])
    · exact .inr (.inl ⟨i, s, _, hi, .revived now hst hk, by rw [next, h]⟩)
  | sweepDead before => exact .inr (.inr (.inr ⟨before, rfl, rfl⟩))

/-! ## Numbers and keys -/

/-- The numbers of the rows in the queue. -/
def ids (m : Memory) : List Id := m.slots.filterMap Slot.idOf

/-- The keys the queued and running rows hold. -/
def keys (m : Memory) : List (Kind × Bytes) := m.slots.filterMap Slot.keyOf

/-- Rows under numbers of their own, and keys held once. -/
structure Kept (m : Memory) : Prop where
  ids : m.ids.Nodup
  /-- A number is given once. -/
  given : ∀ id ∈ m.ids, id < m.nextId
  keys : m.keys.Nodup
  /-- A dead row holds no key. -/
  keyless : ∀ s ∈ m.slots, s.state = .dead → s.unique = []

theorem kept_opened {count maxPayload : Nat} : (opened count maxPayload).Kept := by
  have hids : (opened count maxPayload).ids = [] := by
    simp [Memory.ids, opened, Slot.idOf, List.filterMap_replicate_of_none]
  have hkeys : (opened count maxPayload).keys = [] := by
    simp [Memory.keys, opened, Slot.keyOf, Slot.live, List.filterMap_replicate_of_none]
  refine ⟨?_, ?_, ?_, fun s hs hd => ?_⟩
  · rw [hids]
    exact List.nodup_nil
  · rw [hids]
    exact fun id hid => absurd hid List.not_mem_nil
  · rw [hkeys]
    exact List.nodup_nil
  · rw [List.eq_of_mem_replicate hs]

end Memory

namespace Edit

variable {op : Op} {s s' : Slot}

theorem idOf_live (h : s.state ≠ .free) : s.idOf = some s.id := if_neg h

/-- An edit leaves the row under its number, or is one of the operations that remove it. -/
theorem idOf (h : Edit op s s') : s'.idOf = s.idOf ∨ s'.idOf = none ∧ op.removes = true := by
  cases h with
  | claimed room leaseUntil hc =>
    exact .inl (idOf_live (Slot.ne_free_of_live (Slot.live_of_claimable hc))).symm
  | done _ => exact .inr ⟨rfl, rfl⟩
  | cancelled _ => exact .inr ⟨rfl, rfl⟩
  | retried _ _ hs | died _ _ hs | released hs | revived _ hs =>
    have hne : s.state ≠ .free := by
      rw [hs]
      decide
    exact .inl (idOf_live hne).symm
  | unkeyed hs => exact .inl rfl

/-- It keeps the key the row holds, or lets go of it. -/
theorem keyOf (h : Edit op s s') (hd : s.state = .dead → s.unique = []) :
    s'.keyOf = none ∨ s'.keyOf = s.keyOf := by
  cases h with
  | claimed room leaseUntil hc =>
    exact .inr (Slot.keyOf_eq_of_live rfl (Slot.live_of_claimable hc) rfl rfl)
  | done _ => exact .inl rfl
  | cancelled _ => exact .inl rfl
  | died _ _ _ => exact .inl rfl
  | unkeyed hs => exact .inl (if_neg fun h => h.2 rfl)
  | retried _ _ hs | released hs =>
    exact .inr (Slot.keyOf_eq_of_live rfl (by simp [Slot.live, hs]) rfl rfl)
  | revived _ hs _ => exact .inl (if_neg fun h => h.2 (hd hs))

theorem keyless (h : Edit op s s') (hs : s'.state = .dead) : s'.unique = [] := by
  cases h with
  | unkeyed _ => rfl
  | done _ => cases hs
  | cancelled _ => cases hs
  | claimed _ _ _ => cases hs
  | retried _ _ _ => cases hs
  | released _ => cases hs
  | revived _ _ _ => cases hs
  | died _ _ _ => rfl

end Edit

namespace Memory

variable {m : Memory} {op : Op}

theorem pushed_idOf {k : Kind} {enq : Enqueue} {row : Slot} (h : Pushed m k enq row) :
    row.idOf = some m.nextId := by
  rw [Slot.idOf, if_neg (by rw [h.state]; decide), h.id]

theorem Kept.edit {i : Nat} {s s' : Slot} (h : m.Kept) (hi : m.slots[i]? = some s)
    (he : Edit op s s') : ({ m with slots := m.slots.set i s' } : Memory).Kept := by
  have hs : s ∈ m.slots := List.mem_of_getElem? hi
  have hid : s'.idOf = none ∨ s'.idOf = s.idOf := he.idOf.symm.imp_left And.left
  refine ⟨Lib.nodup_set hi hid h.ids, fun id hm => h.given id ?_,
    Lib.nodup_set hi (he.keyOf (h.keyless s hs)) h.keys, fun t ht hd => ?_⟩
  · rcases hid with hn | hsame
    · exact (Lib.filterMap_set_none hi hn).subset hm
    · have hsame : m.ids = (m.slots.set i s').filterMap Slot.idOf :=
        (Lib.filterMap_set_same hi hsame).symm
      rw [hsame]
      exact hm
  · rcases List.mem_or_eq_of_mem_set ht with ht | rfl
    · exact h.keyless t ht hd
    · exact he.keyless hd

/-- A slot that `sweepDead` empties, or leaves. -/
theorem filterMap_sweep {β : Type} {f : Slot → Option β} (hf : f {} = none) (before : Int) :
    ∀ l : List Slot, ((l.map fun s => if swept before s then {} else s).filterMap f).Sublist
      (l.filterMap f)
  | [] => List.Sublist.refl _
  | s :: rest => by
    have ih := filterMap_sweep hf before rest
    rw [List.map_cons]
    split
    · rw [List.filterMap_cons_none hf]
      exact ih.trans ((List.sublist_cons_self s rest).filterMap f)
    · rw [List.filterMap_cons, List.filterMap_cons]
      split
      · exact ih
      · exact ih.cons_cons _

theorem Kept.next (h : m.Kept) (op : Op) : (m.next op).Kept := by
  rcases m.next_cases op with hn | ⟨i, s, s', hi, he, hn⟩ |
      ⟨k, payload, enq, i, s, row, rfl, hi, hfree, hp, hn⟩ | ⟨before, rfl, hn⟩
  · rw [hn]
    exact h
  · rw [hn]
    exact h.edit hi he
  · rw [hn]
    have hids : s.idOf = none := if_pos hfree
    have hkey : s.keyOf = none := by simp [Slot.keyOf, Slot.live, hfree]
    refine ⟨?_, fun id hm => ?_, ?_, fun t ht hd => ?_⟩
    · refine Lib.nodup_set_new hi hids (pushed_idOf hp) (fun hm => ?_) h.ids
      exact absurd (h.given _ hm) (Nat.lt_irrefl _)
    · have hm := (Lib.filterMap_set_new hi hids (pushed_idOf hp)).mem_iff.1 hm
      rcases List.mem_cons.1 hm with rfl | hm
      · exact Nat.lt_succ_self _
      · exact Nat.lt_succ_of_lt (h.given _ hm)
    · cases hu : enq.unique with
      | none =>
        refine Lib.nodup_set hi (.inl ?_) h.keys
        refine if_neg fun hk => hk.2 ?_
        rw [hp.unique, hu]
        rfl
      | some u =>
        obtain ⟨hne, hnot⟩ := hp.free u hu
        have hrow : row.keyOf = some (k, u) := by
          simp [Slot.keyOf, Slot.live, hp.state, hp.kind, hp.unique, hu, hne]
        exact Lib.nodup_set_new hi hkey hrow hnot h.keys
    · rcases List.mem_or_eq_of_mem_set ht with ht | rfl
      · exact h.keyless t ht hd
      · rw [hp.state] at hd
        cases hd
  · rw [hn]
    refine ⟨h.ids.sublist (filterMap_sweep rfl before _), fun id hm => h.given id ?_,
      h.keys.sublist (filterMap_sweep rfl before _), fun t ht hd => ?_⟩
    · exact (filterMap_sweep rfl before _).subset hm
    · obtain ⟨s, hs, rfl⟩ := List.mem_map.1 ht
      split at hd
      · cases hd
      · rw [if_neg ‹_›]
        exact h.keyless s hs hd

theorem Kept.after : ∀ {ops : List Op} {m : Memory}, m.Kept → (m.after ops).Kept
  | [], _, h => h
  | op :: _, _, h => (h.next op).after

/-- A row leaves the queue only by the operations that remove one. -/
theorem leaves (m : Memory) (op : Op) {id : Id} (hin : id ∈ m.ids) (hout : id ∉ (m.next op).ids) :
    op.removes = true := by
  rcases m.next_cases op with hn | ⟨i, s, s', hi, he, hn⟩ |
      ⟨k, payload, enq, i, s, row, rfl, hi, hfree, hp, hn⟩ | ⟨before, rfl, -⟩
  · rw [hn] at hout
    exact absurd hin hout
  · rw [hn] at hout
    rcases he.idOf with hsame | ⟨-, hr⟩
    · have hsame : m.ids = (m.slots.set i s').filterMap Slot.idOf :=
        (Lib.filterMap_set_same hi hsame).symm
      rw [hsame] at hin
      exact absurd hin hout
    · exact hr
  · rw [hn] at hout
    refine absurd ?_ hout
    refine (Lib.filterMap_set_new hi (if_pos hfree) (pushed_idOf hp)).mem_iff.2 ?_
    exact List.mem_cons_of_mem _ hin
  · rfl

/-! ## The queue, whatever has been done to it -/

/-- What the in-memory queue promises. -/
structure Orderly (m : Memory) : Prop where
  /-- Rows are under numbers of their own. -/
  ids : m.ids.Nodup
  /-- A unique key is held by one queued or running row of its kind at most. -/
  keys : m.keys.Nodup
  /-- A row leaves by `done`, `cancel` or `sweepDead`. -/
  leaves : ∀ op id, id ∈ m.ids → id ∉ (m.next op).ids → op.removes = true
  /-- A refused push changes nothing. -/
  refused : ∀ k payload enq e, (m.push k payload enq).1 = .error e →
    (m.push k payload enq).2 = m
  /-- A claim with no memory for its copy changes nothing. -/
  noMemory : ∀ kinds now leaseUntil,
    m.claim false kinds now leaseUntil = (.error .outOfMemory, m)
  /-- A claim finds nothing just when there is nothing it may take, -/
  nothing : ∀ kinds now leaseUntil, (m.claim true kinds now leaseUntil).1 = .ok none ↔
    ∀ s ∈ m.slots, s.claimable kinds now = false
  /-- and otherwise takes a row that is ahead of all it may take. -/
  foremost : ∀ kinds now leaseUntil c, (m.claim true kinds now leaseUntil).1 = .ok (some c) →
    ∃ s ∈ m.slots, s.claimable kinds now = true ∧ c.id = s.id ∧ c.kind = s.kind ∧
      c.payload = s.payload ∧ c.runAt = s.runAt ∧ c.attempts = s.attempts + 1 ∧
      ∀ t ∈ m.slots, t.claimable kinds now = true → s.ahead t

/-- **The in-memory queue.** After any operations with any arguments. -/
theorem after_orderly (count maxPayload : Nat) (ops : List Op) :
    ((opened count maxPayload).after ops).Orderly := by
  have h : ((opened count maxPayload).after ops).Kept := kept_opened.after
  generalize (opened count maxPayload).after ops = m at h
  refine ⟨h.ids, h.keys, fun op id => m.leaves op, fun k payload enq e he => ?_,
    fun kinds now leaseUntil => rfl, fun kinds now leaseUntil => ?_,
    fun kinds now leaseUntil c hc => ?_⟩
  · rcases m.push_cases k payload enq with ⟨e, hp⟩ | ⟨hp, -⟩ | ⟨i, s, row, _, _, _, _, _, _, _, _, hp⟩
    · rw [hp]
    · rw [hp]
    · rw [hp] at he
      cases he
  · rcases m.claim_cases true kinds now leaseUntil with ⟨hr, -⟩ | ⟨-, hnone, hc⟩ |
        ⟨i, s, -, -, hi, hs, -, hc⟩
    · cases hr
    · rw [hc]
      exact ⟨fun _ => hnone, fun _ => rfl⟩
    · rw [hc]
      refine ⟨nofun, fun hall => ?_⟩
      rw [hall s (List.mem_of_getElem? hi)] at hs
      cases hs
  · rcases m.claim_cases true kinds now leaseUntil with ⟨hr, -⟩ | ⟨-, -, hn⟩ |
        ⟨i, s, -, -, hi, hs, hahead, hn⟩
    · cases hr
    · rw [hn] at hc
      cases hc
    · rw [hn] at hc
      obtain rfl := Option.some.inj (Except.ok.inj hc)
      exact ⟨s, List.mem_of_getElem? hi, hs, rfl, rfl, rfl, rfl, rfl, hahead⟩

end Memory
end Nilo.Job
