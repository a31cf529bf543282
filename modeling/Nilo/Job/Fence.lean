import Nilo.Job.Queue

/-!
# The fence on a claim

A worker says what became of its row with the number of attempts its claim counted, and the
queue ignores a call whose number is not the row's any more. That tells a late worker from
the one that holds the row now only while the number of a row never comes back: `claim`
raises it, `release` takes one off and `retryDead` sets it back to nought.

`Book` is the queue with what has been handed out: the claims, newest first, and the rows
whose count was lowered. A run is fenced exactly when no claim takes a row whose count was
lowered before (`fenced_iff_fresh`); `fence_fails_revived` is a late worker that frees the
row of another after a revival.
-/

namespace Nilo.Job

open Text (Bytes)

/-- The queue, the claims it has handed out, newest first, and the rows whose count of
attempts went back. -/
structure Book where
  memory : Memory
  claims : List Claimed := []
  lowered : List Id := []

namespace Book

/-- The claim an operation hands out. -/
def handsOut (m : Memory) : Op → Option Claimed
  | .claim room kinds now leaseUntil =>
    match (m.claim room kinds now leaseUntil).1 with
    | .ok c => c
    | .error _ => none
  | _ => none

/-- The row whose count it sets back. -/
def lowers (m : Memory) : Op → Option Id
  | .release id attempts => if (m.release id attempts).1 then some id else none
  | .retryDead id now scheduledKinds =>
    match (m.retryDead id now scheduledKinds).1 with
    | .ok true => some id
    | _ => none
  | _ => none

def next (b : Book) (op : Op) : Book where
  memory := b.memory.next op
  claims := (handsOut b.memory op).toList ++ b.claims
  lowered := (lowers b.memory op).toList ++ b.lowered

def after (b : Book) : List Op → Book
  | [] => b
  | op :: rest => (b.next op).after rest

def opened (count maxPayload : Nat) : Book := { memory := Memory.opened count maxPayload }

/-- The row of the claim has been claimed again since. -/
def Superseded (b : Book) (c : Claimed) : Prop :=
  ∃ newer older, b.claims = newer ++ c :: older ∧ ∃ c' ∈ newer, c'.id = c.id

/-- Every call with these numbers reports failure and changes nothing. -/
structure Ignored (m : Memory) (id : Id) (attempts : Nat) : Prop where
  done : m.done id attempts = (false, m)
  retry : ∀ runAt err, m.retry id attempts runAt err = (false, m)
  dead : ∀ err now, m.dead id attempts err now = (false, m)
  release : m.release id attempts = (false, m)
  unkey : m.unkey id attempts = (false, m)

/-- A late worker changes nothing, and no two claims are under the same numbers. -/
structure Fenced (b : Book) : Prop where
  late : ∀ c, b.Superseded c → Ignored b.memory c.id c.attempts
  apart : (b.claims.map fun c => (c.id, c.attempts)).Nodup

/-- The row a claim would take has never had its count set back. -/
def Fresh (b : Book) : Op → Prop
  | .claim room kinds now _ => room = true →
    ∀ i s, Memory.pick kinds now b.memory.slots 0 none = some (i, s) → s.id ∉ b.lowered
  | _ => True

/-! ## What a row has behind it -/

/-- A row against what has been handed out: its count is at least that of any claim of it,
unless it was set back, and every count up to it was handed out. -/
structure Counted (claims : List Claimed) (lowered : List Id) (s : Slot) : Prop where
  most : s.id ∉ lowered → ∀ c ∈ claims, c.id = s.id → c.attempts ≤ s.attempts
  /-- A row that was set back waits, and the next count is one that was handed out. -/
  back : s.id ∈ lowered →
    s.state = .queued ∧ ∃ c ∈ claims, c.id = s.id ∧ c.attempts = s.attempts + 1
  told : ∀ k, 1 ≤ k → k ≤ s.attempts → ∃ c ∈ claims, c.id = s.id ∧ c.attempts = k
  begun : s.state ≠ .queued → 1 ≤ s.attempts

/-- What holds while no claim takes a row that was set back. -/
structure Sound (b : Book) : Prop where
  kept : b.memory.Kept
  given : ∀ c ∈ b.claims, c.id < b.memory.nextId
  low : ∀ id ∈ b.lowered, id < b.memory.nextId
  /-- Of two claims of a row the newer has the higher count. -/
  rising : b.claims.Pairwise fun c c' => c.id = c'.id → c'.attempts < c.attempts
  rows : ∀ s ∈ b.memory.slots, s.state ≠ .free → Counted b.claims b.lowered s

variable {b : Book} {op : Op} {s s' t : Slot} {i : Nat} {claims : List Claimed}
  {lowered : List Id}

/-- A claim of another row. -/
theorem Counted.claim {c : Claimed} (h : Counted claims lowered t) (hne : t.id ≠ c.id) :
    Counted (c :: claims) lowered t := by
  refine ⟨fun hl c' hc' hid => ?_, fun hl => ?_, fun k h₁ h₂ => ?_, h.begun⟩
  · rcases List.mem_cons.1 hc' with rfl | hc'
    · exact absurd hid.symm hne
    · exact h.most hl c' hc' hid
  · obtain ⟨hq, c', hc', h'⟩ := h.back hl
    exact ⟨hq, c', List.mem_cons_of_mem _ hc', h'⟩
  · obtain ⟨c', hc', h'⟩ := h.told k h₁ h₂
    exact ⟨c', List.mem_cons_of_mem _ hc', h'⟩

/-- Another row set back. -/
theorem Counted.lower {id : Id} (h : Counted claims lowered t) (hne : t.id ≠ id) :
    Counted claims (id :: lowered) t := by
  refine ⟨fun hl => h.most fun hm => hl (List.mem_cons_of_mem _ hm), fun hl => ?_, h.told, h.begun⟩
  rcases List.mem_cons.1 hl with he | hl
  · exact absurd he hne
  · exact h.back hl

/-- A running row that keeps its count. -/
theorem Counted.settled (h : Counted claims lowered s) (hs : s.state = .running)
    (hid : s'.id = s.id) (ha : s'.attempts = s.attempts) : Counted claims lowered s' := by
  have hone : 1 ≤ s.attempts := h.begun (by rw [hs]; decide)
  refine ⟨fun hl c hc hcid => ?_, fun hl => ?_, fun k h₁ h₂ => ?_, fun _ => ha ▸ hone⟩
  · rw [hid] at hl hcid
    rw [ha]
    exact h.most hl c hc hcid
  · rw [hid] at hl
    have := (h.back hl).1
    rw [hs] at this
    cases this
  · rw [ha] at h₂
    rw [hid]
    exact h.told k h₁ h₂

/-- Rows besides the one that is edited are as they were, under other numbers. -/
theorem Sound.others (h : b.Sound) (hi : b.memory.slots[i]? = some s) (hs : s.state ≠ .free)
    (ht : t ∈ b.memory.slots.set i s') (hf : t.state ≠ .free) :
    t = s' ∨ Counted b.claims b.lowered t ∧ t.id ≠ s.id := by
  rcases Lib.mem_set_other hi (Edit.idOf_live hs) h.kept.ids ht with rfl | ⟨hm, hne⟩
  · exact .inl rfl
  · refine .inr ⟨h.rows t hm hf, fun he => hne ?_⟩
    rw [Edit.idOf_live hf, he]

theorem Sound.number (h : b.Sound) (hi : b.memory.slots[i]? = some s) (hs : s.state ≠ .free) :
    s.id < b.memory.nextId := by
  refine h.kept.given _ (List.mem_filterMap.2 ⟨s, List.mem_of_getElem? hi, ?_⟩)
  exact Edit.idOf_live hs

/-- An operation that neither hands a claim out nor sets a count back. -/
theorem Sound.plain (h : b.Sound) (hc : handsOut b.memory op = none)
    (hl : lowers b.memory op = none)
    (hedit : ∀ s s', Edit op s s' →
      s'.state = .free ∨ s.state = .running ∧ s'.id = s.id ∧ s'.attempts = s.attempts) :
    (b.next op).Sound := by
  have hclaims : (b.next op).claims = b.claims := by simp only [next, hc]; rfl
  have hlow : (b.next op).lowered = b.lowered := by simp only [next, hl]; rfl
  have hmem : (b.next op).memory = b.memory.next op := rfl
  have hgiven : b.memory.nextId ≤ (b.memory.next op).nextId := by
    rcases b.memory.next_cases op with hn | ⟨_, _, _, _, _, hn⟩ |
        ⟨_, _, _, _, _, _, _, _, _, _, hn⟩ | ⟨_, _, hn⟩
    all_goals rw [hn]
    exact Nat.le_succ _
  refine ⟨h.kept.next op, ?_, ?_, by rw [hclaims]; exact h.rising, ?_⟩
  · rw [hclaims]
    exact fun c hc => Nat.lt_of_lt_of_le (h.given c hc) hgiven
  · rw [hlow]
    exact fun id hid => Nat.lt_of_lt_of_le (h.low id hid) hgiven
  rw [hclaims, hlow, hmem]
  intro t ht hf
  rcases b.memory.next_cases op with hn | ⟨i, s, s', hi, he, hn⟩ |
      ⟨k, payload, enq, i, s, row, -, hi, hfree, hp, hn⟩ | ⟨before, -, hn⟩
  · rw [hn] at ht
    exact h.rows t ht hf
  · rw [hn] at ht
    rcases hedit s s' he with hfree | ⟨hrun, hid, ha⟩
    · rcases List.mem_or_eq_of_mem_set ht with ht | rfl
      · exact h.rows t ht hf
      · exact absurd hfree hf
    · have hs : s.state ≠ .free := by rw [hrun]; decide
      rcases h.others hi hs ht hf with rfl | ⟨ht, -⟩
      · exact (h.rows s (List.mem_of_getElem? hi) hs).settled hrun hid ha
      · exact ht
  · rw [hn] at ht
    rcases List.mem_or_eq_of_mem_set ht with ht | rfl
    · exact h.rows t ht hf
    · refine ⟨fun _ c hc hid => ?_, fun hl => ?_, fun k h₁ h₂ => ?_, fun hq => absurd hp.state hq⟩
      · have := h.given c hc
        rw [hid, hp.id] at this
        exact absurd this (Nat.lt_irrefl _)
      · have := h.low _ hl
        rw [hp.id] at this
        exact absurd this (Nat.lt_irrefl _)
      · rw [hp.attempts] at h₂
        omega
  · rw [hn] at ht
    obtain ⟨s, hs, rfl⟩ := List.mem_map.1 ht
    split at hf
    · exact absurd rfl hf
    · rw [if_neg ‹_›]
      exact h.rows s hs hf

/-- A row is claimed whose count was never set back. -/
theorem Sound.claim {c : Claimed} {leaseUntil : Int} (h : b.Sound)
    (hi : b.memory.slots[i]? = some s) (hs : s.state ≠ .free) (hfresh : s.id ∉ b.lowered)
    (hid : c.id = s.id) (ha : c.attempts = s.attempts + 1)
    (hk : ({ b.memory with
      slots := b.memory.slots.set i (Memory.taken s leaseUntil) } : Memory).Kept) :
    (Book.mk { b.memory with slots := b.memory.slots.set i (Memory.taken s leaseUntil) }
      (c :: b.claims) b.lowered).Sound := by
  have hrow := h.rows s (List.mem_of_getElem? hi) hs
  refine ⟨hk, fun c' hc' => ?_, h.low, List.pairwise_cons.2 ⟨fun c' hc' he => ?_, h.rising⟩,
    fun t ht hf => ?_⟩
  · rcases List.mem_cons.1 hc' with rfl | hc'
    · rw [hid]
      exact h.number hi hs
    · exact h.given c' hc'
  · have := hrow.most hfresh c' hc' (he.symm.trans hid)
    omega
  · rcases h.others hi hs ht hf with rfl | ⟨ht, hne⟩
    · refine ⟨fun _ c' hc' he => ?_, fun hl => absurd hl hfresh, fun k h₁ h₂ => ?_, fun _ => ?_⟩
      · rcases List.mem_cons.1 hc' with rfl | hc'
        · exact Nat.le_of_eq ha
        · exact Nat.le_succ_of_le (hrow.most hfresh c' hc' he)
      · have h₂ : k ≤ s.attempts + 1 := h₂
        rcases Nat.lt_or_ge s.attempts k with hlt | hle
        · exact ⟨c, List.mem_cons_self, hid, by omega⟩
        · obtain ⟨c', hc', h'⟩ := hrow.told k h₁ hle
          exact ⟨c', List.mem_cons_of_mem _ hc', h'⟩
      · exact Nat.le_add_left 1 s.attempts
    · exact ht.claim (by rw [hid]; exact hne)

/-- The count of a row is set back, to one less than a count that was handed out. -/
theorem Sound.lower (h : b.Sound) (hi : b.memory.slots[i]? = some s) (hs : s.state ≠ .free)
    (hq : s'.state = .queued) (hid : s'.id = s.id) (hlt : s'.attempts < s.attempts)
    (hk : ({ b.memory with slots := b.memory.slots.set i s' } : Memory).Kept) :
    (Book.mk { b.memory with slots := b.memory.slots.set i s' } b.claims
      (s.id :: b.lowered)).Sound := by
  have hrow := h.rows s (List.mem_of_getElem? hi) hs
  refine ⟨hk, h.given, fun id hm => ?_, h.rising, fun t ht hf => ?_⟩
  · rcases List.mem_cons.1 hm with rfl | hm
    · exact h.number hi hs
    · exact h.low id hm
  · rcases h.others hi hs ht hf with rfl | ⟨ht, hne⟩
    · refine ⟨fun hl => absurd (hid ▸ List.mem_cons_self) hl, fun _ => ⟨hq, ?_⟩, fun k h₁ h₂ => ?_,
        fun hne => absurd hq hne⟩
      · obtain ⟨c, hc, hcid, ha⟩ := hrow.told (t.attempts + 1) (by omega) hlt
        exact ⟨c, hc, hcid.trans hid.symm, ha⟩
      · obtain ⟨c, hc, hcid, ha⟩ := hrow.told k h₁ (by omega)
        exact ⟨c, hc, hcid.trans hid.symm, ha⟩
    · exact ht.lower hne

theorem next_idle (hm : b.memory.next op = b.memory) (hc : handsOut b.memory op = none)
    (hl : lowers b.memory op = none) : b.next op = b := by
  simp only [Book.next, hm, hc, hl]
  rfl

theorem release_cases (m : Memory) (id : Id) (attempts : Nat) :
    m.release id attempts = (false, m) ∨
    ∃ i s, m.slots[i]? = some s ∧ s.state = .running ∧ s.id = id ∧ s.attempts = attempts ∧
      m.release id attempts = (true, { m with
        slots := m.slots.set i
          { s with state := .queued, leaseUntil := 0, attempts := s.attempts - 1 } }) :=
  m.fenced_cases id attempts _

theorem Sound.next (h : b.Sound) (hf : b.Fresh op) : (b.next op).Sound := by
  have hkept := h.kept.next op
  cases op with
  | claim room kinds now leaseUntil =>
    rcases b.memory.claim_cases room kinds now leaseUntil with ⟨-, hc⟩ | ⟨-, -, hc⟩ |
        ⟨i, s, rfl, hp, hi, hs, -, hc⟩
    · rw [next_idle (by rw [Memory.next, hc]) (by rw [handsOut, hc]) rfl]
      exact h
    · rw [next_idle (by rw [Memory.next, hc]) (by rw [handsOut, hc]) rfl]
      exact h
    · have hlive := Slot.ne_free_of_live (Slot.live_of_claimable hs)
      simp only [Book.next, handsOut, lowers, Memory.next, hc] at hkept ⊢
      exact h.claim hi hlive (hf rfl i s hp) rfl rfl hkept
  | release id a =>
    rcases release_cases b.memory id a with hr | ⟨i, s, hi, hst, rfl, rfl, hr⟩
    · rw [next_idle (by rw [Memory.next, hr]) rfl (by rw [lowers, hr]; rfl)]
      exact h
    · have hlive : s.state ≠ .free := by rw [hst]; decide
      have hone := (h.rows s (List.mem_of_getElem? hi) hlive).begun (by rw [hst]; decide)
      simp only [Book.next, handsOut, lowers, Memory.next, hr] at hkept ⊢
      exact h.lower hi hlive rfl rfl (Nat.sub_lt hone Nat.one_pos) hkept
  | retryDead id now scheduled =>
    rcases b.memory.retryDead_cases id now scheduled with ⟨hm, ha⟩ | ⟨i, s, hi, hst, rfl, -, hr⟩
    · have hl : lowers b.memory (.retryDead id now scheduled) = none := by
        simp only [lowers]
      have hn : b.memory.next (.retryDead id now scheduled) = b.memory := hm
      rw [next_idle hn rfl hl]
      exact h
    · have hlive : s.state ≠ .free := by rw [hst]; decide
      have hone := (h.rows s (List.mem_of_getElem? hi) hlive).begun (by rw [hst]; decide)
      simp only [Book.next, handsOut, lowers, Memory.next, hr] at hkept ⊢
      exact h.lower hi hlive rfl rfl hone hkept
  | push | done | retry | dead | unkey | cancel | sweepDead =>
    refine h.plain rfl rfl fun s s' he => ?_
    cases he
    all_goals first
      | exact .inl rfl
      | exact .inr ⟨‹_›, rfl, rfl⟩

theorem sound_opened {count maxPayload : Nat} : (opened count maxPayload).Sound := by
  refine ⟨Memory.kept_opened, nofun, nofun, List.Pairwise.nil, fun s hs hf => ?_⟩
  rw [List.eq_of_mem_replicate hs] at hf
  exact absurd rfl hf

/-! ## Fenced just when no row comes back at a count it had -/

/-- A call with numbers no running row has. -/
theorem ignored_of_none {m : Memory} {id : Id} {attempts : Nat}
    (h : ∀ s ∈ m.slots, s.state = .running → s.id = id → s.attempts ≠ attempts) :
    Ignored m id attempts := by
  have hno : ∀ f, m.fenced id attempts f = (false, m) := by
    intro f
    rcases m.fenced_cases id attempts f with hf | ⟨i, s, hi, hst, hid, ha, -⟩
    · exact hf
    · exact absurd ha (h s (List.mem_of_getElem? hi) hst hid)
  exact ⟨hno _, fun _ _ => hno _, fun _ _ => hno _, hno _, hno _⟩

theorem Sound.fenced (h : b.Sound) : b.Fenced := by
  refine ⟨fun c ⟨newer, older, hsplit, c', hc', hid⟩ => ignored_of_none fun s hs hst hsid ha => ?_,
    ?_⟩
  · have hrow := h.rows s hs (by rw [hst]; decide)
    have hnot : s.id ∉ b.lowered := by
      intro hl
      have := (hrow.back hl).1
      rw [hst] at this
      cases this
    have hmem : c' ∈ b.claims := by
      rw [hsplit]
      exact List.mem_append_left _ hc'
    have hmost := hrow.most hnot c' hmem (hid.trans hsid.symm)
    have hrise := h.rising
    rw [hsplit] at hrise
    have := (List.pairwise_append.1 hrise).2.2 c' hc' c List.mem_cons_self hid
    omega
  · refine List.pairwise_map.2 (h.rising.imp fun hlt he => ?_)
    obtain ⟨hid, ha⟩ := Prod.mk.inj he
    have := hlt hid
    omega

/-- A claim of a row that was set back is under numbers that were handed out before. -/
theorem Sound.not_fenced (h : b.Sound) (hf : ¬ b.Fresh op) : ¬ (b.next op).Fenced := by
  cases op with
  | claim room kinds now leaseUntil =>
    simp only [Fresh, not_forall, not_not] at hf
    obtain ⟨rfl, i, s, hp, hl⟩ := hf
    rcases b.memory.claim_cases true kinds now leaseUntil with ⟨hr, -⟩ | ⟨-, hnone, hc⟩ |
        ⟨j, t, -, hp', hi, hs, -, hc⟩
    · cases hr
    · have : (b.memory.claim true kinds now leaseUntil).1 ≠ .ok none := by
        simp only [Memory.claim, hp]
        exact nofun
      rw [hc] at this
      exact absurd rfl this
    · obtain ⟨rfl, rfl⟩ := Prod.mk.inj (Option.some.inj (hp.symm.trans hp'))
      have hlive := Slot.ne_free_of_live (Slot.live_of_claimable hs)
      obtain ⟨-, c, hmem, hid, ha⟩ := (h.rows s (List.mem_of_getElem? hi) hlive).back hl
      intro hfenced
      have hdup := hfenced.apart
      simp only [Book.next, handsOut, hc, Option.toList_some, List.cons_append, List.nil_append,
        List.map_cons] at hdup
      refine (List.nodup_cons.1 hdup).1 (List.mem_map.2 ⟨c, hmem, ?_⟩)
      rw [hid, ha]
  | push | done | retry | dead | unkey | release | cancel | retryDead | sweepDead =>
    exact absurd trivial hf

/-- Each operation meets the condition in the state it is made in. -/
def AllFresh : Book → List Op → Prop
  | _, [] => True
  | b, op :: rest => b.Fresh op ∧ AllFresh (b.next op) rest

theorem Sound.fenced_iff : ∀ {ops : List Op} {b : Book}, b.Sound →
    ((∀ done rest, ops = done ++ rest → (b.after done).Fenced) ↔ b.AllFresh ops)
  | [], b, h => by
    refine ⟨fun _ => trivial, fun _ done rest he => ?_⟩
    obtain ⟨rfl, -⟩ := List.append_eq_nil_iff.1 he.symm
    exact h.fenced
  | op :: ops, b, h => by
    refine ⟨fun hall => ?_, fun ⟨hf, hrest⟩ done rest he => ?_⟩
    · have hf : b.Fresh op := by
        by_contra hf
        exact h.not_fenced hf (hall [op] ops rfl)
      refine ⟨hf, (h.next hf).fenced_iff.1 fun done rest he => ?_⟩
      exact hall (op :: done) rest (by rw [he]; rfl)
    · cases done with
      | nil => exact h.fenced
      | cons op' done =>
        rw [List.cons_append] at he
        obtain ⟨rfl, htail⟩ := List.cons.inj he
        exact (h.next hf).fenced_iff.2 hrest done rest htail

/-- **The fence.** In every run, a late worker changes nothing in any state reached, and no
two claims are under the same numbers, just when no claim takes a row that had been released
or revived. -/
theorem fenced_iff_fresh (count maxPayload : Nat) (ops : List Op) :
    (∀ done rest, ops = done ++ rest → ((opened count maxPayload).after done).Fenced) ↔
      (opened count maxPayload).AllFresh ops :=
  sound_opened.fenced_iff

/-- A worker's lease runs out, the next one gives the row up for dead, it is revived and
claimed: the first worker's `done` frees the row of the third. -/
theorem fence_fails_revived :
    let k : Kind := ⟨[97], by decide⟩
    let b := (opened 1 8).after [.push k [] { runAt := 0 }, .claim true [k] 0 10,
      .claim true [k] 20 30, .dead 1 2 [] 21, .retryDead 1 22 [], .claim true [k] 23 33]
    ¬ b.Fenced ∧ (b.memory.done 1 1).1 = true ∧ (b.memory.done 1 1).2.ids = [] := by
  refine ⟨fun h => ?_, by decide, by decide⟩
  exact absurd h.apart (by decide)

end Book
end Nilo.Job
