import Nilo.Http.Record

/-!
# One key's requests and the row they meet at

The requests that carry one idempotency key, each where it is between `idempotentBegin` and the end
of `idempotentFinish` or `idempotentRelease` (`http/typed.zig`), over the one row of `sql.Replays`
(`sql/replays.zig`) the key has. A step is one statement of the store, or what a request does
without it: the claim is two statements, and the clock each of them goes by was read before it. A
`cache.Space` is the store whose claim is one step, the two taken together.

Whose claim the row is, whose claim was ended by whom, and who was told to run the handler after
an answer had been kept, is a record for the theorems to speak of, which no step reads.
-/

namespace Nilo.Idempotent

open Text (Bytes)

/-! ## The store -/

/-- `marker_ttl_s`. -/
def markerTtl : Nat := 120

/-- The largest `i64`: an entry that does not expire. -/
def forever : Nat := 2 ^ 63 - 1

/-- Microseconds since the epoch. -/
def expiry (now ttl : Nat) : Nat := if ttl = 0 then forever else min (ttl * 1000000 + now) forever

structure Options where
  /-- `ttl_s` -/
  ttl : Nat
  maxBytes : Nat
  /-- What `checkSpace` asks of a store. -/
  room : 256 ≤ maxBytes

structure Row where
  value : Bytes
  expiresAt : Nat
  /-- The request whose claim this is; nobody's, for an answer. -/
  claimant : Option Nat
deriving DecidableEq

/-! ## Requests -/

inductive Outcome where
  /-- The key was used for a different request. -/
  | mismatched
  /-- A request with the key is still being answered. -/
  | inFlight
  | replayed
  | failed
  | answered
  | stopped
deriving DecidableEq

inductive Phase where
  | asking
  /-- In `putIfAbsentFor`, which read the clock, and before its first statement. -/
  | inserting (now : Nat)
  /-- The key was taken, and the second statement is to come. -/
  | updating (now : Nat)
  /-- The claim was refused. -/
  | refused
  /-- In `getInto`, which read the clock. -/
  | reading (now : Nat)
  /-- Told `.fresh`: under a claim that runs out at `until_`, or under none. -/
  | running (until_ : Option Nat)
  /-- In `putFor`, with the answer. -/
  | keeping (until_ : Option Nat) (record : Bytes) (expiresAt : Nat)
  /-- An answer too large to keep: about to free the key, and then to send it. -/
  | dropping (until_ : Option Nat) (placed : Bool)
  | sending (placed : Bool)
  /-- An error on the way out, which frees the key. -/
  | releasing (until_ : Option Nat)
  | ended (outcome : Outcome)
deriving DecidableEq

structure Request where
  fingerprint : UInt64
  phase : Phase
deriving DecidableEq

structure World where
  row : Option Row
  now : Nat
  requests : List Request
  /-- Claims ended before they ran out, each with the request that ended it. -/
  ended : List (Nat × Nat)
  /-- An answer was kept. -/
  kept : Bool
  /-- The requests told to run the handler after that. -/
  again : List Nat
deriving DecidableEq

def start (now : Nat) : World := ⟨none, now, [], [], false, []⟩

namespace World

def phase (w : World) (r : Nat) : Option Phase := (w.requests[r]?).map Request.phase

def put (w : World) (r : Nat) (p : Phase) : World :=
  { w with requests := w.requests.modify r fun q => { q with phase := p } }

/-- The request whose claim the row is, while it has not run out. -/
def claimed (w : World) : Option Nat :=
  match w.row with
  | some row => if w.now < row.expiresAt then row.claimant else none
  | none => none

/-- A statement of a request's that leaves `row` there. -/
def write (w : World) (r : Nat) (row : Option Row) : World :=
  { w with row := row, ended := w.ended ++ (w.claimed.map fun victim => (victim, r)).toList }

/-- `.fresh` -/
def fresh (w : World) (r : Nat) (until_ : Option Nat) : World :=
  { w with again := if w.kept then w.again ++ [r] else w.again }.put r (.running until_)

/-- The row is the request's. -/
def claim (w : World) (r : Nat) (fingerprint : UInt64) (until_ : Nat) : World :=
  (w.write r (some ⟨marker fingerprint, until_, some r⟩)).fresh r (some until_)

/-- `insertOrIgnore` -/
def insert (w : World) (r : Nat) (fingerprint : UInt64) (now : Nat) : World :=
  match w.row with
  | none => w.claim r fingerprint (expiry now markerTtl)
  | some _ => w.put r (.updating now)

/-- `update … where expires_at <= now` -/
def update (w : World) (r : Nat) (fingerprint : UInt64) (now : Nat) : World :=
  match w.row with
  | some row => if row.expiresAt ≤ now then w.claim r fingerprint (expiry now markerTtl) else w.put r .refused
  | none => w.put r .refused

/-- `getInto`: what is kept, if it has not run out and there is room for it. -/
def getInto (w : World) (o : Options) (now : Nat) : Option Bytes :=
  match w.row with
  | some row => if now < row.expiresAt ∧ row.value.length ≤ o.maxBytes then some row.value else none
  | none => none

/-- The read of a request whose claim was refused, and what it makes of it. -/
def read (w : World) (o : Options) (r : Nat) (fingerprint : UInt64) (now : Nat) : World :=
  match w.getInto o now with
  | none => w.fresh r none
  | some kept =>
    match decode kept with
    | .error _ => w.put r (.ended .stopped)
    | .ok none => w.fresh r none
    | .ok (some record) =>
      if record.fingerprint ≠ fingerprint then w.put r (.ended .mismatched)
      else if record.kind = .inFlight then w.put r (.ended .inFlight)
      else w.put r (.ended .replayed)

/-- The handler answered: `idempotentFinish` up to what it asks of the store. -/
def answer (w : World) (o : Options) (r : Nat) (until_ : Option Nat) (a : Answer) : World :=
  match encode a with
  | none => w.put r (.dropping until_ false)
  | some record =>
    if o.maxBytes < record.length then w.put r (.dropping until_ true)
    else w.put r (.keeping until_ record (expiry w.now o.ttl))

end World

/-! ## Steps -/

inductive Act where
  | arrive (fingerprint : UInt64)
  | ask (r : Nat)
  | insert (r : Nat)
  | update (r : Nat)
  | look (r : Nat)
  | read (r : Nat)
  /-- An argument that does not read, the handler's own failure, an answer that cannot be sent. -/
  | fail (r : Nat)
  | answer (r : Nat) (a : Answer)
  | keep (r : Nat)
  | drop (r : Nat)
  /-- `sendRendered`, and whether it failed. -/
  | sent (r : Nat) (failed : Bool)
  | release (r : Nat)
  /-- The store fails the statement a request is at. -/
  | unavailable (r : Nat)
  /-- The process dies. -/
  | die (r : Nat)
  | sweep
  | tick (n : Nat)

/-- A step, where there is one to take. -/
def step (o : Options) (w : World) : Act → Option World
  | .arrive fingerprint => some { w with requests := w.requests ++ [⟨fingerprint, .asking⟩] }
  | .ask r =>
    match w.phase r with
    | some .asking => some (w.put r (.inserting w.now))
    | _ => none
  | .insert r =>
    match w.requests[r]? with
    | some ⟨fingerprint, .inserting now⟩ => some (w.insert r fingerprint now)
    | _ => none
  | .update r =>
    match w.requests[r]? with
    | some ⟨fingerprint, .updating now⟩ => some (w.update r fingerprint now)
    | _ => none
  | .look r =>
    match w.phase r with
    | some .refused => some (w.put r (.reading w.now))
    | _ => none
  | .read r =>
    match w.requests[r]? with
    | some ⟨fingerprint, .reading now⟩ => some (w.read o r fingerprint now)
    | _ => none
  | .fail r =>
    match w.phase r with
    | some (.running until_) => some (w.put r (.releasing until_))
    | _ => none
  | .answer r a =>
    match w.requests[r]? with
    | some ⟨fingerprint, .running until_⟩ =>
      if a.fingerprint = fingerprint ∧ a.kind ≠ .inFlight then some (w.answer o r until_ a) else none
    | _ => none
  | .keep r =>
    match w.phase r with
    | some (.keeping _ record expiresAt) =>
      some ({ w.write r (some ⟨record, expiresAt, none⟩) with kept := true }.put r (.sending true))
    | _ => none
  | .drop r =>
    match w.phase r with
    | some (.dropping _ placed) => some ((w.write r none).put r (.sending placed))
    | _ => none
  | .sent r failed =>
    match w.phase r with
    | some (.sending placed) =>
      -- Where the record could not be made, `placed` is still down and the key is freed once more.
      if failed ∧ ¬ placed then some (w.put r (.releasing none))
      else some (w.put r (.ended (if failed then .failed else .answered)))
    | _ => none
  | .release r =>
    match w.phase r with
    | some (.releasing _) => some ((w.write r none).put r (.ended .failed))
    | _ => none
  | .unavailable r =>
    match w.phase r with
    | some (.inserting _) | some (.updating _) | some (.reading _) | some (.releasing _) =>
      some (w.put r (.ended .failed))
    -- The marker is left where it is, and the answer goes out either way.
    | some (.keeping _ _ _) => some (w.put r (.sending true))
    | some (.dropping _ placed) => some (w.put r (.sending placed))
    | _ => none
  | .die r =>
    match w.phase r with
    | some _ => some (w.put r (.ended .stopped))
    | none => none
  | .sweep =>
    match w.row with
    | some row => if row.expiresAt < w.now then some { w with row := none } else some w
    | none => some w
  | .tick n => some { w with now := w.now + n }

def run (o : Options) (w : World) : List Act → Option World
  | [] => some w
  | a :: acts => (step o w a).bind fun w => run o w acts

/-- Every step of the run is one that `ok` allows, in the state it is taken in. -/
def along (ok : World → Act → Bool) (o : Options) (w : World) : List Act → Bool
  | [] => true
  | a :: acts =>
    ok w a &&
      match step o w a with
      | some w => along ok o w acts
      | none => true

theorem along_cons {ok : World → Act → Bool} {o : Options} {w : World} {a : Act} {acts : List Act}
    (h : along ok o w (a :: acts) = true) :
    ok w a = true ∧ ∀ w', step o w a = some w' → along ok o w' acts = true := by
  obtain ⟨hok, hrest⟩ := Bool.and_eq_true_iff.mp h
  refine ⟨hok, fun w' hw' => ?_⟩
  rw [hw'] at hrest
  exact hrest

/-! ## Where a request is -/

/-- The clock a statement goes by, read before it. -/
def Phase.clock : Phase → Option Nat
  | .inserting now | .updating now | .reading now => some now
  | _ => none

/-- When the claim a request was granted runs out, until it gives it up itself. -/
def Phase.claim : Phase → Option Nat
  | .running until_ | .keeping until_ _ _ | .dropping until_ _ | .releasing until_ => until_
  | _ => none

/-- Between `idempotentBegin` answering `.fresh` and the end of what follows. -/
def Phase.active : Phase → Bool
  | .running _ | .keeping _ _ _ | .dropping _ _ | .sending _ | .releasing _ => true
  | _ => false

variable {o : Options} {w w' : World} {r : Nat} {p p' : Phase}

theorem phase_put (w : World) (r : Nat) (p : Phase) (x : Nat) :
    (w.put r p).phase x = if x = r then (w.phase r).map fun _ => p else w.phase x := by
  by_cases hx : x = r
  · subst hx
    rw [if_pos rfl, World.phase, World.put, List.getElem?_modify_eq, World.phase]
    cases w.requests[x]? <;> rfl
  · rw [if_neg hx, World.phase, World.put, List.getElem?_modify_ne _ _ (Ne.symm hx), World.phase]

theorem phase_of_request {q : Request} (h : w.requests[r]? = some q) : w.phase r = some q.phase := by
  rw [World.phase, h]
  rfl

/-- What a request's phase is after another's, or its own, has moved. -/
theorem phase_put_cases {x : Nat} {q : Phase} (h : (w.put r p).phase x = some q) :
    x = r ∧ q = p ∨ x ≠ r ∧ w.phase x = some q := by
  rw [phase_put] at h
  by_cases hx : x = r
  · rw [if_pos hx] at h
    obtain ⟨_, _, rfl⟩ := Option.map_eq_some_iff.mp h
    exact .inl ⟨hx, rfl⟩
  · rw [if_neg hx] at h
    exact .inr ⟨hx, h⟩

theorem phase_arrive {fingerprint : UInt64} {x : Nat} {q : Phase}
    (h : World.phase { w with requests := w.requests ++ [⟨fingerprint, .asking⟩] } x = some q) :
    q = .asking ∨ w.phase x = some q := by
  rw [World.phase] at h
  by_cases hx : x < w.requests.length
  · rw [List.getElem?_append_left hx] at h
    exact .inr h
  · rw [List.getElem?_append_right (by omega)] at h
    cases hn : x - w.requests.length with
    | zero =>
      rw [hn] at h
      exact .inl (Option.some.inj h).symm
    | succ n =>
      rw [hn] at h
      cases h

/-! ## A claim is ended by its holder or runs out -/

/-- Every claim that was ended before it ran out was ended by the request it was granted to. -/
def Kept (w : World) : Prop := ∀ e ∈ w.ended, e.1 = e.2

/-- What a request keeps or frees is a claim of its own that has not run out. -/
def own (w : World) : Act → Bool
  | .keep r | .drop r | .release r =>
    (w.phase r).any fun p => p.claim.any fun until_ => decide (w.now < until_)
  | _ => true

theorem own_claim {w : World} {a : Act} {r : Nat} {p : Phase} (h : own w a = true)
    (ha : a = .keep r ∨ a = .drop r ∨ a = .release r) (hp : w.phase r = some p) :
    ∃ until_, p.claim = some until_ ∧ w.now < until_ := by
  have hany : p.claim.any (fun until_ => decide (w.now < until_)) = true := by
    rcases ha with rfl | rfl | rfl
    all_goals
      rw [own, hp] at h
      exact h
  cases hclaim : p.claim with
  | none =>
    rw [hclaim] at hany
    cases hany
  | some until_ =>
    rw [hclaim] at hany
    exact ⟨until_, rfl, of_decide_eq_true hany⟩

/-- The row is the claim of whoever was granted one that has not run out. -/
structure Held (w : World) : Prop where
  behind : ∀ x p now, w.phase x = some p → p.clock = some now → now ≤ w.now
  live : ∀ x p until_, w.phase x = some p → p.claim = some until_ → w.now < until_ →
    ∃ row, w.row = some row ∧ row.claimant = some x ∧ row.expiresAt = until_
  ended : Kept w

namespace Held

theorem start (now : Nat) : Held (start now) where
  behind x p now hp _ := by cases hp
  live x p until_ hp _ _ := by cases hp
  ended e he := by cases he

/-- A request goes on without the store. -/
theorem put (h : Held w) (hp : w.phase r = some p) (hclock : ∀ now, p'.clock = some now → now ≤ w.now)
    (hclaim : ∀ until_, p'.claim = some until_ → p.claim = some until_) : Held (w.put r p') where
  behind x q now hq hnow := by
    rcases phase_put_cases hq with ⟨rfl, rfl⟩ | ⟨_, hq⟩
    · exact hclock now hnow
    · exact h.behind x q now hq hnow
  live x q until_ hq huntil hlive := by
    rcases phase_put_cases hq with ⟨rfl, rfl⟩ | ⟨_, hq⟩
    · exact h.live x p until_ hp (hclaim until_ huntil) hlive
    · exact h.live x q until_ hq huntil hlive
  ended := h.ended

/-- Nobody's claim is live. -/
theorem claim {fingerprint : UInt64} {until_ : Nat} (h : Held w) (hp : w.phase r = some p)
    (hfree : ∀ row, w.row = some row → row.expiresAt ≤ w.now) :
    Held (w.claim r fingerprint until_) := by
  have hclaimed : w.claimed = none := by
    rw [World.claimed]
    cases hrow : w.row with
    | none => rfl
    | some row => exact if_neg (Nat.not_lt.mpr (hfree row hrow))
  have hnobody (x : Nat) (q : Phase) (until_ : Nat) (hq : w.phase x = some q)
      (huntil : q.claim = some until_) : ¬ w.now < until_ := by
    intro hlive
    obtain ⟨row, hrow, _, hexpires⟩ := h.live x q until_ hq huntil hlive
    have := hfree row hrow
    omega
  refine ⟨fun x q n hq hn => ?_, fun x q until' hq huntil hlive => ?_, ?_⟩
  · rcases phase_put_cases hq with ⟨rfl, rfl⟩ | ⟨_, hq⟩
    · cases hn
    · exact h.behind x q n hq hn
  · rcases phase_put_cases hq with ⟨rfl, rfl⟩ | ⟨_, hq⟩
    · exact ⟨⟨marker fingerprint, until_, some x⟩, rfl, rfl, Option.some.inj huntil⟩
    · exact absurd hlive (hnobody x q until' hq huntil)
  · intro e he
    change e ∈ w.ended ++ _ at he
    rw [hclaimed, Option.map_none, Option.toList_none, List.append_nil] at he
    exact h.ended e he

/-- A request writes, or deletes, the row of its own live claim. -/
theorem write {row : Option Row} {until_ : Nat} (h : Held w) (kept : Bool)
    (hp : w.phase r = some p) (hclaim : p.claim = some until_) (hlive : w.now < until_)
    (hclock : p'.clock = none) (hdone : p'.claim = none) :
    Held ({ w.write r row with kept := kept }.put r p') := by
  obtain ⟨was, hrow, hmine, hexpires⟩ := h.live r p until_ hp hclaim hlive
  have hclaimed : w.claimed = some r := by
    rw [World.claimed, hrow]
    exact (if_pos (by omega)).trans hmine
  refine ⟨fun x q n hq hn => ?_, fun x q until' hq huntil hlive' => ?_, ?_⟩
  · rcases phase_put_cases hq with ⟨rfl, rfl⟩ | ⟨_, hq⟩
    · rw [hclock] at hn
      cases hn
    · exact h.behind x q n hq hn
  · rcases phase_put_cases hq with ⟨rfl, rfl⟩ | ⟨hx, hq⟩
    · rw [hdone] at huntil
      cases huntil
    · obtain ⟨row', hrow', hother, _⟩ := h.live x q until' hq huntil hlive'
      rw [hrow] at hrow'
      obtain rfl := Option.some.inj hrow'
      rw [hmine] at hother
      exact absurd (Option.some.inj hother).symm hx
  · intro e he
    change e ∈ w.ended ++ _ at he
    rw [hclaimed, Option.map_some, Option.toList_some] at he
    rcases List.mem_append.mp he with he | he
    · exact h.ended e he
    · obtain rfl := List.mem_singleton.mp he
      rfl

/-- `again` is a record of another matter. -/
theorem fresh (h : Held w) (hp : w.phase r = some p) : Held (w.fresh r none) := by
  have hsame : Held { w with again := if w.kept then w.again ++ [r] else w.again } := { h with }
  exact hsame.put hp (fun now hnow => by cases hnow) fun until_ huntil => by cases huntil

theorem read {fingerprint : UInt64} {now : Nat} (h : Held w)
    (hp : w.phase r = some p) : Held (w.read o r fingerprint now) := by
  have hend (outcome : Outcome) : Held (w.put r (.ended outcome)) :=
    h.put hp (fun now hnow => by cases hnow) fun until_ huntil => by cases huntil
  unfold World.read
  split
  · exact h.fresh hp
  · split
    · exact hend _
    · exact h.fresh hp
    · split
      · exact hend _
      · split
        · exact hend _
        · exact hend _

theorem answer {until_ : Option Nat} {a : Answer} (h : Held w)
    (hp : w.phase r = some (.running until_)) : Held (w.answer o r until_ a) := by
  unfold World.answer
  split
  · exact h.put hp (fun now hnow => by cases hnow) fun _ huntil => huntil
  · split
    · exact h.put hp (fun now hnow => by cases hnow) fun _ huntil => huntil
    · exact h.put hp (fun now hnow => by cases hnow) fun _ huntil => huntil

theorem step {a : Act} (h : Held w) (hown : own w a = true) (hs : step o w a = some w') : Held w' := by
  cases a with
  | arrive fingerprint =>
    obtain rfl := Option.some.inj hs
    refine ⟨fun x q now hq hnow => ?_, fun x q until_ hq huntil hlive => ?_, h.ended⟩
    · rcases phase_arrive hq with rfl | hq
      · cases hnow
      · exact h.behind x q now hq hnow
    · rcases phase_arrive hq with rfl | hq
      · cases huntil
      · exact h.live x q until_ hq huntil hlive
  | ask r =>
    rw [Idempotent.step] at hs
    split at hs
    · rename_i hp
      obtain rfl := Option.some.inj hs
      refine h.put hp (fun now hnow => ?_) fun until_ huntil => by cases huntil
      exact (Option.some.inj hnow).symm.le
    · cases hs
  | insert r =>
    rw [Idempotent.step] at hs
    split at hs
    · rename_i fingerprint now hr
      obtain rfl := Option.some.inj hs
      have hp := phase_of_request hr
      unfold World.insert
      split
      · rename_i hrow
        refine h.claim hp fun row hrow' => ?_
        rw [hrow] at hrow'
        cases hrow'
      · refine h.put hp (fun n hn => ?_) fun until_ huntil => by cases huntil
        obtain rfl := Option.some.inj hn
        exact h.behind r _ now hp rfl
    · cases hs
  | update r =>
    rw [Idempotent.step] at hs
    split at hs
    · rename_i fingerprint now hr
      obtain rfl := Option.some.inj hs
      have hp := phase_of_request hr
      have hquiet : Held (w.put r .refused) :=
        h.put hp (fun n hn => by cases hn) fun until_ huntil => by cases huntil
      unfold World.update
      split
      · rename_i row hrow
        split
        · rename_i hout
          refine h.claim hp fun row' hrow' => ?_
          rw [hrow] at hrow'
          obtain rfl := Option.some.inj hrow'
          exact hout.trans (h.behind r _ now hp rfl)
        · exact hquiet
      · exact hquiet
    · cases hs
  | look r =>
    rw [Idempotent.step] at hs
    split at hs
    · rename_i hp
      obtain rfl := Option.some.inj hs
      refine h.put hp (fun now hnow => ?_) fun until_ huntil => by cases huntil
      exact (Option.some.inj hnow).symm.le
    · cases hs
  | read r =>
    rw [Idempotent.step] at hs
    split at hs
    · rename_i hr
      obtain rfl := Option.some.inj hs
      exact h.read (phase_of_request hr)
    · cases hs
  | fail r =>
    rw [Idempotent.step] at hs
    split at hs
    · rename_i hp
      obtain rfl := Option.some.inj hs
      exact h.put hp (fun now hnow => by cases hnow) fun _ huntil => huntil
    · cases hs
  | answer r a =>
    rw [Idempotent.step] at hs
    split at hs
    · rename_i hr
      split at hs
      · obtain rfl := Option.some.inj hs
        exact h.answer (phase_of_request hr)
      · cases hs
    · cases hs
  | keep r =>
    rw [Idempotent.step] at hs
    split at hs
    · rename_i hp
      obtain rfl := Option.some.inj hs
      obtain ⟨until_, hclaim, hlive⟩ := own_claim hown (.inl rfl) hp
      exact h.write true hp hclaim hlive rfl rfl
    · cases hs
  | drop r =>
    rw [Idempotent.step] at hs
    split at hs
    · rename_i hp
      obtain rfl := Option.some.inj hs
      obtain ⟨until_, hclaim, hlive⟩ := own_claim hown (.inr (.inl rfl)) hp
      exact h.write w.kept hp hclaim hlive rfl rfl
    · cases hs
  | sent r failed =>
    rw [Idempotent.step] at hs
    split at hs
    · rename_i hp
      split at hs
      · obtain rfl := Option.some.inj hs
        exact h.put hp (fun now hnow => by cases hnow) fun _ huntil => by cases huntil
      · obtain rfl := Option.some.inj hs
        exact h.put hp (fun now hnow => by cases hnow) fun _ huntil => by cases huntil
    · cases hs
  | release r =>
    rw [Idempotent.step] at hs
    split at hs
    · rename_i hp
      obtain rfl := Option.some.inj hs
      obtain ⟨until_, hclaim, hlive⟩ := own_claim hown (.inr (.inr rfl)) hp
      exact h.write w.kept hp hclaim hlive rfl rfl
    · cases hs
  | unavailable r =>
    rw [Idempotent.step] at hs
    split at hs
    all_goals first | cases hs; done | skip
    all_goals
      rename_i hp
      obtain rfl := Option.some.inj hs
      exact h.put hp (fun now hnow => by cases hnow) fun _ huntil => by cases huntil
  | die r =>
    rw [Idempotent.step] at hs
    split at hs
    · rename_i hp
      obtain rfl := Option.some.inj hs
      exact h.put hp (fun now hnow => by cases hnow) fun _ huntil => by cases huntil
    · cases hs
  | sweep =>
    rw [Idempotent.step] at hs
    split at hs
    · rename_i row hrow
      split at hs
      · rename_i hout
        obtain rfl := Option.some.inj hs
        refine ⟨h.behind, fun x q until_ hq huntil hlive => ?_, h.ended⟩
        obtain ⟨row', hrow', _, hexpires⟩ := h.live x q until_ hq huntil hlive
        rw [hrow] at hrow'
        obtain rfl := Option.some.inj hrow'
        change w.now < until_ at hlive
        omega
      · obtain rfl := Option.some.inj hs
        exact h
    · obtain rfl := Option.some.inj hs
      exact h
  | tick n =>
    obtain rfl := Option.some.inj hs
    refine ⟨fun x q now hq hnow => ?_, fun x q until_ hq huntil hlive => ?_, h.ended⟩
    · exact (h.behind x q now hq hnow).trans (Nat.le_add_right _ _)
    · change w.now + n < until_ at hlive
      exact h.live x q until_ hq huntil (by omega)

theorem run {acts : List Act} (h : Held w) (hown : along own o w acts = true)
    (hs : run o w acts = some w') : Held w' := by
  induction acts generalizing w with
  | nil =>
    obtain rfl := Option.some.inj hs
    exact h
  | cons a acts ih =>
    obtain ⟨w₁, h₁, hrest⟩ := Option.bind_eq_some_iff.mp hs
    obtain ⟨hstep, hmore⟩ := along_cons hown
    exact ih (h.step hstep h₁) (hmore w₁ h₁) hrest

end Held

/-- In every run in which no request keeps or frees what is not, or is no longer, its own claim, a
claim is ended by the request it was granted to or runs out. -/
theorem run_kept (o : Options) (now : Nat) (acts : List Act) {w : World}
    (hown : along own o (start now) acts = true) (hs : run o (start now) acts = some w) : Kept w :=
  ((Held.start now).run hown hs).ended

/-- Answers are kept for a minute. -/
def brief : Options := ⟨60, 256, le_rfl⟩

/-- A handler fails, and the next request claims the key it freed. -/
def retried : List Act :=
  [.arrive 7, .ask 0, .insert 0, .fail 0, .release 0, .arrive 7, .ask 1, .insert 1]

theorem run_kept_retried : ∃ w, run brief (start 0) retried = some w ∧ Kept w :=
  ⟨_, rfl, run_kept brief 0 retried (by decide) rfl⟩

/-- A handler that takes longer than two minutes fails; by then another request has the key. -/
def late : List Act :=
  [.arrive 7, .ask 0, .insert 0, .tick 120000000, .arrive 7, .ask 1, .insert 1, .update 1, .fail 0,
    .release 0]

theorem not_kept_late : ∃ w, run brief (start 0) late = some w ∧ w.row = none ∧
    w.phase 1 = some (.running (some 240000000)) ∧ w.now = 120000000 ∧ ¬ Kept w := by
  have hrun : (run brief (start 0) late).map (fun w => (w.row, w.phase 1, w.now, w.ended)) =
      some (none, some (.running (some 240000000)), 120000000, [(1, 0)]) := by decide +kernel
  obtain ⟨w, hw, hends⟩ := Option.map_eq_some_iff.mp hrun
  obtain ⟨hrow, hphase, hnow, hended⟩ : w.row = none ∧ _ = _ ∧ w.now = 120000000 ∧ w.ended = [(1, 0)] := by
    simpa only [Prod.mk.injEq] using hends
  refine ⟨w, hw, hrow, hphase, hnow, fun h => ?_⟩
  have hpair : ((1, 0) : Nat × Nat) ∈ w.ended := by
    rw [hended]
    exact List.mem_cons_self
  exact absurd (h _ hpair) (by decide)

/-! ## At most one runs, and none once an answer was kept -/

/-- One request at most is between `.fresh` and the end of what follows, and none was told to run
the handler after an answer had been kept. -/
structure Single (w : World) : Prop where
  one : ∀ r r' p p', w.phase r = some p → p.active = true → w.phase r' = some p' →
    p'.active = true → r = r'
  once : w.again = []

/-- Nothing in the store runs out and the store does not fail; and no request reads that its
refused claim is free, nor has an answer too large to be kept. -/
def calm (o : Options) (w : World) : Act → Bool
  | .tick n => w.row.all fun row => decide (w.now + n < row.expiresAt)
  | .insert r =>
    (w.phase r).all fun p => p.clock.all fun now => decide (w.now < expiry now markerTtl)
  | .keep r =>
    match w.phase r with
    | some (.keeping _ _ expiresAt) => decide (w.now < expiresAt)
    | _ => true
  | .read _ => w.row.isSome
  | .answer _ a => (encode a).any fun record => decide (record.length ≤ o.maxBytes)
  | .unavailable _ => false
  | _ => true

theorem calm_insert {now : Nat} (h : calm o w (.insert r) = true)
    (hp : w.phase r = some (.inserting now)) : w.now < expiry now markerTtl := by
  simp only [calm, hp, Option.all_some, Phase.clock, decide_eq_true_eq] at h
  exact h

theorem encode_marker (fingerprint : UInt64) :
    encode ⟨.inFlight, 0, fingerprint, [], [], [], []⟩ = some (marker fingerprint) := by
  rfl

theorem decode_ne_none {a : Answer} {bytes : Bytes} (h : encode a = some bytes) :
    decode bytes ≠ .ok none := by
  by_cases hlen : a.headerLength ≤ 65522
  · rw [decode_encode h hlen]
    split
    · exact fun heq => by cases heq
    · exact fun heq => by cases heq
  · rw [decode_encode_overflow h (by omega)]
    exact fun heq => by cases heq

/-- What is in the store can be read by whoever finds it there. -/
structure Legible (o : Options) (value : Bytes) : Prop where
  room : value.length ≤ o.maxBytes
  decodes : decode value ≠ .ok none

theorem legible_marker (o : Options) (fingerprint : UInt64) : Legible o (marker fingerprint) where
  room := by
    have hroom := o.room
    have hlen : (marker fingerprint).length = 13 := by simp [marker]
    omega
  decodes := decode_ne_none (encode_marker fingerprint)

/-- What a request that was told `.fresh` has in the store. -/
def Phase.Has (p : Phase) (r : Nat) (row : Row) : Prop :=
  match p with
  | .running (some _) | .keeping (some _) _ _ | .releasing (some _) => row.claimant = some r
  | .sending true => row.claimant = none
  | _ => False

structure Guarded (o : Options) (w : World) : Prop where
  behind : ∀ x p now, w.phase x = some p → p.clock = some now → now ≤ w.now
  row : ∀ row, w.row = some row → w.now < row.expiresAt ∧ Legible o row.value
  record : ∀ x until_ record expiresAt, w.phase x = some (.keeping until_ record expiresAt) →
    Legible o record
  has : ∀ x p, w.phase x = some p → p.active = true → ∃ row, w.row = some row ∧ p.Has x row
  single : Single w
  kept : w.kept = true → ∃ row, w.row = some row ∧ row.claimant = none

namespace Guarded

theorem start (o : Options) (now : Nat) : Guarded o (start now) where
  behind x p now hp _ := by cases hp
  row row hrow := by cases hrow
  record x until_ record expiresAt hp := by cases hp
  has x p hp _ := by cases hp
  single := ⟨fun r r' p p' hp _ _ _ => (by cases hp), rfl⟩
  kept h := by cases h

/-- A request goes on without the store: active before, if it is active after. -/
theorem put (h : Guarded o w) (hp : w.phase r = some p)
    (hclock : ∀ now, p'.clock = some now → now ≤ w.now)
    (hrecord : ∀ until_ record expiresAt, p' = .keeping until_ record expiresAt → Legible o record)
    (hactive : p'.active = true → p.active = true)
    (hhas : ∀ row, p'.active = true → p.Has r row → p'.Has r row) : Guarded o (w.put r p') where
  behind x q now hq hnow := by
    rcases phase_put_cases hq with ⟨rfl, rfl⟩ | ⟨_, hq⟩
    · exact hclock now hnow
    · exact h.behind x q now hq hnow
  row := h.row
  record x until_ record expiresAt hq := by
    rcases phase_put_cases hq with ⟨rfl, heq⟩ | ⟨_, hq⟩
    · exact hrecord until_ record expiresAt heq.symm
    · exact h.record x until_ record expiresAt hq
  has x q hq hx := by
    rcases phase_put_cases hq with ⟨rfl, rfl⟩ | ⟨_, hq⟩
    · obtain ⟨row, hrow, hin⟩ := h.has x p hp (hactive hx)
      exact ⟨row, hrow, hhas row hx hin⟩
    · exact h.has x q hq hx
  single := by
    refine ⟨fun a b q q' hq ha hq' hb => ?_, h.single.once⟩
    rcases phase_put_cases hq with ⟨rfl, rfl⟩ | ⟨_, hold⟩
    · rcases phase_put_cases hq' with ⟨rfl, rfl⟩ | ⟨_, hold'⟩
      · rfl
      · exact h.single.one _ _ _ _ hp (hactive ha) hold' hb
    · rcases phase_put_cases hq' with ⟨rfl, rfl⟩ | ⟨_, hold'⟩
      · exact h.single.one _ _ _ _ hold ha hp (hactive hb)
      · exact h.single.one _ _ _ _ hold ha hold' hb
  kept := h.kept

/-- A request out of the way of the handler. -/
theorem idle (h : Guarded o w) (hp : w.phase r = some p)
    (hclock : ∀ now, p'.clock = some now → now ≤ w.now) (hidle : p'.active = false) :
    Guarded o (w.put r p') := by
  have hnot (hactive : p'.active = true) : False := by
    rw [hidle] at hactive
    cases hactive
  refine h.put hp hclock (fun until_ record expiresAt heq => ?_) (fun hactive => (hnot hactive).elim)
    fun _ hactive => (hnot hactive).elim
  subst heq
  cases hidle

/-- The free key is claimed: nobody runs, and nothing was kept. -/
theorem claim {fingerprint : UInt64} {until_ : Nat} (h : Guarded o w) (hp : w.phase r = some p)
    (hrow : w.row = none) (hlive : w.now < until_) : Guarded o (w.claim r fingerprint until_) := by
  have hnobody (x : Nat) (q : Phase) (hq : w.phase x = some q) : q.active ≠ true := by
    intro hx
    obtain ⟨row, hsome, _⟩ := h.has x q hq hx
    rw [hrow] at hsome
    cases hsome
  have hkept : w.kept = false := by
    cases hk : w.kept with
    | false => rfl
    | true =>
      obtain ⟨row, hsome, _⟩ := h.kept hk
      rw [hrow] at hsome
      cases hsome
  have hagain : (w.claim r fingerprint until_).again = [] := by
    change (if w.kept = true then w.again ++ [r] else w.again) = []
    rw [hkept]
    exact h.single.once
  refine ⟨fun x q now hq hnow => ?_, fun row hsome => ?_, fun x u record e hq => ?_,
    fun x q hq hx => ?_, ⟨fun a b q q' hq ha hq' hb => ?_, hagain⟩, fun hk => ?_⟩
  · rcases phase_put_cases hq with ⟨rfl, rfl⟩ | ⟨_, hq⟩
    · cases hnow
    · exact h.behind x q now hq hnow
  · obtain rfl := Option.some.inj hsome
    exact ⟨hlive, legible_marker o fingerprint⟩
  · rcases phase_put_cases hq with ⟨rfl, heq⟩ | ⟨_, hq⟩
    · cases heq
    · exact h.record x u record e hq
  · rcases phase_put_cases hq with ⟨rfl, rfl⟩ | ⟨_, hq⟩
    · exact ⟨⟨marker fingerprint, until_, some x⟩, rfl, rfl⟩
    · exact absurd hx (hnobody x q hq)
  · rcases phase_put_cases hq with ⟨rfl, rfl⟩ | ⟨_, hq⟩
    · rcases phase_put_cases hq' with ⟨rfl, rfl⟩ | ⟨_, hq'⟩
      · rfl
      · exact absurd hb (hnobody b q' hq')
    · exact absurd ha (hnobody a q hq)
  · change w.kept = true at hk
    rw [hkept] at hk
    cases hk

/-- The request that runs puts its answer in the place of its claim. -/
theorem keep {until_ : Option Nat} {record : Bytes} {expiresAt : Nat} (h : Guarded o w)
    (hp : w.phase r = some (.keeping until_ record expiresAt)) (hlive : w.now < expiresAt) :
    Guarded o ({ w.write r (some ⟨record, expiresAt, none⟩) with kept := true }.put r (.sending true)) := by
  have hothers (x : Nat) (q : Phase) (hx : x ≠ r) (hq : w.phase x = some q) : q.active ≠ true :=
    fun hactive => hx (h.single.one _ _ _ _ hq hactive hp rfl)
  refine ⟨fun x q now hq hnow => ?_, fun row hsome => ?_, fun x u record e hq => ?_,
    fun x q hq hx => ?_, ⟨fun a b q q' hq ha hq' hb => ?_, h.single.once⟩, fun _ => ⟨_, rfl, rfl⟩⟩
  · rcases phase_put_cases hq with ⟨rfl, rfl⟩ | ⟨_, hq⟩
    · cases hnow
    · exact h.behind x q now hq hnow
  · obtain rfl := Option.some.inj hsome
    exact ⟨hlive, h.record r until_ record expiresAt hp⟩
  · rcases phase_put_cases hq with ⟨rfl, heq⟩ | ⟨_, hq⟩
    · cases heq
    · exact h.record x u record e hq
  · rcases phase_put_cases hq with ⟨rfl, rfl⟩ | ⟨hne, hq⟩
    · exact ⟨_, rfl, rfl⟩
    · exact absurd hx (hothers x q hne hq)
  · rcases phase_put_cases hq with ⟨rfl, rfl⟩ | ⟨hne, hq⟩
    · rcases phase_put_cases hq' with ⟨rfl, rfl⟩ | ⟨hne, hq'⟩
      · rfl
      · exact absurd hb (hothers b q' hne hq')
    · exact absurd ha (hothers a q hne hq)

/-- The request that runs frees its own key, and is done. -/
theorem release {until_ : Option Nat} (h : Guarded o w)
    (hp : w.phase r = some (.releasing until_)) :
    Guarded o ((w.write r none).put r (.ended .failed)) := by
  have hothers (x : Nat) (q : Phase) (hx : x ≠ r) (hq : w.phase x = some q) : q.active ≠ true :=
    fun hactive => hx (h.single.one _ _ _ _ hq hactive hp rfl)
  have hmine : ∃ row, w.row = some row ∧ row.claimant = some r := by
    obtain ⟨row, hrow, hin⟩ := h.has r _ hp rfl
    cases until_ with
    | none => exact hin.elim
    | some until_ => exact ⟨row, hrow, hin⟩
  refine ⟨fun x q now hq hnow => ?_, fun row hsome => (by cases hsome), fun x u record e hq => ?_,
    fun x q hq hx => ?_, ⟨fun a b q q' hq ha hq' hb => ?_, h.single.once⟩, fun hk => ?_⟩
  · rcases phase_put_cases hq with ⟨rfl, rfl⟩ | ⟨_, hq⟩
    · cases hnow
    · exact h.behind x q now hq hnow
  · rcases phase_put_cases hq with ⟨rfl, heq⟩ | ⟨_, hq⟩
    · cases heq
    · exact h.record x u record e hq
  · rcases phase_put_cases hq with ⟨rfl, rfl⟩ | ⟨hne, hq⟩
    · cases hx
    · exact absurd hx (hothers x q hne hq)
  · rcases phase_put_cases hq with ⟨rfl, rfl⟩ | ⟨hne, hq⟩
    · cases ha
    · exact absurd ha (hothers a q hne hq)
  · obtain ⟨row, hrow, hclaimant⟩ := hmine
    obtain ⟨row', hrow', hnone⟩ := h.kept hk
    rw [hrow] at hrow'
    obtain rfl := Option.some.inj hrow'
    rw [hclaimant] at hnone
    cases hnone

/-- A refused request finds the claim, or the answer, that refused it. -/
theorem read {fingerprint : UInt64} {now : Nat} (h : Guarded o w) (hp : w.phase r = some p)
    (hnow : now ≤ w.now) (hrow : w.row.isSome = true) : Guarded o (w.read o r fingerprint now) := by
  have hend (outcome : Outcome) : Guarded o (w.put r (.ended outcome)) :=
    h.idle hp (fun n hn => by cases hn) rfl
  obtain ⟨row, hrow⟩ := Option.isSome_iff_exists.mp hrow
  obtain ⟨hlive, hlegible⟩ := h.row row hrow
  have hget : w.getInto o now = some row.value := by
    rw [World.getInto, hrow]
    exact if_pos ⟨by omega, hlegible.room⟩
  unfold World.read
  rw [hget]
  dsimp only
  split
  · exact hend _
  · rename_i hnone
    exact absurd hnone hlegible.decodes
  · split
    · exact hend _
    · split
      · exact hend _
      · exact hend _

/-- The handler's answer is one that can be kept. -/
theorem answer {until_ : Option Nat} {a : Answer} {record : Bytes} (h : Guarded o w)
    (hp : w.phase r = some (.running until_)) (hrecord : encode a = some record)
    (hroom : record.length ≤ o.maxBytes) : Guarded o (w.answer o r until_ a) := by
  have hlegible : Legible o record := ⟨hroom, decode_ne_none hrecord⟩
  unfold World.answer
  rw [hrecord]
  dsimp only
  rw [if_neg (by omega)]
  refine h.put hp (fun n hn => by cases hn) (fun u rec e heq => ?_) (fun _ => rfl) fun row _ hin => ?_
  · cases heq
    exact hlegible
  · cases until_ with
    | none => exact hin.elim
    | some until_ => exact hin

/-- No one is dropping an answer, and what is sent was kept. -/
theorem sending {placed : Bool} (h : Guarded o w) (hp : w.phase r = some (.sending placed)) :
    placed = true := by
  obtain ⟨row, _, hin⟩ := h.has r _ hp rfl
  cases placed with
  | true => rfl
  | false => exact hin.elim

theorem step {a : Act} (h : Guarded o w) (hcalm : calm o w a = true) (hs : step o w a = some w') :
    Guarded o w' := by
  cases a with
  | arrive fingerprint =>
    obtain rfl := Option.some.inj hs
    refine ⟨fun x q now hq hnow => ?_, h.row, fun x u record e hq => ?_, fun x q hq hx => ?_,
      ⟨fun a b q q' hq ha hq' hb => ?_, h.single.once⟩, h.kept⟩
    · rcases phase_arrive hq with rfl | hq
      · cases hnow
      · exact h.behind x q now hq hnow
    · rcases phase_arrive hq with heq | hq
      · cases heq
      · exact h.record x u record e hq
    · rcases phase_arrive hq with rfl | hq
      · cases hx
      · exact h.has x q hq hx
    · rcases phase_arrive hq with rfl | hq
      · cases ha
      · rcases phase_arrive hq' with rfl | hq'
        · cases hb
        · exact h.single.one _ _ _ _ hq ha hq' hb
  | ask r =>
    rw [Idempotent.step] at hs
    split at hs
    · rename_i hp
      obtain rfl := Option.some.inj hs
      exact h.idle hp (fun now hnow => (Option.some.inj hnow).symm.le) rfl
    · cases hs
  | insert r =>
    rw [Idempotent.step] at hs
    split at hs
    · rename_i fingerprint now hr
      obtain rfl := Option.some.inj hs
      have hp := phase_of_request hr
      unfold World.insert
      split
      · rename_i hrow
        exact h.claim hp hrow (calm_insert hcalm hp)
      · refine h.idle hp (fun n hn => ?_) rfl
        obtain rfl := Option.some.inj hn
        exact h.behind r _ now hp rfl
    · cases hs
  | update r =>
    rw [Idempotent.step] at hs
    split at hs
    · rename_i fingerprint now hr
      obtain rfl := Option.some.inj hs
      have hp := phase_of_request hr
      have hquiet : Guarded o (w.put r .refused) := h.idle hp (fun n hn => by cases hn) rfl
      unfold World.update
      split
      · rename_i row hrow
        have hlive := (h.row row hrow).1
        have hbehind : now ≤ w.now := h.behind r _ now hp rfl
        rw [if_neg (by omega)]
        exact hquiet
      · exact hquiet
    · cases hs
  | look r =>
    rw [Idempotent.step] at hs
    split at hs
    · rename_i hp
      obtain rfl := Option.some.inj hs
      exact h.idle hp (fun now hnow => (Option.some.inj hnow).symm.le) rfl
    · cases hs
  | read r =>
    rw [Idempotent.step] at hs
    split at hs
    · rename_i fingerprint now hr
      obtain rfl := Option.some.inj hs
      have hp := phase_of_request hr
      exact h.read hp (h.behind r _ now hp rfl) hcalm
    · cases hs
  | fail r =>
    rw [Idempotent.step] at hs
    split at hs
    · rename_i until_ hp
      obtain rfl := Option.some.inj hs
      refine h.put hp (fun n hn => by cases hn) (fun _ _ _ heq => by cases heq) (fun _ => rfl)
        fun row _ hin => ?_
      cases until_ with
      | none => exact hin.elim
      | some until_ => exact hin
    · cases hs
  | answer r a =>
    rw [Idempotent.step] at hs
    split at hs
    · rename_i hr
      split at hs
      · obtain rfl := Option.some.inj hs
        rw [calm] at hcalm
        cases hrecord : encode a with
        | none =>
          rw [hrecord] at hcalm
          cases hcalm
        | some record =>
          rw [hrecord] at hcalm
          exact h.answer (phase_of_request hr) hrecord (of_decide_eq_true hcalm)
      · cases hs
    · cases hs
  | keep r =>
    rw [Idempotent.step] at hs
    split at hs
    · rename_i hp
      obtain rfl := Option.some.inj hs
      rw [calm, hp] at hcalm
      exact h.keep hp (of_decide_eq_true hcalm)
    · cases hs
  | drop r =>
    rw [Idempotent.step] at hs
    split at hs
    · rename_i hp
      obtain ⟨row, _, hin⟩ := h.has r _ hp rfl
      exact hin.elim
    · cases hs
  | sent r failed =>
    rw [Idempotent.step] at hs
    split at hs
    · rename_i placed hp
      obtain rfl := h.sending hp
      rw [if_neg (by simp)] at hs
      obtain rfl := Option.some.inj hs
      exact h.idle hp (fun n hn => by cases hn) rfl
    · cases hs
  | release r =>
    rw [Idempotent.step] at hs
    split at hs
    · rename_i hp
      obtain rfl := Option.some.inj hs
      exact h.release hp
    · cases hs
  | unavailable r => cases hcalm
  | die r =>
    rw [Idempotent.step] at hs
    split at hs
    · rename_i hp
      obtain rfl := Option.some.inj hs
      exact h.idle hp (fun n hn => by cases hn) rfl
    · cases hs
  | sweep =>
    rw [Idempotent.step] at hs
    split at hs
    · rename_i row hrow
      have hlive := (h.row row hrow).1
      rw [if_neg (by omega)] at hs
      obtain rfl := Option.some.inj hs
      exact h
    · obtain rfl := Option.some.inj hs
      exact h
  | tick n =>
    obtain rfl := Option.some.inj hs
    refine { h with behind := fun x q now hq hnow => ?_, row := fun row hrow => ?_, single := ?_ }
    · exact (h.behind x q now hq hnow).trans (Nat.le_add_right _ _)
    · have hsome : w.row = some row := hrow
      rw [calm, hsome] at hcalm
      exact ⟨of_decide_eq_true hcalm, (h.row row hsome).2⟩
    · exact ⟨h.single.one, h.single.once⟩

theorem run {acts : List Act} (h : Guarded o w) (hcalm : along (calm o) o w acts = true)
    (hs : run o w acts = some w') : Guarded o w' := by
  induction acts generalizing w with
  | nil =>
    obtain rfl := Option.some.inj hs
    exact h
  | cons a acts ih =>
    obtain ⟨w₁, h₁, hrest⟩ := Option.bind_eq_some_iff.mp hs
    obtain ⟨hstep, hmore⟩ := along_cons hcalm
    exact ih (h.step hstep h₁) (hmore w₁ h₁) hrest

end Guarded

/-- In every run in which no refused request reads that the key is free again, and every answer is
one that can be kept, at most one request runs at a time, and none once an answer was kept. -/
theorem run_single (o : Options) (now : Nat) (acts : List Act) {w : World}
    (hcalm : along (calm o) o (start now) acts = true) (hs : run o (start now) acts = some w) :
    Single w :=
  ((Guarded.start o now).run hcalm hs).single

def noContent : Answer := ⟨.empty, 204, 7, [], [], [], []⟩

/-- Two requests at once: the one that is refused comes back for the answer the other made. -/
def replay : List Act :=
  [.arrive 7, .arrive 7, .ask 0, .ask 1, .insert 0, .insert 1, .update 1, .look 1, .answer 0 noContent,
    .keep 0, .read 1, .sent 0 false]

theorem run_single_replay : ∃ w, run brief (start 0) replay = some w ∧ Single w := by
  have hrun : (run brief (start 0) replay).isSome = true := by decide
  obtain ⟨w, hw⟩ := Option.isSome_iff_exists.mp hrun
  exact ⟨w, hw, run_single brief 0 replay (by decide) hw⟩

/-- The second request's claim is refused; the first one fails and frees the key; the second finds
nothing kept and runs, under no claim; and the third claims the free key. -/
def between : List Act :=
  [.arrive 7, .arrive 7, .arrive 7, .ask 0, .insert 0, .ask 1, .insert 1, .update 1, .fail 0,
    .release 0, .look 1, .read 1, .ask 2, .insert 2]

theorem not_single_between : ∃ w, run brief (start 0) between = some w ∧ w.now = 0 ∧
    w.phase 1 = some (.running none) ∧ w.phase 2 = some (.running (some 120000000)) ∧ ¬ Single w := by
  have hrun : (run brief (start 0) between).map (fun w => (w.now, w.phase 1, w.phase 2)) =
      some (0, some (.running none), some (.running (some 120000000))) := by decide
  obtain ⟨w, hw, hends⟩ := Option.map_eq_some_iff.mp hrun
  obtain ⟨hnow, hsecond, hthird⟩ : w.now = 0 ∧ _ = _ ∧ _ = _ := by
    simpa only [Prod.mk.injEq] using hends
  refine ⟨w, hw, hnow, hsecond, hthird, fun h => ?_⟩
  have heq := h.one 1 2 _ _ hsecond rfl hthird rfl
  exact absurd heq (by decide)

end Nilo.Idempotent
