import Nilo.Http2.Lives

/-!
# Windows and the budget

* `LedgerOk` — every byte of a stream's receive window is in one account: open to
  the client, owed to it, on its way to the call, or unread. `taking` is the
  account of the bytes of the frame being read; a stream that is not read any more
  leaves there what is never given back.
* `BudgetOk` — the bytes counted for the connection are those its streams hold, the
  starved streams are counted, and no count was taken below zero.
-/

namespace Nilo.Http2

open Nilo.Lib

variable {D : Type} {B : Nat} {nice : Prop}

/-! ## The receive windows -/

/-- The accounts of a stream's receive window. What a collecting stream has unread was given
back as it arrived. -/
def Line.account (l : Line) : Int :=
  l.recvWindow + l.unacked + l.owed + l.taking + if l.collecting then 0 else (l.unread : Int)

structure Line.Balanced (reading : Bool) (l : Line) : Prop where
  even : l.mixed = false → l.account = defaultWindow
  floor : reading = true → 0 ≤ l.recvWindow
  /-- Nothing has happened to a request without its headers. -/
  fresh : l.phase = .headers → l.unread = 0 ∧ l.wanted = 0 ∧ l.pristine = true
  lag : l.gathering = true → l.collecting = true
  /-- A gRPC call collects from the start, and the connection knows. -/
  gathers : l.phase = .running → l.grpc = true → l.gathering = true

structure LedgerOk (k : Core D) : Prop where
  conn : k.reading = true → k.recvWindow + k.unacked = defaultWindow ∧ 0 ≤ k.recvWindow
  lines : ∀ l ∈ k.lines, l.Balanced k.reading

namespace Line.Balanced

variable {reading : Bool} {l : Line}

theorem shut (h : l.Balanced reading) : l.Balanced false :=
  ⟨h.even, nofun, h.fresh, h.lag, h.gathers⟩

/-- A change of fields the ledger does not look at. -/
theorem same (h : l.Balanced reading) {l' : Line} (ha : l'.account = l.account)
    (hw : l'.recvWindow = l.recvWindow) (hm : l'.mixed = l.mixed) (hp : l'.phase = l.phase)
    (hu : l'.unread = l.unread) (hwant : l'.wanted = 0 ∨ l'.wanted = l.wanted)
    (hpr : l'.pristine = l.pristine) (hc : l'.collecting = l.collecting)
    (hg : l'.gathering = l.gathering) (hr : l'.grpc = l.grpc) : l'.Balanced reading where
  even hm' := ha.trans (h.even (hm ▸ hm'))
  floor hread := hw ▸ h.floor hread
  fresh hp' := by
    obtain ⟨h1, h2, h3⟩ := h.fresh (hp ▸ hp')
    rw [hu, hpr]
    refine ⟨h1, ?_, h3⟩
    rcases hwant with hw0 | hw0
    · exact hw0
    · rw [hw0, h2]
  lag hg' := hc ▸ h.lag (hg ▸ hg')
  gathers hp' hr' := hg ▸ h.gathers (hp ▸ hp') (hr ▸ hr')

end Line.Balanced

theorem Calm.ledgerOk {k k' : Core D} (h : Calm B k k') (hk : LedgerOk k) : LedgerOk k' := by
  have keep {r : Ref} {f : Line → Line} (hf : ∀ l, l.Balanced k.reading → (f l).Balanced k.reading) :
      ∀ l ∈ Lib.edit (·.ref) r f k.lines, l.Balanced k.reading :=
    forall_mem_edit hk.lines fun l _ _ hl => hf l hl
  cases h with
  | shut => exact ⟨nofun, fun l hl => (hk.lines l hl).shut⟩
  | paid n hn =>
    refine ⟨?_, hk.lines⟩
    intro hread
    have := hk.conn hread
    dsimp only at *
    omega
  | overpaid n => exact ⟨nofun, fun l hl => (hk.lines l hl).shut⟩
  | repaid =>
    refine ⟨?_, hk.lines⟩
    intro hread
    have := hk.conn hread
    dsimp only at *
    omega
  | data r id payload e _ _ _ _ =>
    exact ⟨hk.conn, keep fun l hl =>
      hl.same rfl rfl rfl rfl rfl (.inr rfl) rfl rfl rfl rfl⟩
  | hold r n _ =>
    exact ⟨hk.conn, keep fun l hl =>
      hl.same rfl rfl rfl rfl rfl (.inr rfl) rfl rfl rfl rfl⟩
  | giveBack r n _ _ =>
    exact ⟨hk.conn, keep fun l hl =>
      hl.same rfl rfl rfl rfl rfl (.inr rfl) rfl rfl rfl rfl⟩
  | starve r _ _ =>
    exact ⟨hk.conn, keep fun l hl =>
      hl.same rfl rfl rfl rfl rfl (.inr rfl) rfl rfl rfl rfl⟩
  | unstarve r _ _ =>
    exact ⟨hk.conn, keep fun l hl =>
      hl.same rfl rfl rfl rfl rfl (.inr rfl) rfl rfl rfl rfl⟩
  | markReset r =>
    exact ⟨hk.conn, keep fun l hl =>
      hl.same rfl rfl rfl rfl rfl (.inr rfl) rfl rfl rfl rfl⟩
  | settled p =>
    refine ⟨hk.conn, ?_⟩
    intro l' hl'
    obtain ⟨l, hl, rfl⟩ := List.mem_map.1 hl'
    dsimp only
    split
    · exact (hk.lines l hl).same rfl rfl rfl rfl rfl (.inl rfl) rfl rfl rfl rfl
    · exact hk.lines l hl
  | topped r =>
    refine ⟨hk.conn, keep fun l hb => ⟨?_, ?_, hb.fresh, hb.lag, hb.gathers⟩⟩
    · intro hm
      have := hb.even hm
      simp only [Line.account] at this ⊢
      omega
    · intro hread
      have := hb.floor hread
      dsimp only
      omega
  | gathered r =>
    exact ⟨hk.conn, keep fun l hb =>
      ⟨hb.even, hb.floor, hb.fresh, id, fun hp hg => hb.lag (hb.gathers hp hg)⟩⟩
  | pulled r n hon =>
    refine ⟨hk.conn, forall_mem_edit hk.lines ?_⟩
    intro l hl hr hb
    obtain ⟨hp, hn⟩ := hon l hl hr
    refine ⟨?_, hb.floor, fun h => absurd h hp, hb.lag, hb.gathers⟩
    intro hm
    obtain ⟨hm, hc⟩ : l.mixed = false ∧ l.collecting = false := by simpa using hm
    have := hb.even hm
    simp only [Line.account, hc, Bool.false_eq_true, if_false] at this ⊢
    omega
  | whole r hon =>
    refine ⟨hk.conn, forall_mem_edit hk.lines ?_⟩
    intro l hl hr hb
    obtain ⟨hp, hc⟩ := hon l hl hr
    refine ⟨?_, hb.floor, hb.fresh, fun _ => rfl, hb.gathers⟩
    intro hm
    have := hb.even hm
    simp only [Line.account, hc, Bool.false_eq_true, if_false, if_true] at this ⊢
    push_cast
    omega
  | wants r n hon =>
    refine ⟨hk.conn, forall_mem_edit hk.lines ?_⟩
    intro l hl hr hb
    exact ⟨hb.even, hb.floor, fun h => absurd h (hon l hl hr), hb.lag, hb.gathers⟩
  | stained r b hon =>
    refine ⟨hk.conn, forall_mem_edit hk.lines ?_⟩
    intro l hl hr hb
    exact ⟨hb.even, hb.floor, fun h => absurd h (hon l hl hr), hb.lag, hb.gathers⟩
  | _ => exact ⟨hk.conn, hk.lines⟩

theorem Taking.ledgerOk {k k' : Core D} (h : Taking B k k') (hk : LedgerOk k) : LedgerOk k' := by
  have keep {r : Ref} {f : Line → Line} (hf : ∀ l, l.Balanced k.reading → (f l).Balanced k.reading) :
      ∀ l ∈ Lib.edit (·.ref) r f k.lines, l.Balanced k.reading :=
    forall_mem_edit hk.lines fun l _ _ hl => hf l hl
  cases h with
  | calm h => exact h.ledgerOk hk
  | arrived r n hn =>
    refine ⟨hk.conn, forall_mem_edit hk.lines ?_⟩
    intro l hl hr hb
    refine ⟨?_, ?_, hb.fresh, hb.lag, hb.gathers⟩
    · intro hm
      have := hb.even hm
      simp only [Line.account] at this ⊢
      push_cast
      omega
    · intro _
      have := hn l hl hr
      dsimp only
      omega
  | overran r n =>
    refine ⟨nofun, forall_mem_edit (fun l hl => (hk.lines l hl).shut) ?_⟩
    intro l _ _ hb
    refine ⟨?_, nofun, hb.fresh, hb.lag, hb.gathers⟩
    intro hm
    have := hb.even hm
    simp only [Line.account] at this ⊢
    push_cast
    omega
  | committed r n hon =>
    refine ⟨hk.conn, forall_mem_edit hk.lines ?_⟩
    intro l hl hr hb
    obtain ⟨hp, hn⟩ := hon l hl hr
    refine ⟨?_, hb.floor, fun h => absurd h hp, hb.lag, hb.gathers⟩
    intro hm
    have := hb.even hm
    simp only [Line.account] at this ⊢
    cases hc : l.collecting with
    | true => simpa [hc] using this
    | false =>
      have := hn hc
      simp only [hc, Bool.false_eq_true, if_false] at *
      omega
  | credited r n hn =>
    refine ⟨hk.conn, forall_mem_edit hk.lines ?_⟩
    intro l hl hr hb
    refine ⟨?_, hb.floor, hb.fresh, hb.lag, hb.gathers⟩
    intro hm
    have := hb.even hm
    have := hn l hl hr
    simp only [Line.account] at *
    omega
  | told r =>
    refine ⟨hk.conn, keep fun l hb => ⟨?_, hb.floor, hb.fresh, id, ?_⟩⟩
    · intro hm
      have := hb.even hm
      simp only [Line.account] at this ⊢
      push_cast
      omega
    · exact fun hp hg => hb.lag (hb.gathers hp hg)

theorem Plain.ledgerOk {k k' : Core D} (h : Plain B nice k k') (hk : LedgerOk k) :
    LedgerOk k' := by
  have keep {r : Ref} {f : Line → Line} (hf : ∀ l, l.Balanced k.reading → (f l).Balanced k.reading) :
      ∀ l ∈ Lib.edit (·.ref) r f k.lines, l.Balanced k.reading :=
    forall_mem_edit hk.lines fun l _ _ hl => hf l hl
  cases h with
  | calm h => exact h.ledgerOk hk
  | classify r g o hon =>
    refine ⟨hk.conn, forall_mem_edit hk.lines ?_⟩
    intro l hl hr hb
    refine ⟨hb.even, hb.floor, hb.fresh, hb.lag, ?_⟩
    intro hp
    exact absurd ((hon l hl hr).symm.trans hp) nofun
  | launch r hon =>
    refine ⟨hk.conn, forall_mem_edit hk.lines ?_⟩
    intro l hl hr hb
    have hcol : l.account =
        l.recvWindow + l.unacked + l.owed + l.taking +
          if l.collecting || (l.grpc && !l.gathering) then 0 else (l.unread : Int) := by
      rw [Line.account]
      -- a call that begins to collect has nothing unread yet
      cases hg : (l.grpc && !l.gathering) with
      | false => rw [Bool.or_false]
      | true =>
        rcases hon l hl hr with hp | ⟨hp, -⟩
        · have := hb.gathers hp (by simp_all)
          simp [this] at hg
        · simp [(hb.fresh hp).1]
    refine ⟨fun hm => hcol.symm.trans (hb.even hm), hb.floor, nofun, ?_, ?_⟩
    · intro hg
      dsimp only at hg ⊢
      cases hgl : l.gathering with
      | true => simp [hb.lag hgl]
      | false => simp_all
    · intro _ hg
      dsimp only at hg ⊢
      rw [hg, Bool.or_true]
  | answering r _ _ =>
    exact ⟨hk.conn, keep fun l hb => ⟨hb.even, hb.floor, nofun, hb.lag, nofun⟩⟩
  | leave r id why _ _ _ _ =>
    exact ⟨hk.conn, fun l hl => hk.lines l (List.mem_of_mem_filter hl)⟩
  | goawayLost => exact ⟨nofun, fun l hl => (hk.lines l hl).shut⟩
  | defer r _ _ =>
    exact ⟨hk.conn, keep fun l hb => ⟨hb.even, hb.floor, hb.fresh, hb.lag, hb.gathers⟩⟩
  | holdFor r _ _ =>
    exact ⟨hk.conn, keep fun l hb => ⟨hb.even, hb.floor, hb.fresh, hb.lag, hb.gathers⟩⟩
  | undefer r =>
    exact ⟨hk.conn, keep fun l hb => ⟨hb.even, hb.floor, hb.fresh, hb.lag, hb.gathers⟩⟩
  | unhold r =>
    exact ⟨hk.conn, keep fun l hb => ⟨hb.even, hb.floor, hb.fresh, hb.lag, hb.gathers⟩⟩
  | closeIn r =>
    exact ⟨hk.conn, keep fun l hb => ⟨hb.even, hb.floor, hb.fresh, hb.lag, hb.gathers⟩⟩
  | failEvents r _ =>
    exact ⟨hk.conn, keep fun l hb => ⟨hb.even, hb.floor, hb.fresh, hb.lag, hb.gathers⟩⟩
  | _ => exact ⟨hk.conn, hk.lines⟩

theorem Front.ledgerOk {k k' : Core D} (h : Front B nice k k') (hk : LedgerOk k) : LedgerOk k' := by
  have keep {r : Ref} {f : Line → Line} (hf : ∀ l, l.Balanced k.reading → (f l).Balanced k.reading) :
      ∀ l ∈ Lib.edit (·.ref) r f k.lines, l.Balanced k.reading :=
    forall_mem_edit hk.lines fun l _ _ hl => hf l hl
  cases h with
  | plain h => exact h.ledgerOk hk
  | trail r t =>
    exact ⟨hk.conn, keep fun l hb => ⟨hb.even, hb.floor, hb.fresh, hb.lag, hb.gathers⟩⟩
  | extend r b =>
    exact ⟨hk.conn, keep fun l hb => ⟨hb.even, hb.floor, hb.fresh, hb.lag, hb.gathers⟩⟩
  | grew r n _ =>
    exact ⟨hk.conn, keep fun l hb => ⟨hb.even, hb.floor, hb.fresh, hb.lag, hb.gathers⟩⟩
  | append r id spare nextRef _ _ _ =>
    refine ⟨hk.conn, ?_⟩
    intro l hl
    rcases List.mem_append.1 hl with hl | hl
    · exact hk.lines l hl
    · rw [List.mem_singleton.1 hl]
      exact ⟨fun _ => rfl, fun _ => Int.natCast_nonneg _, fun _ => ⟨rfl, rfl, rfl⟩, nofun, nofun⟩
  | shifted v _ _ _ =>
    refine ⟨hk.conn, ?_⟩
    intro l' hl'
    obtain ⟨l, hl, rfl⟩ := List.mem_map.1 hl'
    exact (hk.lines l hl).same rfl rfl rfl rfl rfl (.inr rfl) rfl rfl rfl rfl
  | shiftRefused v w _ _ _ _ =>
    refine ⟨nofun, ?_⟩
    intro l' hl'
    obtain ⟨l, hl, rfl⟩ := List.mem_map.1 hl'
    exact (hk.lines l hl).shut.same rfl rfl rfl rfl rfl (.inr rfl) rfl rfl rfl rfl
  | connOverflow n _ => exact ⟨nofun, fun l hl => (hk.lines l hl).shut⟩
  | strayed => exact ⟨nofun, fun l hl => (hk.lines l hl).shut⟩
  | _ => exact ⟨hk.conn, hk.lines⟩

theorem Move.ledgerOk {k k' : Core D} (h : Move B nice k k') (hk : LedgerOk k) : LedgerOk k' := by
  cases h with
  | front h => exact h.ledgerOk hk
  | taking h => exact h.ledgerOk hk

/-! ## The budget -/

structure BudgetOk (k : Core D) : Prop where
  fault : k.fault = false
  collected : k.collected = (k.lines.map (·.held)).sum
  starved : k.starved = k.lines.countP (·.starved)

theorem BudgetOk.collected_edit {k : Core D} (hk : BudgetOk k) {r : Ref} {f : Line → Line}
    (h : ∀ l, (f l).held = l.held) :
    k.collected = ((Lib.edit (·.ref) r f k.lines).map (·.held)).sum := by
  rw [map_edit h]
  exact hk.collected

theorem BudgetOk.starved_edit {k : Core D} (hk : BudgetOk k) {r : Ref} {f : Line → Line}
    (h : ∀ l, (f l).starved = l.starved) :
    k.starved = (Lib.edit (·.ref) r f k.lines).countP (·.starved) := by
  have hsame : (Lib.edit (·.ref) r f k.lines).map (·.starved.toNat) =
      k.lines.map (·.starved.toNat) := map_edit fun l => by rw [h]
  rw [countP_eq_sum, hsame, ← countP_eq_sum]
  exact hk.starved

/-- A change that neither the bytes held nor the starved streams see. -/
theorem BudgetOk.edit_same {k : Core D} (hk : BudgetOk k) {r : Ref} {f : Line → Line}
    (hh : ∀ l, (f l).held = l.held) (hs : ∀ l, (f l).starved = l.starved) :
    BudgetOk (k.edit r f) :=
  ⟨hk.fault, hk.collected_edit hh, hk.starved_edit hs⟩

theorem Calm.budgetOk {k k' : Core D} (h : Calm B k k') (ht : k.refs.Nodup) (hk : BudgetOk k) :
    BudgetOk k' := by
  cases h with
  | hold r n hr =>
    obtain ⟨l, hl, rfl⟩ := List.mem_map.1 hr
    refine ⟨hk.fault, ?_, hk.starved_edit fun _ => rfl⟩
    · have := sum_edit (w := fun l : Line => l.held) (f := fun l => { l with held := l.held + n })
        ht hl rfl
      have := hk.collected
      dsimp only [Core.edit] at *
      omega
  | giveBack r n hr hon =>
    obtain ⟨l, hl, rfl⟩ := List.mem_map.1 hr
    have hn : n ≤ l.held := hon l hl rfl
    have hsum := sum_edit (w := fun l : Line => l.held) (f := fun l => { l with held := l.held - n })
      ht hl rfl
    have hcol := hk.collected
    dsimp only [Core.edit] at hsum ⊢
    refine ⟨?_, ?_, hk.starved_edit fun _ => rfl⟩
    · have : ¬k.collected < n := by omega
      simp [hk.fault, this]
    · dsimp only
      omega
  | starve r hr hon =>
    obtain ⟨l, hl, rfl⟩ := List.mem_map.1 hr
    have hl' : l.starved = false := hon l hl rfl
    refine ⟨hk.fault, hk.collected_edit fun _ => rfl, ?_⟩
    · have hsum := sum_edit (w := fun l : Line => l.starved.toNat)
        (f := fun l => { l with starved := true }) ht hl rfl
      have hs := hk.starved
      rw [countP_eq_sum] at hs
      dsimp only [Core.edit]
      rw [countP_eq_sum]
      simp only [hl', Bool.toNat_false, Bool.toNat_true] at hsum
      omega
  | unstarve r hr hon =>
    obtain ⟨l, hl, rfl⟩ := List.mem_map.1 hr
    have hl' : l.starved = true := hon l hl rfl
    have hsum := sum_edit (w := fun l : Line => l.starved.toNat)
      (f := fun l => { l with starved := false }) ht hl rfl
    have hs := hk.starved
    rw [countP_eq_sum] at hs
    simp only [hl', Bool.toNat_false, Bool.toNat_true] at hsum
    refine ⟨?_, hk.collected_edit fun _ => rfl, ?_⟩
    · have : ¬k.starved < 1 := by omega
      simp [hk.fault, this]
    · dsimp only [Core.edit]
      rw [countP_eq_sum]
      omega
  | settled p =>
    refine ⟨hk.fault, ?_, ?_⟩
    · rw [List.map_map, hk.collected]
      refine congrArg List.sum (List.map_congr_left ?_)
      intro l _
      dsimp only [Function.comp_apply]
      split <;> rfl
    · rw [List.countP_map]
      refine hk.starved.trans (List.countP_congr ?_)
      intro l _
      dsimp only [Function.comp_apply]
      split <;> rfl
  | data r id payload e _ _ _ _ =>
    have := hk.edit_same (r := r) (f := fun l => { l with sendWindow := l.sendWindow - payload.length })
      (fun _ => rfl) fun _ => rfl
    exact ⟨this.1, this.2, this.3⟩
  | wants r n _ =>
    have := hk.edit_same (r := r) (f := fun l => { l with wanted := n }) (fun _ => rfl) fun _ => rfl
    exact ⟨this.1, this.2, this.3⟩
  | topped | gathered | pulled | whole | stained | markReset =>
    exact hk.edit_same (fun _ => rfl) fun _ => rfl
  | _ => exact ⟨hk.1, hk.2, hk.3⟩

theorem Taking.budgetOk {k k' : Core D} (h : Taking B k k') (ht : k.refs.Nodup) (hk : BudgetOk k) :
    BudgetOk k' := by
  cases h with
  | calm h => exact h.budgetOk ht hk
  | overran r n =>
    have := hk.edit_same (r := r)
      (f := fun l => { l with recvWindow := l.recvWindow - n, taking := l.taking + n })
      (fun _ => rfl) fun _ => rfl
    exact ⟨this.1, this.2, this.3⟩
  | _ => exact hk.edit_same (fun _ => rfl) fun _ => rfl

theorem Plain.budgetOk {k k' : Core D} (h : Plain B nice k k') (ht : k.refs.Nodup)
    (hk : BudgetOk k) : BudgetOk k' := by
  cases h with
  | calm h => exact h.budgetOk ht hk
  | leave r id why hr _ hon _ =>
    obtain ⟨l, hl, rfl⟩ := List.mem_map.1 hr
    obtain ⟨-, hheld, hst, -⟩ := hon l hl rfl
    refine ⟨hk.fault, ?_, ?_⟩
    · have := sum_drop (w := fun l : Line => l.held) ht hl rfl
      have := hk.collected
      dsimp only [Core.log] at *
      omega
    · have hsum := sum_drop (w := fun l : Line => l.starved.toNat) ht hl rfl
      have hs := hk.starved
      rw [countP_eq_sum] at hs
      dsimp only [Core.log]
      rw [countP_eq_sum]
      simp only [hst, Bool.toNat_false] at hsum
      omega
  | classify | launch | answering | defer | holdFor | undefer | unhold | closeIn | failEvents =>
    exact hk.edit_same (fun _ => rfl) fun _ => rfl
  | _ => exact ⟨hk.1, hk.2, hk.3⟩

theorem Front.budgetOk {k k' : Core D} (h : Front B nice k k') (ht : k.refs.Nodup)
    (hk : BudgetOk k) : BudgetOk k' := by
  cases h with
  | plain h => exact h.budgetOk ht hk
  | trail | extend | grew => exact hk.edit_same (fun _ => rfl) fun _ => rfl
  | append r id spare nextRef _ _ _ =>
    refine ⟨hk.fault, ?_, ?_⟩
    · rw [List.map_append, List.sum_append]
      exact hk.collected
    · rw [List.countP_append]
      exact hk.starved
  | shifted v _ _ _ =>
    refine ⟨hk.fault, ?_, ?_⟩
    · rw [List.map_map]
      exact hk.collected
    · rw [List.countP_map]
      exact hk.starved
  | shiftRefused v w _ _ _ _ =>
    refine ⟨hk.fault, ?_, ?_⟩
    · rw [List.map_map]
      exact hk.collected
    · rw [List.countP_map]
      exact hk.starved
  | _ => exact ⟨hk.1, hk.2, hk.3⟩

theorem Move.budgetOk {k k' : Core D} (h : Move B nice k k') (ht : k.refs.Nodup)
    (hk : BudgetOk k) : BudgetOk k' := by
  cases h with
  | front h => exact h.budgetOk ht hk
  | taking h => exact h.budgetOk ht hk

end Nilo.Http2
