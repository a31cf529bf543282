import Mathlib.Algebra.Group.Int.Defs
import Mathlib.Algebra.Group.Nat.Defs
import Mathlib.Data.List.Basic
import Mathlib.Tactic.SplitIfs

/-!
# When an unknown `kid` fetches (`verifyOrRefresh`, `claimRefresh`, `refresh` in `jwt/keyring.zig`)

A call that misses a key may fetch the keys again, at most once an interval. The time of the last
fetch is one atomic word: a call loads it, and swaps its own time in if enough has passed and nobody
else has swapped. Then `refresh` stores that time once more, with a plain store. The loads, the swaps
and the stores of the calls come in any order.

Between the swap and the store another call may have swapped a later time in, and the store puts the
earlier one back (`not_spaced_delayed`). As long as no store goes back, two calls that fetch are an
interval apart (`run_spaced`).
-/

namespace Nilo.Jwt.Refresh

/-! ## One call -/

/-- `-|` on `i64`. -/
def subSat (a b : Int) : Int :=
  if a - b < -2 ^ 63 then -2 ^ 63 else if 2 ^ 63 - 1 < a - b then 2 ^ 63 - 1 else a - b

/-- What a call of `verifyOrRefresh` does next. -/
inductive Stage where
  /-- `verify`. -/
  | verify
  /-- It was `NoSuchKey`: load the time of the last fetch. -/
  | missed
  /-- Swap its own time in, if the word is still what was loaded. -/
  | loaded (last : Int)
  /-- `refresh`: store the time. -/
  | claimed
  /-- Fetch the keys, and `load` them. -/
  | stored
  /-- `verify`, with the keys that came. -/
  | again
  | done
deriving DecidableEq, Repr

structure Call where
  now : Int
  stage : Stage
  /-- Whether its `claimRefresh` has succeeded. -/
  won : Bool
deriving DecidableEq, Repr

structure World where
  /-- `last_refresh_s` -/
  last : Int
  calls : List Call
deriving DecidableEq, Repr

/-- A ring that has fetched nothing. -/
def World.init : World := ⟨-2 ^ 63, []⟩

/-- What happens next: a call begins, or one goes on. What it finds outside is `found`: whether
`verify` comes to anything but `NoSuchKey`, and whether the fetch brings keys. -/
inductive Act where
  | enter (now : Int)
  | go (i : Nat) (found : Bool)
deriving DecidableEq, Repr

/-- One atomic step of a call, and the time of the last fetch after it. -/
def Call.step (interval : UInt32) (last : Int) (c : Call) (found : Bool) : Call × Int :=
  match c.stage with
  | .verify => ({ c with stage := if found then .done else .missed }, last)
  | .missed =>
    ({ c with stage := if subSat c.now last < interval.toNat then .done else .loaded last }, last)
  | .loaded was =>
    if last = was then ({ c with stage := .claimed, won := true }, c.now)
    else ({ c with stage := .done }, last)
  | .claimed => ({ c with stage := .stored }, c.now)
  | .stored => ({ c with stage := if found then .again else .done }, last)
  | .again => ({ c with stage := .done }, last)
  | .done => (c, last)

def World.act (interval : UInt32) (w : World) : Act → World
  | .enter now => { w with calls := w.calls ++ [⟨now, .verify, false⟩] }
  | .go i found =>
    match w.calls[i]? with
    | none => w
    | some c =>
      { last := (c.step interval w.last found).2
        calls := w.calls.set i (c.step interval w.last found).1 }

def World.run (interval : UInt32) (w : World) (acts : List Act) : World :=
  acts.foldl (World.act interval) w

/-! ## What is promised -/

/-- Two calls that may fetch are an interval apart. -/
def Spaced (interval : UInt32) (w : World) : Prop :=
  ∀ (i j : Nat) (a b : Call), i ≠ j → w.calls[i]? = some a → w.calls[j]? = some b →
    a.won = true → b.won = true →
      a.now + interval.toNat ≤ b.now ∨ b.now + interval.toNat ≤ a.now

/-- A store of `refresh` finds no later time than its own. -/
def Forward (w : World) : Act → Bool
  | .enter _ => true
  | .go i _ =>
    match w.calls[i]? with
    | none => true
    | some c => c.stage != .claimed || decide (w.last ≤ c.now)

/-- No store of a run goes back. -/
def forward (interval : UInt32) : World → List Act → Bool
  | _, [] => true
  | w, a :: acts => Forward w a && forward interval (w.act interval a) acts

/-! ## The invariant -/

theorem subSat_lt {a b : Int} {interval : UInt32} :
    subSat a b < interval.toNat ↔ a - b < interval.toNat := by
  have hlt : interval.toNat < 2 ^ 32 := interval.toNat_lt
  unfold subSat
  split_ifs <;> omega

/-- The calls that may fetch are behind the word, and one that is about to swap is an interval past
what it has loaded. -/
structure Inv (interval : UInt32) (w : World) : Prop where
  spaced : Spaced interval w
  behind : ∀ c ∈ w.calls, c.won = true → c.now ≤ w.last
  past : ∀ c ∈ w.calls, ∀ last, c.stage = .loaded last → last + interval.toNat ≤ c.now
  claimed : ∀ c ∈ w.calls, c.stage = .claimed → c.won = true

theorem inv_init (interval : UInt32) : Inv interval .init where
  spaced i j a b _ ha := by cases ha
  behind c hc := by cases hc
  past c hc := by cases hc
  claimed c hc := by cases hc

variable {interval : UInt32} {w : World}

theorem Inv.enter (h : Inv interval w) (now : Int) : Inv interval (w.act interval (.enter now)) := by
  have hmem : ∀ c ∈ (w.act interval (.enter now)).calls, c ∈ w.calls ∨ c = ⟨now, .verify, false⟩ := by
    intro c hc
    rcases List.mem_append.mp hc with hc | hc
    · exact .inl hc
    · exact .inr (List.mem_singleton.mp hc)
  have hold : ∀ (i : Nat) (a : Call), (w.calls ++ [⟨now, .verify, false⟩])[i]? = some a →
      a.won = true → w.calls[i]? = some a := by
    intro i a ha hwon
    rcases Nat.lt_or_ge i w.calls.length with hlt | hge
    · rwa [List.getElem?_append_left hlt] at ha
    · rw [List.getElem?_append_right hge] at ha
      have heq := List.mem_singleton.mp (List.mem_of_getElem? ha)
      rw [heq] at hwon
      cases hwon
  refine ⟨?_, ?_, ?_, ?_⟩
  · intro i j a b hij ha hb hwa hwb
    exact h.spaced i j a b hij (hold i a ha hwa) (hold j b hb hwb) hwa hwb
  · intro c hc hwon
    rcases hmem c hc with hc | rfl
    · exact h.behind c hc hwon
    · cases hwon
  · intro c hc last hstage
    rcases hmem c hc with hc | rfl
    · exact h.past c hc last hstage
    · cases hstage
  · intro c hc hstage
    rcases hmem c hc with hc | rfl
    · exact h.claimed c hc hstage
    · cases hstage

/-- A step that leaves the word alone and makes no call a winner. -/
theorem Inv.quiet (h : Inv interval w) {i : Nat} {c c' : Call} (hi : w.calls[i]? = some c)
    (hnow : c'.now = c.now) (hwon : c'.won = c.won)
    (hpast : ∀ last, c'.stage = .loaded last → last + interval.toNat ≤ c'.now)
    (hclaimed : c'.stage = .claimed → c'.won = true) :
    Inv interval { w with calls := w.calls.set i c' } := by
  have hin : c ∈ w.calls := List.mem_of_getElem? hi
  have hfrom : ∀ (k : Nat) (a : Call), (w.calls.set i c')[k]? = some a →
      ∃ b, w.calls[k]? = some b ∧ b.now = a.now ∧ b.won = a.won := by
    intro k a ha
    rw [List.getElem?_set] at ha
    split_ifs at ha with hk hlt
    · cases ha
      exact ⟨c, hk ▸ hi, hnow.symm, hwon.symm⟩
    · exact ⟨a, ha, rfl, rfl⟩
  refine ⟨?_, ?_, ?_, ?_⟩
  · intro k j a b hkj ha hb hwa hwb
    obtain ⟨a', ha', hna, hwa'⟩ := hfrom k a ha
    obtain ⟨b', hb', hnb, hwb'⟩ := hfrom j b hb
    rw [← hna, ← hnb]
    exact h.spaced k j a' b' hkj ha' hb' (hwa'.trans hwa) (hwb'.trans hwb)
  · intro a ha hwa
    rcases List.mem_or_eq_of_mem_set ha with ha | rfl
    · exact h.behind a ha hwa
    · rw [hnow]
      exact h.behind c hin (hwon ▸ hwa)
  · intro a ha last hstage
    rcases List.mem_or_eq_of_mem_set ha with ha | rfl
    · exact h.past a ha last hstage
    · exact hpast last hstage
  · intro a ha hstage
    rcases List.mem_or_eq_of_mem_set ha with ha | rfl
    · exact h.claimed a ha hstage
    · exact hclaimed hstage

/-- A swap that succeeds is an interval past every call that has swapped. -/
theorem Inv.swap (h : Inv interval w) {i : Nat} {c : Call} (hi : w.calls[i]? = some c)
    (hstage : c.stage = .loaded w.last) :
    Inv interval ⟨c.now, w.calls.set i { c with stage := .claimed, won := true }⟩ := by
  have hin : c ∈ w.calls := List.mem_of_getElem? hi
  have hpast := h.past c hin _ hstage
  have hnat : (0 : Int) ≤ interval.toNat := Int.natCast_nonneg _
  have hcases : ∀ (k : Nat) (a : Call),
      (w.calls.set i { c with stage := .claimed, won := true })[k]? = some a →
      k = i ∧ a = { c with stage := .claimed, won := true } ∨ k ≠ i ∧ w.calls[k]? = some a := by
    intro k a ha
    rw [List.getElem?_set] at ha
    split_ifs at ha with hk hlt
    · exact .inl ⟨hk.symm, (Option.some.inj ha).symm⟩
    · exact .inr ⟨fun h => hk h.symm, ha⟩
  have hbehind : ∀ (k : Nat) (a : Call), w.calls[k]? = some a → a.won = true →
      a.now + interval.toNat ≤ c.now := by
    intro k a ha hwa
    have hle := h.behind a (List.mem_of_getElem? ha) hwa
    omega
  refine ⟨?_, ?_, ?_, ?_⟩
  · intro k j a b hkj ha hb hwa hwb
    rcases hcases k a ha with ⟨rfl, rfl⟩ | ⟨-, hka⟩
    · rcases hcases j b hb with ⟨rfl, -⟩ | ⟨-, hb⟩
      · exact absurd rfl hkj
      · exact .inr (hbehind j b hb hwb)
    · rcases hcases j b hb with ⟨rfl, rfl⟩ | ⟨-, hjb⟩
      · exact .inl (hbehind k a hka hwa)
      · exact h.spaced k j a b hkj hka hjb hwa hwb
  · intro a ha hwa
    obtain ⟨k, hk⟩ := List.mem_iff_getElem?.mp ha
    rcases hcases k a hk with ⟨-, rfl⟩ | ⟨-, hk⟩
    · exact Int.le_refl _
    · have hle := hbehind k a hk hwa
      dsimp only
      omega
  · intro a ha last hloaded
    rcases List.mem_or_eq_of_mem_set ha with ha | rfl
    · exact h.past a ha last hloaded
    · cases hloaded
  · intro a ha hclaimed
    rcases List.mem_or_eq_of_mem_set ha with ha | rfl
    · exact h.claimed a ha hclaimed
    · rfl

theorem Inv.act (h : Inv interval w) {a : Act} (hforward : Forward w a = true) :
    Inv interval (w.act interval a) := by
  cases a with
  | enter now => exact h.enter now
  | go i found =>
    cases hi : w.calls[i]? with
    | none =>
      have hact : w.act interval (.go i found) = w := by simp only [World.act, hi]
      rwa [hact]
    | some c =>
      have hin : c ∈ w.calls := List.mem_of_getElem? hi
      have hact : w.act interval (.go i found) =
          ⟨(c.step interval w.last found).2, w.calls.set i (c.step interval w.last found).1⟩ := by
        simp only [World.act, hi]
      rw [hact]
      unfold Call.step
      cases hstage : c.stage with
      | verify =>
        refine h.quiet hi rfl rfl (fun last hl => ?_) (fun hc => ?_)
        · dsimp only at hl
          split_ifs at hl
        · dsimp only at hc
          split_ifs at hc
      | missed =>
        refine h.quiet hi rfl rfl (fun last hl => ?_) (fun hc => ?_)
        · dsimp only at hl
          split_ifs at hl with hearly
          cases hl
          have hlate := mt subSat_lt.mpr hearly
          dsimp only
          omega
        · dsimp only at hc
          split_ifs at hc
      | loaded was =>
        by_cases hsame : w.last = was
        · dsimp only
          rw [if_pos hsame]
          exact h.swap hi (hsame ▸ hstage)
        · dsimp only
          rw [if_neg hsame]
          exact h.quiet hi rfl rfl (fun last hl => by cases hl) (fun hc => by cases hc)
      | claimed =>
        have hle : w.last ≤ c.now := by
          simp only [Forward, hi, hstage, bne_self_eq_false, Bool.false_or,
            decide_eq_true_eq] at hforward
          exact hforward
        have heq : c.now = w.last :=
          Int.le_antisymm (h.behind c hin (h.claimed c hin hstage)) hle
        dsimp only
        rw [heq]
        exact h.quiet hi heq.symm rfl (fun last hl => by cases hl) (fun hc => by cases hc)
      | stored =>
        refine h.quiet hi rfl rfl (fun last hl => ?_) (fun hc => ?_)
        · dsimp only at hl
          split_ifs at hl
        · dsimp only at hc
          split_ifs at hc
      | again => exact h.quiet hi rfl rfl (fun last hl => by cases hl) (fun hc => by cases hc)
      | done =>
        refine h.quiet hi rfl rfl (fun last hl => ?_) (fun hc => ?_)
        · rw [hstage] at hl
          cases hl
        · rw [hstage] at hc
          cases hc

theorem Inv.run (h : Inv interval w) {acts : List Act} (hforward : forward interval w acts = true) :
    Inv interval (w.run interval acts) := by
  induction acts generalizing w with
  | nil => exact h
  | cons a acts ih =>
    obtain ⟨hone, hrest⟩ := Bool.and_eq_true_iff.mp hforward
    exact ih (h.act hone) hrest

/-! ## Every interleaving -/

/-- In every interleaving in which no store of `refresh` goes back, the calls that may fetch are an
interval apart. -/
theorem run_spaced (interval : UInt32) (acts : List Act)
    (hforward : forward interval .init acts = true) :
    Spaced interval (World.init.run interval acts) :=
  ((inv_init interval).run hforward).spaced

/-- A call that misses, up to its swap. -/
def missing (now : Int) (i : Nat) : List Act :=
  [.enter now, .go i false, .go i false, .go i false]

/-- Two fetches a minute apart, each stored before the next call begins. -/
def prompt : List Act :=
  missing 100 0 ++ [.go 0 true] ++ missing 160 1 ++ [.go 1 true]

theorem run_spaced_prompt : Spaced 60 (World.init.run 60 prompt) :=
  run_spaced 60 prompt (by decide)

/-- The first call stores its time after the second has swapped a later one in. -/
def delayed : List Act :=
  missing 100 0 ++ missing 160 1 ++ [.go 0 true] ++ missing 165 2

/-- Two calls five seconds apart fetch. -/
theorem not_spaced_delayed : ¬ ∀ acts : List Act, Spaced 60 (World.init.run 60 acts) := by
  intro hall
  have hle := hall delayed 1 2 ⟨160, .claimed, true⟩ ⟨165, .claimed, true⟩ (by decide)
    (by decide) (by decide) rfl rfl
  exact absurd hle (by decide)

end Nilo.Jwt.Refresh
