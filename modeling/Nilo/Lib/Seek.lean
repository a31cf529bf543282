import Mathlib.Tactic.Basic

/-!
# A search that skips

A search walks forward from `t`. A turn either stops at the place it is at or skips to a later one,
and is cut off at `stop`. Where nothing that is skipped would have been a hit, what is found is the
first hit there is, and nothing is found only where there is none (`seek_least`).
-/

namespace Nilo.Lib

/-- The search, for at most `n` turns. -/
def seek (turn : Nat → Option Nat) (stop : Nat) : Nat → Nat → Option Nat
  | 0, _ => none
  | n + 1, t =>
    if t < stop then
      match turn t with
      | none => some t
      | some t' => seek turn stop n t'
    else none

/-- From a place that is `good`, a turn stops at hits alone and skips forward over none. -/
structure Skips (good hit : Nat → Prop) (turn : Nat → Option Nat) : Prop where
  stops : ∀ {t}, good t → turn t = none → hit t
  skips : ∀ {t t'}, good t → turn t = some t' →
    good t' ∧ t < t' ∧ ∀ u, t ≤ u → u < t' → ¬ hit u

/-- The first hit from `t` on, or none in front of `stop`. -/
inductive FirstHit (good hit : Nat → Prop) (t stop : Nat) : Option Nat → Prop
  | found {u : Nat} (hgood : good u) (hle : t ≤ u) (hlt : u < stop) (hhit : hit u)
      (hfirst : ∀ v, t ≤ v → v < u → ¬ hit v) : FirstHit good hit t stop (some u)
  | missed (hnone : ∀ v, t ≤ v → v < stop → ¬ hit v) : FirstHit good hit t stop none

theorem FirstHit.skip {good hit : Nat → Prop} {t t' stop : Nat} {r : Option Nat}
    (h : FirstHit good hit t' stop r) (hlt : t < t') (hnone : ∀ u, t ≤ u → u < t' → ¬ hit u) :
    FirstHit good hit t stop r := by
  have hfrom : ∀ {v}, t ≤ v → v < t' ∨ t' ≤ v := fun _ => Nat.lt_or_ge _ _
  cases h with
  | found hgood hle hlast hhit hfirst =>
    refine .found hgood (Nat.le_trans (Nat.le_of_lt hlt) hle) hlast hhit fun v hv hvu => ?_
    rcases hfrom hv with hskipped | hlater
    · exact hnone v hv hskipped
    · exact hfirst v hlater hvu
  | missed hrest =>
    refine .missed fun v hv hvs => ?_
    rcases hfrom hv with hskipped | hlater
    · exact hnone v hv hskipped
    · exact hrest v hlater hvs

/-- Every turn moves on, so as many turns as there are places are enough. -/
theorem seek_least {good hit : Nat → Prop} {turn : Nat → Option Nat} (h : Skips good hit turn)
    {stop n t : Nat} (hgood : good t) (hfuel : stop ≤ t + n) :
    FirstHit good hit t stop (seek turn stop n t) := by
  induction n generalizing t with
  | zero =>
    rw [seek]
    exact .missed fun v hv hvs => by omega
  | succ n ih =>
    rw [seek]
    by_cases hstop : t < stop
    · rw [if_pos hstop]
      cases hturn : turn t with
      | none =>
        exact .found hgood (Nat.le_refl t) hstop (h.stops hgood hturn) fun v hv hvt => by omega
      | some t' =>
        obtain ⟨hgood', hlt, hnone⟩ := h.skips hgood hturn
        exact (ih hgood' (by omega)).skip hlt hnone
    · rw [if_neg hstop]
      exact .missed fun v hv hvs => by omega

end Nilo.Lib
