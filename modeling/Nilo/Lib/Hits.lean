import Nilo.Lib.Bits

/-!
# A search over hits

A search goes from one hit of `p` to the next and stops at the first that `q` makes something of. It
finds the first place that is both (`firstHit_eq`).
-/

namespace Nilo.Lib

open Bits (firstIn firstIn_some firstIn_none)

variable {α : Type} {p : Nat → Bool} {q : Nat → Option α} {stop : Nat}

/-- The search from a place on, for at most `n` hits. -/
def firstHit (p : Nat → Bool) (q : Nat → Option α) (stop : Nat) : Nat → Nat → Option α
  | 0, _ => none
  | n + 1, start =>
    match firstIn p start stop with
    | none => none
    | some i =>
      match q i with
      | some a => some a
      | none => firstHit p q stop n (i + 1)

/-- Both a hit and something. -/
def hitAt (p : Nat → Bool) (q : Nat → Option α) (i : Nat) : Bool := p i && (q i).isSome

theorem firstHit_eq {n start : Nat} (hfuel : stop ≤ start + n) :
    firstHit p q stop n start = (firstIn (hitAt p q) start stop).bind q := by
  induction n generalizing start with
  | zero =>
    rw [firstHit, firstIn_none.mpr fun j hle hlt => by omega]
    rfl
  | succ n ih =>
    rw [firstHit]
    cases hfirst : firstIn p start stop with
    | none =>
      rw [firstIn_none.mpr fun j hle hlt => ?_]
      · rfl
      · rw [hitAt, firstIn_none.mp hfirst j hle hlt, Bool.false_and]
    | some i =>
      obtain ⟨hp, hle, hlt, hbefore⟩ := firstIn_some.mp hfirst
      have hskip : ∀ j, start ≤ j → j < i → hitAt p q j = false := by
        intro j hj hji
        rw [hitAt, hbefore j hj hji, Bool.false_and]
      dsimp only
      cases hq : q i with
      | some a =>
        have hhit : firstIn (hitAt p q) start stop = some i := by
          refine firstIn_some.mpr ⟨?_, hle, hlt, hskip⟩
          rw [hitAt, hp, hq]
          rfl
        rw [hhit]
        exact hq.symm
      | none =>
        dsimp only
        have hmiss : hitAt p q i = false := by
          rw [hitAt, hq, Option.isSome_none, Bool.and_false]
        have hnone : firstIn (hitAt p q) start (i + 1) = none := by
          refine firstIn_none.mpr fun j hj hji => ?_
          rcases Nat.lt_or_eq_of_le (Nat.le_of_lt_succ hji) with hlt' | rfl
          · exact hskip j hj hlt'
          · exact hmiss
        rw [ih (by omega), Bits.firstIn_or (a := start) (b := i + 1) (by omega) (by omega), hnone,
          Option.none_or]

end Nilo.Lib
