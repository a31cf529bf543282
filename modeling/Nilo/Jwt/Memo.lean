import Mathlib.Data.Nat.Log
import Nilo.Std.Mem

/-!
# The signatures a ring has already checked (`jwt/memo.zig`)

A table of digests, open addressed with a bounded probe. A slot says something only while it is in
use: `clear` puts the flags down and leaves the digests where they are. `Known` is that every
digest in use is one of a set, and it is all there is to say: a lookup that finds a digest has
found it in a slot in use.
-/

namespace Nilo.Jwt

open Text (Bytes)
open Mem

abbrev Digest := Bytes

structure Memo where
  slots : List Digest
  used : List Bool
  /-- Slots that hold a digest. -/
  filled : Nat
deriving DecidableEq, Repr

namespace Memo

/-- How far a lookup or an insert walks from the digest's home slot. -/
def probes : Nat := 8

/-- `init`: the slots are whatever the allocator gave. -/
def init (capacity : Nat) (junk : Nat → Digest) : Memo :=
  let n := 2 ^ Nat.clog 2 (max capacity 1 * 2)
  ⟨(List.range n).map junk, List.replicate n false, 0⟩

/-- `(i + 1) & (slots.len - 1)` -/
def after (m : Memo) (i : Nat) : Nat := (i + 1) &&& (m.slots.length - 1)

def home (m : Memo) (d : Digest) : Nat := readLe (d.take 8) &&& (m.slots.length - 1)

def seek (m : Memo) (d : Digest) : Nat → Nat → Bool
  | 0, _ => false
  | n + 1, i =>
    if m.used[i]? = some true then
      if m.slots[i]? = some d then true else m.seek d n (m.after i)
    else false

/-- Whether these bytes verified before. -/
def has (m : Memo) (d : Digest) : Bool := m.seek d probes (m.home d)

def place (m : Memo) (d : Digest) (start : Nat) : Nat → Nat → Memo
  -- The window is full: the home slot's tenant goes.
  | 0, _ => { m with slots := m.slots.set start d }
  | n + 1, i =>
    if m.used[i]? = some true then
      if m.slots[i]? = some d then m else m.place d start n (m.after i)
    else { m with slots := m.slots.set i d, used := m.used.set i true, filled := m.filled + 1 }

def remember (m : Memo) (d : Digest) : Memo := m.place d (m.home d) probes (m.home d)

/-- Forget everything: the keys changed. -/
def clear (m : Memo) : Memo :=
  { m with used := List.replicate m.used.length false, filled := 0 }

/-! ## What the table knows -/

/-- Every digest in a slot in use is one of `S`. -/
def Known (m : Memo) (S : Digest → Prop) : Prop :=
  ∀ (i : Nat) (d : Digest), m.used[i]? = some true → m.slots[i]? = some d → S d

variable {m : Memo} {S S' : Digest → Prop} {d : Digest}

theorem Known.mono (h : m.Known S) (hsub : ∀ d, S d → S' d) : m.Known S' :=
  fun i d hi hd => hsub d (h i d hi hd)

theorem known_init (capacity : Nat) (junk : Nat → Digest) (S : Digest → Prop) :
    (init capacity junk).Known S := by
  intro i d hi
  rw [init, List.getElem?_replicate] at hi
  split at hi <;> cases hi

theorem known_clear (m : Memo) (S : Digest → Prop) : m.clear.Known S := by
  intro i d hi
  rw [clear, List.getElem?_replicate] at hi
  split at hi <;> cases hi

theorem Known.seek (h : m.Known S) (n i : Nat) (hd : m.seek d n i = true) : S d := by
  induction n generalizing i with
  | zero => cases hd
  | succ n ih =>
    rw [Memo.seek] at hd
    split at hd
    · rename_i hused
      split at hd
      · rename_i hslot
        exact h i d hused hslot
      · exact ih _ hd
    · cases hd

/-- A digest that is found is one that was put in. -/
theorem Known.has (h : m.Known S) (hd : m.has d = true) : S d := h.seek _ _ hd

/-- A slot that is written holds the digest; the rest are as they were. -/
theorem Known.write (h : m.Known S) (hd : S d) (i : Nat) (used : List Bool) (filled : Nat)
    (hused : ∀ j, j ≠ i → used[j]? = m.used[j]?) :
    Known ⟨m.slots.set i d, used, filled⟩ S := by
  intro j e hj he
  by_cases hji : j = i
  · subst hji
    rw [List.getElem?_set_self'] at he
    obtain ⟨_, _, rfl⟩ := Option.map_eq_some_iff.mp he
    exact hd
  · rw [List.getElem?_set_ne (Ne.symm hji)] at he
    exact h j e ((hused j hji).symm.trans hj) he

theorem Known.place (h : m.Known S) (hd : S d) (start n i : Nat) :
    (m.place d start n i).Known S := by
  induction n generalizing i with
  | zero => exact h.write hd start m.used m.filled fun _ _ => rfl
  | succ n ih =>
    rw [Memo.place]
    split
    · split
      · exact h
      · exact ih _
    · refine h.write hd i _ _ fun j hj => ?_
      rw [List.getElem?_set_ne (Ne.symm hj)]

theorem Known.remember (h : m.Known S) (hd : S d) : (m.remember d).Known S := h.place hd _ _ _

end Memo

end Nilo.Jwt
