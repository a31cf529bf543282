import Mathlib.Data.List.Basic

/-!
# Reading off the front of a list

A `Front α ε β` takes something off the front of a list of `α` and answers with it and what is
left, or with an error. Loops over such readers come in three forms: `many` reads until the list is
empty, `drain` does so with a state that each turn changes, and `upTo` reads until it is told to
end.
-/

namespace Nilo.Lib

def Front (α ε β : Type) : Type := List α → Except ε (β × List α)

namespace Front

variable {α ε ε' β γ σ : Type}

instance : Monad (Front α ε) where
  pure x := fun b => .ok (x, b)
  bind r f := fun b =>
    match r b with
    | .error e => .error e
    | .ok (x, rest) => f x rest

def fail (e : ε) : Front α ε β := fun _ => .error e

def lift : Except ε β → Front α ε β
  | .error e => fail e
  | .ok x => pure x

/-- The same reading, its errors under another name. -/
def relabel (f : ε → ε') (r : Front α ε β) : Front α ε' β := fun b =>
  match r b with
  | .error e => .error (f e)
  | .ok got => .ok got

variable {r : Front α ε β} {f : β → Front α ε γ} {b rest : List α} {x : β} {z : γ}

@[simp] theorem pure_apply : (pure x : Front α ε β) b = .ok (x, b) := rfl

@[simp] theorem fail_apply {e : ε} : (fail e : Front α ε β) b = .error e := rfl

theorem bind_apply : (r >>= f) b =
    match r b with
    | .error e => .error e
    | .ok (x, rest) => f x rest := rfl

theorem bind_ok : (r >>= f) b = .ok (z, rest) ↔
    ∃ x mid, r b = .ok (x, mid) ∧ f x mid = .ok (z, rest) := by
  rw [bind_apply]
  cases h : r b with
  | error e => exact ⟨fun h => (by cases h), fun ⟨_, _, h, _⟩ => (by cases h)⟩
  | ok got => exact ⟨fun hf => ⟨got.1, got.2, rfl, hf⟩, fun ⟨_, _, hgot, hf⟩ => (by cases hgot; exact hf)⟩

theorem bind_of_ok {mid : List α} (h : r b = .ok (x, mid)) : (r >>= f) b = f x mid := by
  rw [bind_apply, h]

theorem relabel_ok {g : ε → ε'} : relabel g r b = .ok (x, rest) ↔ r b = .ok (x, rest) := by
  rw [relabel]
  cases r b with
  | error e => exact ⟨fun h => (by cases h), fun h => (by cases h)⟩
  | ok got => exact ⟨fun h => (by cases h; rfl), fun h => (by cases h; rfl)⟩

/-! ## What is asked of a reader -/

/-- At least one element is taken. -/
def Takes (r : Front α ε β) : Prop := ∀ b x rest, r b = .ok (x, rest) → rest.length < b.length

/-! ## Until the list is empty -/

/-- `n` bounds the turns; the length of the list is enough where each turn takes an element. -/
def manyWithin (r : Front α ε β) : Nat → List α → Except ε (List β)
  | _, [] => .ok []
  | 0, _ :: _ => .ok []
  | n + 1, a :: b =>
    match r (a :: b) with
    | .error e => .error e
    | .ok (x, rest) =>
      match manyWithin r n rest with
      | .error e => .error e
      | .ok xs => .ok (x :: xs)

def many (r : Front α ε β) (b : List α) : Except ε (List β) := manyWithin r b.length b

/-! ## With a state -/

def drainWithin (step : σ → Front α ε σ) : Nat → σ → List α → Except ε σ
  | _, s, [] => .ok s
  | 0, s, _ :: _ => .ok s
  | n + 1, s, a :: b =>
    match step s (a :: b) with
    | .error e => .error e
    | .ok (s', rest) => drainWithin step n s' rest

def drain (step : σ → Front α ε σ) (s : σ) (b : List α) : Except ε σ :=
  drainWithin step b.length s b

/-! ## Until it is told to end -/

/-- `stuck` is for a loop that takes nothing, which no turn of a reader that `Takes` is. -/
def upToWithin (stuck : ε) (r : Front α ε (Option β)) : Nat → Front α ε β
  | 0, _ => .error stuck
  | n + 1, b =>
    match r b with
    | .error e => .error e
    | .ok (some x, rest) => .ok (x, rest)
    | .ok (none, rest) => upToWithin stuck r n rest

def upTo (stuck : ε) (r : Front α ε (Option β)) : Front α ε β := fun b =>
  upToWithin stuck r (b.length + 1) b

end Front

end Nilo.Lib
