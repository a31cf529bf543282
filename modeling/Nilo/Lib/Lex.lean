import Mathlib.Algebra.Group.Nat.Defs
import Mathlib.Data.List.Basic

/-!
# Texts in order

Lists compare by their first difference. Fields of one width compare one after the other
(`append_lt_append_iff`), and a number written to a fixed width (`word`) compares as the number
does (`word_lt`), whatever the base, as long as the digits stand in order.
-/

namespace Nilo.Lib.Lex

variable {α : Type} [LT α] {xs ys as bs : List α}

theorem append_lt_append_iff (h : xs.length = ys.length) :
    xs ++ as < ys ++ bs ↔ xs < ys ∨ xs = ys ∧ as < bs := by
  induction xs generalizing ys with
  | nil =>
    obtain rfl := List.length_eq_zero_iff.mp h.symm
    simp
  | cons x xs ih =>
    cases ys with
    | nil => cases h
    | cons y ys =>
      rw [List.cons_append, List.cons_append, List.cons_lt_cons_iff, List.cons_lt_cons_iff,
        ih (Nat.succ.inj h), List.cons.injEq]
      constructor
      · rintro (hlt | ⟨heq, hlt | ⟨hrest, hlt⟩⟩)
        · exact .inl (.inl hlt)
        · exact .inl (.inr ⟨heq, hlt⟩)
        · exact .inr ⟨⟨heq, hrest⟩, hlt⟩
      · rintro ((hlt | ⟨heq, hlt⟩) | ⟨⟨heq, hrest⟩, hlt⟩)
        · exact .inl hlt
        · exact .inr ⟨heq, .inl hlt⟩
        · exact .inr ⟨heq, .inr ⟨hrest, hlt⟩⟩

theorem append_lt (h : xs.length = ys.length) (hlt : xs < ys) (as bs : List α) :
    xs ++ as < ys ++ bs := (append_lt_append_iff h).mpr (.inl hlt)

/-! ## Numbers of a fixed width -/

variable {digit : Nat → α} {base k n m : Nat}

/-- `n` in `k` digits, the highest first. -/
def word (digit : Nat → α) (base : Nat) : Nat → Nat → List α
  | 0, _ => []
  | k + 1, n => digit (n / base ^ k) :: word digit base k (n % base ^ k)

@[simp] theorem length_word : (word digit base k n).length = k := by
  induction k generalizing n with
  | zero => rfl
  | succ k ih => rw [word, List.length_cons, ih]

theorem word_lt (hdigit : ∀ i j, i < j → j < base → digit i < digit j) (hlt : n < m)
    (hm : m < base ^ k) : word digit base k n < word digit base k m := by
  induction k generalizing n m with
  | zero =>
    rw [Nat.pow_zero] at hm
    omega
  | succ k ih =>
    have hpos : 0 < base ^ k := by
      refine Nat.pos_of_ne_zero fun hzero => ?_
      rw [Nat.pow_succ, hzero, Nat.zero_mul] at hm
      exact absurd hm (Nat.not_lt_zero m)
    have htop : m / base ^ k < base := by
      rw [Nat.pow_succ] at hm
      exact Nat.div_lt_of_lt_mul hm
    rw [word, word, List.cons_lt_cons_iff]
    rcases Nat.lt_or_eq_of_le (Nat.div_le_div_right (c := base ^ k) (Nat.le_of_lt hlt)) with
      hfirst | hfirst
    · exact .inl (hdigit _ _ hfirst htop)
    · refine .inr ⟨by rw [hfirst], ih ?_ (Nat.mod_lt _ hpos)⟩
      have hn := Nat.div_add_mod n (base ^ k)
      have hm' := Nat.div_add_mod m (base ^ k)
      rw [hfirst] at hn
      omega

end Nilo.Lib.Lex
