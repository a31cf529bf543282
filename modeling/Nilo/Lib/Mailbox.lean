import Mathlib.Data.List.Basic

/-!
# Mailboxes

A queue of bounded length that counts what it could not take: a letter it refuses, and, when it
is full, either the letter that comes or the oldest it has.
-/

namespace Nilo.Lib

structure Mailbox (α : Type) where
  queue : List α
  dropped : Nat
deriving DecidableEq, Repr

namespace Mailbox

variable {α : Type}

def miss (m : Mailbox α) : Mailbox α := { m with dropped := m.dropped + 1 }

def put (cap : Nat) (oldest refused : Bool) (m : Mailbox α) (a : α) : Mailbox α :=
  if refused then m.miss
  else if m.queue.length = cap then
    if oldest then ⟨m.queue.tail ++ [a], m.dropped + 1⟩ else m.miss
  else ⟨m.queue ++ [a], m.dropped⟩

def take (m : Mailbox α) : Mailbox α := { m with queue := m.queue.tail }

/-! ## What was handed in, what was taken out and what is missing -/

/-- A mailbox into which `handed` was put, all but `accepted` of it refused, and from which `taken`
was taken. -/
structure Delivers (oldest : Bool) (handed accepted taken : List α) (m : Mailbox α) : Prop where
  accepts : accepted.Sublist handed
  order : (taken ++ m.queue).Sublist accepted
  missing : handed.length = taken.length + m.queue.length + m.dropped
  newest : oldest = true → m.queue <:+ accepted

variable {oldest : Bool} {handed accepted taken : List α} {m : Mailbox α} {a : α}

theorem delivers_empty (oldest : Bool) : Delivers oldest ([] : List α) [] [] ⟨[], 0⟩ :=
  ⟨by simp, by simp, by simp, by simp⟩

theorem Delivers.take {l : List α} (h : Delivers oldest handed accepted taken m)
    (hcons : m.queue = a :: l) : Delivers oldest handed accepted (taken ++ [a]) m.take := by
  have hqueue : m.take.queue = l := by simp [Mailbox.take, hcons]
  have hdropped : m.take.dropped = m.dropped := rfl
  refine ⟨h.accepts, ?_, ?_, ?_⟩
  · have horder := h.order
    rw [hcons] at horder
    rw [hqueue]
    simpa using horder
  · have hmissing := h.missing
    rw [hcons] at hmissing
    rw [hqueue, hdropped]
    simp only [List.length_append, List.length_cons, List.length_nil] at hmissing ⊢
    omega
  · intro hold
    have hnewest := h.newest hold
    rw [hcons] at hnewest
    rw [hqueue]
    exact (List.suffix_cons a l).trans hnewest

theorem Delivers.miss {accepted' : List α} (h : Delivers oldest handed accepted taken m)
    (haccepted : accepted <+: accepted' ∧ accepted'.Sublist (handed ++ [a]))
    (hnewest : oldest = true → m.queue <:+ accepted') :
    Delivers oldest (handed ++ [a]) accepted' taken m.miss := by
  refine ⟨haccepted.2, h.order.trans haccepted.1.sublist, ?_, hnewest⟩
  have hmissing := h.missing
  simp only [Mailbox.miss, List.length_append, List.length_singleton]
  omega

/-- One more is handed in. -/
theorem Delivers.put {cap : Nat} (h : Delivers oldest handed accepted taken m) (hcap : 0 < cap)
    (refused : Bool) (a : α) :
    Delivers oldest (handed ++ [a]) (if refused then accepted else accepted ++ [a]) taken
      (m.put cap oldest refused a) := by
  have hboth : (accepted ++ [a]).Sublist (handed ++ [a]) := h.accepts.append_right [a]
  unfold Mailbox.put
  cases refused with
  | true =>
    refine h.miss ⟨List.prefix_refl _, ?_⟩ h.newest
    exact h.accepts.trans (List.sublist_append_left _ _)
  | false =>
    simp only [Bool.false_eq_true, if_false]
    by_cases hfull : m.queue.length = cap
    · rw [if_pos hfull]
      cases oldest with
      | false =>
        refine h.miss ⟨List.prefix_append _ _, hboth⟩ ?_
        intro hno
        cases hno
      | true =>
        obtain ⟨first, rest, hcons⟩ := List.exists_cons_of_length_pos (by omega : 0 < m.queue.length)
        simp only [if_true, hcons, List.tail_cons]
        refine ⟨hboth, ?_, ?_, ?_⟩
        · have horder := h.order
          rw [hcons] at horder
          have hshort : (taken ++ rest).Sublist (taken ++ first :: rest) :=
            (List.sublist_cons_self first rest).append_left taken
          rw [← List.append_assoc]
          exact (hshort.trans horder).append_right [a]
        · have hmissing := h.missing
          rw [hcons] at hmissing
          simp only [List.length_append, List.length_cons, List.length_nil] at hmissing ⊢
          omega
        · intro hold
          have hnewest := h.newest hold
          rw [hcons] at hnewest
          obtain ⟨gone, hgone⟩ := (List.suffix_cons first rest).trans hnewest
          exact ⟨gone, by rw [← hgone, List.append_assoc]⟩
    · rw [if_neg hfull]
      refine ⟨hboth, ?_, ?_, ?_⟩
      · rw [← List.append_assoc]
        exact h.order.append_right [a]
      · have hmissing := h.missing
        simp only [List.length_append, List.length_singleton]
        omega
      · intro hold
        obtain ⟨gone, hgone⟩ := h.newest hold
        exact ⟨gone, by rw [← hgone, List.append_assoc]⟩

end Mailbox
end Nilo.Lib
