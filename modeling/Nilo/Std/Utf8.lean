import Nilo.Std.Text
import Mathlib.Tactic.SplitIfs

/-!
# UTF-8 (`std.unicode`)

What `std.unicode.utf8ValidateSlice` accepts: the well-formed byte sequences of RFC 3629, with no
overlong form, no surrogate and nothing past U+10FFFF. Text is a run of characters, and may be cut
between two of them and nowhere else (`utf8ValidateSlice_take_iff`).
-/

namespace Nilo.Utf8

open Text (Bytes)

def isContinuation (b : UInt8) : Bool := 0x80 ≤ b && b ≤ 0xBF

/-- The second byte of a sequence of three. -/
def secondOfThree (lead b : UInt8) : Bool :=
  if lead = 0xE0 then 0xA0 ≤ b && b ≤ 0xBF
  else if lead = 0xED then 0x80 ≤ b && b ≤ 0x9F
  else isContinuation b

/-- The second byte of a sequence of four. -/
def secondOfFour (lead b : UInt8) : Bool :=
  if lead = 0xF0 then 0x90 ≤ b && b ≤ 0xBF
  else if lead = 0xF4 then 0x80 ≤ b && b ≤ 0x8F
  else isContinuation b

def utf8ValidateSlice : Bytes → Bool
  | [] => true
  | lead :: rest =>
    if lead < 0x80 then utf8ValidateSlice rest
    else if 0xC2 ≤ lead ∧ lead ≤ 0xDF then
      match rest with
      | b :: rest => isContinuation b && utf8ValidateSlice rest
      | _ => false
    else if 0xE0 ≤ lead ∧ lead ≤ 0xEF then
      match rest with
      | b :: c :: rest => secondOfThree lead b && isContinuation c && utf8ValidateSlice rest
      | _ => false
    else if 0xF0 ≤ lead ∧ lead ≤ 0xF4 then
      match rest with
      | b :: c :: d :: rest =>
        secondOfFour lead b && isContinuation c && isContinuation d && utf8ValidateSlice rest
      | _ => false
    else false

def isAscii (b : Bytes) : Bool := b.all (· < 0x80)

/-- ASCII in front changes nothing. -/
theorem utf8ValidateSlice_append {front : Bytes} (h : isAscii front = true) (rest : Bytes) :
    utf8ValidateSlice (front ++ rest) = utf8ValidateSlice rest := by
  induction front with
  | nil => rfl
  | cons lead front ih =>
    obtain ⟨hlead, hfront⟩ := Bool.and_eq_true_iff.mp h
    rw [List.cons_append, utf8ValidateSlice.eq_def]
    exact (if_pos (of_decide_eq_true hlead)).trans (ih hfront)

theorem utf8ValidateSlice_of_isAscii {b : Bytes} (h : isAscii b = true) :
    utf8ValidateSlice b = true := by
  have hb := utf8ValidateSlice_append h []
  rw [List.append_nil] at hb
  rw [hb]
  rfl

/-! ## Characters -/

/-- The bytes of one character. -/
def isChar : Bytes → Bool
  | [lead] => lead < 0x80
  | [lead, b] => 0xC2 ≤ lead && lead ≤ 0xDF && isContinuation b
  | [lead, b, c] => 0xE0 ≤ lead && lead ≤ 0xEF && secondOfThree lead b && isContinuation c
  | [lead, b, c, d] =>
    0xF0 ≤ lead && lead ≤ 0xF4 && secondOfFour lead b && isContinuation c && isContinuation d
  | _ => false

/-- A place between two characters: what is on either side of it is text. -/
structure CharBoundary (b : Bytes) (k : Nat) : Prop where
  before : utf8ValidateSlice (b.take k) = true
  after : utf8ValidateSlice (b.drop k) = true

theorem utf8ValidateSlice_one {lead : UInt8} (h : lead < 0x80) (rest : Bytes) :
    utf8ValidateSlice (lead :: rest) = utf8ValidateSlice rest := by
  rw [utf8ValidateSlice.eq_def]
  exact if_pos h

theorem utf8ValidateSlice_two {lead : UInt8} (h : 0xC2 ≤ lead ∧ lead ≤ 0xDF) (rest : Bytes) :
    utf8ValidateSlice (lead :: rest) =
      match rest with
      | b :: rest => isContinuation b && utf8ValidateSlice rest
      | _ => false := by
  have hone : ¬ lead < 0x80 := UInt8.not_lt.mpr (UInt8.le_trans (by decide) h.1)
  rw [utf8ValidateSlice.eq_def]
  exact (if_neg hone).trans (if_pos h)

theorem utf8ValidateSlice_three {lead : UInt8} (h : 0xE0 ≤ lead ∧ lead ≤ 0xEF) (rest : Bytes) :
    utf8ValidateSlice (lead :: rest) =
      match rest with
      | b :: c :: rest => secondOfThree lead b && isContinuation c && utf8ValidateSlice rest
      | _ => false := by
  have hone : ¬ lead < 0x80 := UInt8.not_lt.mpr (UInt8.le_trans (by decide) h.1)
  have htwo : ¬ (0xC2 ≤ lead ∧ lead ≤ 0xDF) := fun htwo =>
    absurd (UInt8.le_trans h.1 htwo.2) (by decide)
  rw [utf8ValidateSlice.eq_def]
  exact (if_neg hone).trans ((if_neg htwo).trans (if_pos h))

theorem utf8ValidateSlice_four {lead : UInt8} (h : 0xF0 ≤ lead ∧ lead ≤ 0xF4) (rest : Bytes) :
    utf8ValidateSlice (lead :: rest) =
      match rest with
      | b :: c :: d :: rest =>
        secondOfFour lead b && isContinuation c && isContinuation d && utf8ValidateSlice rest
      | _ => false := by
  have hone : ¬ lead < 0x80 := UInt8.not_lt.mpr (UInt8.le_trans (by decide) h.1)
  have htwo : ¬ (0xC2 ≤ lead ∧ lead ≤ 0xDF) := fun htwo =>
    absurd (UInt8.le_trans h.1 htwo.2) (by decide)
  have hthree : ¬ (0xE0 ≤ lead ∧ lead ≤ 0xEF) := fun hthree =>
    absurd (UInt8.le_trans h.1 hthree.2) (by decide)
  rw [utf8ValidateSlice.eq_def]
  exact (if_neg hone).trans ((if_neg htwo).trans ((if_neg hthree).trans (if_pos h)))

/-- No other byte opens a character. -/
theorem utf8ValidateSlice_none {lead : UInt8} (hone : ¬ lead < 0x80)
    (htwo : ¬ (0xC2 ≤ lead ∧ lead ≤ 0xDF)) (hthree : ¬ (0xE0 ≤ lead ∧ lead ≤ 0xEF))
    (hfour : ¬ (0xF0 ≤ lead ∧ lead ≤ 0xF4)) (rest : Bytes) :
    utf8ValidateSlice (lead :: rest) = false := by
  rw [utf8ValidateSlice.eq_def]
  exact (if_neg hone).trans ((if_neg htwo).trans ((if_neg hthree).trans (if_neg hfour)))

/-- The four lengths a character has. -/
theorem isChar_cases {char : Bytes} (h : isChar char = true) :
    (∃ lead, char = [lead] ∧ lead < 0x80) ∨
    (∃ lead b, char = [lead, b] ∧ (0xC2 ≤ lead ∧ lead ≤ 0xDF) ∧ isContinuation b = true) ∨
    (∃ lead b c, char = [lead, b, c] ∧ (0xE0 ≤ lead ∧ lead ≤ 0xEF) ∧
      secondOfThree lead b = true ∧ isContinuation c = true) ∨
    (∃ lead b c d, char = [lead, b, c, d] ∧ (0xF0 ≤ lead ∧ lead ≤ 0xF4) ∧
      secondOfFour lead b = true ∧ isContinuation c = true ∧ isContinuation d = true) := by
  match char with
  | [] => cases h
  | [lead] => exact .inl ⟨lead, rfl, of_decide_eq_true h⟩
  | [lead, b] =>
    simp only [isChar, Bool.and_eq_true, decide_eq_true_eq] at h
    exact .inr (.inl ⟨lead, b, rfl, h.1, h.2⟩)
  | [lead, b, c] =>
    simp only [isChar, Bool.and_eq_true, decide_eq_true_eq] at h
    exact .inr (.inr (.inl ⟨lead, b, c, rfl, h.1.1, h.1.2, h.2⟩))
  | [lead, b, c, d] =>
    simp only [isChar, Bool.and_eq_true, decide_eq_true_eq] at h
    exact .inr (.inr (.inr ⟨lead, b, c, d, rfl, h.1.1.1, h.1.1.2, h.1.2, h.2⟩))
  | _ :: _ :: _ :: _ :: _ :: _ => cases h

/-- A whole character in front changes nothing. -/
theorem utf8ValidateSlice_char {char : Bytes} (h : isChar char = true) (rest : Bytes) :
    utf8ValidateSlice (char ++ rest) = utf8ValidateSlice rest := by
  rcases isChar_cases h with ⟨lead, rfl, hlead⟩ | ⟨lead, b, rfl, hlead, hb⟩ |
    ⟨lead, b, c, rfl, hlead, hb, hc⟩ | ⟨lead, b, c, d, rfl, hlead, hb, hc, hd⟩
  · exact utf8ValidateSlice_one hlead rest
  · refine (utf8ValidateSlice_two hlead (b :: rest)).trans ?_
    simp only [hb, Bool.true_and]
  · refine (utf8ValidateSlice_three hlead (b :: c :: rest)).trans ?_
    simp only [hb, hc, Bool.true_and]
  · refine (utf8ValidateSlice_four hlead (b :: c :: d :: rest)).trans ?_
    simp only [hb, hc, hd, Bool.true_and]

/-- Text that is not empty opens with a character. -/
theorem exists_char {lead : UInt8} {rest : Bytes} (h : utf8ValidateSlice (lead :: rest) = true) :
    ∃ char after, lead :: rest = char ++ after ∧ isChar char = true := by
  by_cases hone : lead < 0x80
  · exact ⟨[lead], rest, rfl, decide_eq_true hone⟩
  by_cases htwo : 0xC2 ≤ lead ∧ lead ≤ 0xDF
  · rw [utf8ValidateSlice_two htwo] at h
    match rest with
    | [] => cases h
    | b :: rest =>
      simp only [Bool.and_eq_true] at h
      exact ⟨[lead, b], rest, rfl, by simp [isChar, htwo, h]⟩
  by_cases hthree : 0xE0 ≤ lead ∧ lead ≤ 0xEF
  · rw [utf8ValidateSlice_three hthree] at h
    match rest with
    | [] => cases h
    | [_] => cases h
    | b :: c :: rest =>
      simp only [Bool.and_eq_true] at h
      exact ⟨[lead, b, c], rest, rfl, by simp [isChar, hthree, h]⟩
  by_cases hfour : 0xF0 ≤ lead ∧ lead ≤ 0xF4
  · rw [utf8ValidateSlice_four hfour] at h
    match rest with
    | [] => cases h
    | [_] => cases h
    | [_, _] => cases h
    | b :: c :: d :: rest =>
      simp only [Bool.and_eq_true] at h
      exact ⟨[lead, b, c, d], rest, rfl, by simp [isChar, hfour, h]⟩
  rw [utf8ValidateSlice_none hone htwo hthree hfour] at h
  cases h

/-- A character cut short is no text. -/
theorem utf8ValidateSlice_cut {char : Bytes} (h : isChar char = true) {k : Nat} (hpos : 0 < k)
    (hlt : k < char.length) : utf8ValidateSlice (char.take k) = false := by
  rcases isChar_cases h with ⟨lead, rfl, hlead⟩ | ⟨lead, b, rfl, hlead, hb⟩ |
    ⟨lead, b, c, rfl, hlead, hb, hc⟩ | ⟨lead, b, c, d, rfl, hlead, hb, hc, hd⟩
  · simp only [List.length_cons, List.length_nil] at hlt
    omega
  · obtain rfl : k = 1 := by
      simp only [List.length_cons, List.length_nil] at hlt
      omega
    exact utf8ValidateSlice_two hlead []
  · obtain rfl | rfl : k = 1 ∨ k = 2 := by
      simp only [List.length_cons, List.length_nil] at hlt
      omega
    · exact utf8ValidateSlice_three hlead []
    · exact utf8ValidateSlice_three hlead [b]
  · obtain rfl | rfl | rfl : k = 1 ∨ k = 2 ∨ k = 3 := by
      simp only [List.length_cons, List.length_nil] at hlt
      omega
    · exact utf8ValidateSlice_four hlead []
    · exact utf8ValidateSlice_four hlead [b]
    · exact utf8ValidateSlice_four hlead [b, c]

theorem isContinuation_of_within {low high b : UInt8} (hlow : 0x80 ≤ low) (hhigh : high ≤ 0xBF)
    (h : (low ≤ b && b ≤ high) = true) : isContinuation b = true := by
  rw [Bool.and_eq_true_iff, decide_eq_true_eq, decide_eq_true_eq] at h
  rw [isContinuation, Bool.and_eq_true_iff, decide_eq_true_eq, decide_eq_true_eq]
  exact ⟨UInt8.le_trans hlow h.1, UInt8.le_trans h.2 hhigh⟩

theorem isContinuation_of_secondOfThree {lead : UInt8} (b : UInt8) (h : secondOfThree lead b = true) :
    isContinuation b = true := by
  rw [secondOfThree] at h
  split_ifs at h
  · exact isContinuation_of_within (by decide) (by decide) h
  · exact isContinuation_of_within (by decide) (by decide) h
  · exact h

theorem isContinuation_of_secondOfFour {lead : UInt8} (b : UInt8) (h : secondOfFour lead b = true) :
    isContinuation b = true := by
  rw [secondOfFour] at h
  split_ifs at h
  · exact isContinuation_of_within (by decide) (by decide) h
  · exact isContinuation_of_within (by decide) (by decide) h
  · exact h

/-- What opens a character is no continuation byte, and everything behind it is one. -/
theorem isContinuation_char {char : Bytes} (h : isChar char = true) :
    ∃ lead behind, char = lead :: behind ∧ isContinuation lead = false ∧
      ∀ b ∈ behind, isContinuation b = true := by
  have hopens : ∀ lead : UInt8, lead < 0x80 ∨ 0xC2 ≤ lead → isContinuation lead = false := by
    intro lead hlead
    refine Bool.eq_false_iff.mpr fun hwithin => ?_
    rw [isContinuation, Bool.and_eq_true_iff, decide_eq_true_eq, decide_eq_true_eq] at hwithin
    rcases hlead with hlead | hlead
    · exact UInt8.not_lt.mpr hwithin.1 hlead
    · exact absurd (UInt8.le_trans hlead hwithin.2) (by decide)
  have hwide : ∀ {low lead : UInt8}, 0xC2 ≤ low → low ≤ lead → isContinuation lead = false :=
    fun hlow hlead => hopens _ (.inr (UInt8.le_trans hlow hlead))
  rcases isChar_cases h with ⟨lead, rfl, hlead⟩ | ⟨lead, b, rfl, hlead, hb⟩ |
    ⟨lead, b, c, rfl, hlead, hb, hc⟩ | ⟨lead, b, c, d, rfl, hlead, hb, hc, hd⟩
  · exact ⟨lead, [], rfl, hopens lead (.inl hlead), by simp⟩
  · exact ⟨lead, [b], rfl, hopens lead (.inr hlead.1), by simp [hb]⟩
  · exact ⟨lead, [b, c], rfl, hwide (by decide) hlead.1,
      by simp [isContinuation_of_secondOfThree b hb, hc]⟩
  · exact ⟨lead, [b, c, d], rfl, hwide (by decide) hlead.1,
      by simp [isContinuation_of_secondOfFour b hb, hc, hd]⟩

/-- Text in front changes nothing. -/
theorem utf8ValidateSlice_text {front : Bytes} (h : utf8ValidateSlice front = true)
    (rest : Bytes) : utf8ValidateSlice (front ++ rest) = utf8ValidateSlice rest := by
  induction hn : front.length using Nat.strong_induction_on generalizing front with
  | h n ih =>
    match front with
    | [] => rfl
    | lead :: more =>
      obtain ⟨char, after, heq, hchar⟩ := exists_char h
      rw [heq] at h hn ⊢
      rw [utf8ValidateSlice_char hchar] at h
      have hshort : after.length < n := by
        obtain ⟨opening, behind, rfl, -, -⟩ := isContinuation_char hchar
        rw [← hn, List.length_append, List.length_cons]
        omega
      rw [List.append_assoc, utf8ValidateSlice_char hchar, ih after.length hshort h rfl]

/-- Text may be cut wherever the next byte opens a character, and nowhere else. -/
theorem utf8ValidateSlice_take_iff {b : Bytes} (h : utf8ValidateSlice b = true) {k : Nat}
    (hk : k < b.length) :
    utf8ValidateSlice (b.take k) = true ↔ isContinuation (b.get ⟨k, hk⟩) = false := by
  obtain ⟨n, hn⟩ : ∃ n, b.length = n := ⟨_, rfl⟩
  induction n using Nat.strong_induction_on generalizing b k with
  | h n ih =>
    match b with
    | [] => exact absurd hk (Nat.not_lt_zero k)
    | lead :: rest =>
      obtain ⟨char, after, heq, hchar⟩ := exists_char h
      obtain ⟨opening, behind, rfl, hopens, hbehind⟩ := isContinuation_char hchar
      have hshort : after.length < n := by
        rw [← hn, heq, List.length_append, List.length_cons]
        omega
      obtain ⟨rfl, rfl⟩ : opening = lead ∧ rest = behind ++ after := by
        rw [List.cons_append] at heq
        cases heq
        exact ⟨rfl, rfl⟩
      rcases Nat.lt_or_ge k (behind.length + 1) with hin | hpast
      · -- The cut falls in the first character.
        match k with
        | 0 => exact ⟨fun _ => hopens, fun _ => rfl⟩
        | k + 1 =>
          have hin : k < behind.length := Nat.lt_of_succ_lt_succ hin
          have hcut : utf8ValidateSlice ((opening :: behind).take (k + 1)) = false :=
            utf8ValidateSlice_cut hchar k.succ_pos (Nat.succ_lt_succ hin)
          rw [List.take_succ_cons] at hcut
          have hget : (opening :: (behind ++ after)).get ⟨k + 1, hk⟩ = behind.get ⟨k, hin⟩ := by
            simp [List.getElem_append_left hin]
          rw [hget, hbehind _ (List.get_mem behind ⟨k, hin⟩), List.take_succ_cons,
            List.take_append_of_le_length (Nat.le_of_lt hin), hcut]
          simp
      · obtain ⟨j, rfl⟩ := Nat.exists_eq_add_of_le hpast
        have hvalid : utf8ValidateSlice after = true := by
          rw [← utf8ValidateSlice_char hchar]
          exact h
        have hj : j < after.length := by
          simp only [List.length_cons, List.length_append] at hk
          omega
        have htake : (opening :: (behind ++ after)).take (behind.length + 1 + j) =
            (opening :: behind) ++ after.take j := by
          rw [← List.cons_append, List.take_append, List.take_of_length_le (by simp),
            List.length_cons, Nat.add_sub_cancel_left]
        have hget : (opening :: (behind ++ after)).get ⟨behind.length + 1 + j, hk⟩ =
            after.get ⟨j, hj⟩ := by
          simp only [List.get_eq_getElem, ← List.cons_append]
          rw [List.getElem_append_right (by simp)]
          simp
        rw [htake, hget, utf8ValidateSlice_char hchar]
        exact ih after.length hshort hvalid hj rfl

/-- Text cut into text is cut between two characters. -/
theorem CharBoundary.of_take {b : Bytes} {k : Nat} (h : utf8ValidateSlice b = true)
    (htake : utf8ValidateSlice (b.take k) = true) : CharBoundary b k := by
  refine ⟨htake, ?_⟩
  rw [← utf8ValidateSlice_text htake, List.take_append_drop]
  exact h

example : utf8ValidateSlice [0x63, 0xC3, 0xA9, 0xE2, 0x82, 0xAC, 0xF0, 0x9F, 0x98, 0x80] = true := by
  decide

end Nilo.Utf8
