import Nilo.Ws.Frame

/-!
# What a close frame carries (`core/ws_frame.zig`)

`closePayload` puts the code in front of as much of the reason as fits a control frame. The cut steps
back over continuation bytes to the byte that opens their character, so what is sent is a close frame
that `closeIsWellFormed` accepts, and no longer piece of the reason would do (`closePayload_fits`).
-/

namespace Nilo.Ws

open Text (Bytes)
open Utf8 (CharBoundary isContinuation)

/-- The codes an end may put on the wire: those of the registry, of libraries and of applications. -/
def Close.Permitted (code : Close) : Prop :=
  (1000 ≤ code.code ∧ code.code ≤ 1003) ∨ (1007 ≤ code.code ∧ code.code ≤ 1014) ∨
    (3000 ≤ code.code ∧ code.code ≤ 4999)

instance (code : Close) : Decidable code.Permitted := inferInstanceAs (Decidable (_ ∨ _))

theorem Close.Permitted.lt {code : Close} (h : code.Permitted) : code.code < 256 ^ 2 := by
  rw [Close.Permitted] at h
  omega

/-- A continuation byte is `10xxxxxx`. -/
theorem isContinuation_iff (b : UInt8) : b &&& 0xc0 = 0x80 ↔ isContinuation b = true := by
  revert b
  exact Text.forall_byte (by decide)

/-! ## Where the reason is cut -/

theorem startOf_le (reason : Bytes) (n : Nat) : startOf reason n ≤ n := by
  induction n with
  | zero => exact Nat.le_refl 0
  | succ n ih =>
    rw [startOf]
    split_ifs
    · exact Nat.le_succ_of_le ih
    · exact Nat.le_refl _

/-- The byte the loop stops at opens a character. -/
theorem isContinuation_startOf {reason : Bytes} (hlead : isContinuation (reason.getD 0 0) = false)
    (n : Nat) : isContinuation (reason.getD (startOf reason n) 0) = false := by
  induction n with
  | zero => exact hlead
  | succ n ih =>
    rw [startOf]
    split_ifs with hcontinues
    · exact ih
    · rw [isContinuation_iff, Bool.not_eq_true] at hcontinues
      exact hcontinues

/-- The loop steps over continuation bytes alone. -/
theorem isContinuation_past {reason : Bytes} {n m : Nat} (hpast : startOf reason n < m)
    (hle : m ≤ n) : isContinuation (reason.getD m 0) = true := by
  induction n with
  | zero => omega
  | succ n ih =>
    rw [startOf] at hpast
    split_ifs at hpast with hcontinues
    · rcases Nat.lt_or_ge n m with hlast | hearlier
      · obtain rfl : m = n + 1 := Nat.le_antisymm hle hlast
        exact (isContinuation_iff _).mp hcontinues
      · exact ih hpast hearlier
    · omega

theorem reasonFits_le (reason : Bytes) :
    reasonFits reason ≤ reason.length ∧ reasonFits reason ≤ maxControl - 2 := by
  rw [reasonFits]
  split_ifs with hfits
  · exact ⟨Nat.le_refl _, hfits⟩
  · have hcut := startOf_le reason (maxControl - 2)
    omega

theorem take_iff {reason : Bytes} (h : validText reason = true) {k : Nat} (hk : k < reason.length) :
    validText (reason.take k) = true ↔ isContinuation (reason.getD k 0) = false := by
  have hget : reason.getD k 0 = reason.get ⟨k, hk⟩ := by
    rw [List.getD_eq_getElem?_getD, List.getElem?_eq_getElem hk, Option.getD_some]
    rfl
  rw [hget]
  exact Utf8.utf8ValidateSlice_take_iff h hk

/-- The cut falls between two characters. -/
theorem charBoundary_reasonFits {reason : Bytes} (h : validText reason = true) :
    CharBoundary reason (reasonFits reason) := by
  refine CharBoundary.of_take h ?_
  rw [reasonFits]
  split_ifs with hfits
  · rw [List.take_length]
    exact h
  · have hlong : maxControl - 2 < reason.length := Nat.lt_of_not_ge hfits
    have hstart : startOf reason (maxControl - 2) < reason.length :=
      Nat.lt_of_le_of_lt (startOf_le reason _) hlong
    have hlead : isContinuation (reason.getD 0 0) = false :=
      (take_iff h (Nat.zero_lt_of_lt hlong)).mp rfl
    exact (take_iff h hstart).mpr (isContinuation_startOf hlead _)

/-- No longer piece that fits ends between two characters. -/
theorem le_reasonFits {reason : Bytes} (h : validText reason = true) {m : Nat}
    (hlen : m ≤ reason.length) (hfits : m ≤ maxControl - 2)
    (htext : validText (reason.take m) = true) : m ≤ reasonFits reason := by
  rw [reasonFits]
  split_ifs with hall
  · exact hlen
  · refine Nat.le_of_not_lt fun hpast => ?_
    have hcontinues := isContinuation_past hpast hfits
    rw [take_iff h (Nat.lt_of_le_of_lt hfits (Nat.lt_of_not_ge hall)), hcontinues] at htext
    cases htext

/-! ## The payload -/

/-- The two bytes in front are the code. -/
theorem readBe_code {code : Close} (h : code.Permitted) :
    Mem.readBe [UInt8.ofNat (code.code / 256), UInt8.ofNat code.code] = code.code := by
  have hread := Mem.readBe_writeBe 2 code.code
  rw [Nat.mod_eq_of_lt h.lt] at hread
  simpa [Mem.writeBe] using hread

theorem closeIsWellFormed_of {code : Close} (h : code.Permitted) {text : Bytes}
    (htext : validText text = true) :
    closeIsWellFormed ([UInt8.ofNat (code.code / 256), UInt8.ofNat code.code] ++ text) = true := by
  have hcode := readBe_code h
  rw [Close.Permitted] at h
  simp only [closeIsWellFormed, List.cons_append, List.nil_append, List.take_succ_cons,
    List.take_zero, List.drop_succ_cons, List.drop_zero, List.length_cons, hcode, htext]
  simp
  omega

/-- For every code an end may send and every reason that is text, however long: the payload fits a
control frame and is well formed, and its reason is the longest piece of the one given that fits and
ends between two characters. -/
theorem closePayload_fits (code : Close) (hcode : code.Permitted) (reason : Bytes)
    (hreason : validText reason = true) :
    (closePayload code reason).length ≤ maxControl ∧
      closeIsWellFormed (closePayload code reason) = true ∧
      Mem.readBe ((closePayload code reason).take 2) = code.code ∧
      ∃ n, (closePayload code reason).drop 2 = reason.take n ∧ n ≤ reason.length ∧ n ≤ 123 ∧
        CharBoundary reason n ∧
        ∀ m, m ≤ reason.length → m ≤ 123 → CharBoundary reason m → m ≤ n := by
  obtain ⟨hlen, hfits⟩ := reasonFits_le reason
  have hboundary := charBoundary_reasonFits hreason
  refine ⟨?_, closeIsWellFormed_of hcode hboundary.before, readBe_code hcode, reasonFits reason, rfl,
    hlen, hfits, hboundary, ?_⟩
  · rw [closePayload, List.length_append, List.length_take, Nat.min_eq_left hlen]
    rw [maxControl] at hfits
    simp only [List.length_cons, List.length_nil, maxControl]
    omega
  · exact fun m hmlen hmfits hm => le_reasonFits hreason hmlen hmfits hm.before

/-- Of 62 characters of two bytes, 61 fit. -/
theorem closePayload_fits_cut :
    let reason := (List.replicate 62 [(0xc3 : UInt8), 0xa9]).flatten
    reasonFits reason = 122 ∧ closeIsWellFormed (closePayload .goingAway reason) = true :=
  ⟨by decide +kernel, (closePayload_fits .goingAway (by decide) _ (by decide +kernel)).2.1⟩

end Nilo.Ws
