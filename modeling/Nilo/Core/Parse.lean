import Nilo.Core.Time

/-!
# Reading moments and days (`nilo_parse` of `core/time.zig`)

Every sum of the readers fits, so each reads without a fault (`niloParse_stated`,
`Date.niloParse_day`): what it accepts is the text of a valid `Stated`, and it answers with the moment
that says, if that is in range.
-/

namespace Nilo.Time

open Text (Bytes isDigit between decimal decimal_cons decimal_lt isDigit_iff word_decimal decimal_word
  all_digits)
open Mem (Run Fault)
open Lib.Calendar (monthLength)

/-! ## A run of digits -/

theorem fixedFrom_eq {limit out : Nat} {ds : Bytes} (h : (out + 1) * 10 ^ ds.length ≤ limit) :
    fixedFrom limit out ds =
      .ok (if ds.all isDigit then some (out * 10 ^ ds.length + decimal ds) else none) := by
  induction ds generalizing out with
  | nil => simp [fixedFrom, decimal]
  | cons ch ds ih =>
    rw [fixedFrom, List.all_cons]
    by_cases hch : isDigit ch = true
    · have hd := isDigit_iff.mp hch
      have hpos : 0 < 10 ^ ds.length := Nat.pow_pos (by decide)
      rw [List.length_cons, Nat.pow_succ'] at h
      have hone : (out * 10 + (ch.toNat - 48) + 1) * 10 ^ ds.length ≤ limit := by
        refine Nat.le_trans (Nat.mul_le_mul_right _ ?_) (Nat.mul_assoc .. ▸ h)
        omega
      have hout : out * 10 + (ch.toNat - 48) < limit :=
        Nat.lt_of_lt_of_le (Nat.lt_succ_self _) (Nat.le_trans (Nat.le_mul_of_pos_right _ hpos) hone)
      rw [hch, if_neg (by decide), if_neg (by omega), ih hone, Bool.true_and, decimal_cons,
        List.length_cons, Nat.pow_succ', Nat.add_mul, Nat.mul_assoc, Nat.add_assoc]
    · rw [Bool.eq_false_iff.mpr hch]
      rfl

theorem orNull_fixed {β : Type} {limit : Nat} {ds : Bytes} (h : 10 ^ ds.length ≤ limit)
    (f : Nat → Run (Option β)) :
    orNull (fixed limit ds) f = if ds.all isDigit then f (decimal ds) else .ok none := by
  rw [fixed, fixedFrom_eq (by omega)]
  split_ifs
  · rw [orNull, Nat.zero_mul, Nat.zero_add]
  · rfl

/-- A number of two digits. -/
theorem digits_two {n : Nat} (h : n < 100) :
    ∃ a b, Text.digits 2 n = [a, b] ∧ [a, b].all isDigit = true ∧ decimal [a, b] = n := by
  have hall := all_digits (k := 2) h
  have hdec := decimal_word (k := 2) h
  rw [Text.digits, Lib.Lex.word, Lib.Lex.word, Lib.Lex.word] at hall hdec ⊢
  exact ⟨_, _, rfl, hall, hdec⟩

theorem digits_four {n : Nat} (h : n < 10000) : ∃ a b c d, Text.digits 4 n = [a, b, c, d] ∧
    [a, b, c, d].all isDigit = true ∧ decimal [a, b, c, d] = n := by
  have hall := all_digits (k := 4) h
  have hdec := decimal_word (k := 4) h
  rw [Text.digits, Lib.Lex.word, Lib.Lex.word, Lib.Lex.word, Lib.Lex.word, Lib.Lex.word] at hall hdec ⊢
  exact ⟨_, _, _, _, rfl, hall, hdec⟩

theorem decimal_four_lt {a b c d : UInt8} (h : [a, b, c, d].all isDigit = true) :
    decimal [a, b, c, d] < 10000 := by
  have hlt := decimal_lt h
  rw [List.length_cons, List.length_cons, List.length_cons, List.length_singleton] at hlt
  omega

/-! ## The fraction -/

theorem fraction_step (d D n k : Nat) :
    (d * 10 ^ n + D) * 10 ^ (k + 1) / 10 ^ (n + 1) = d * 10 ^ k + D * 10 ^ k / 10 ^ n := by
  have hpos : 0 < 10 ^ (n + 1) := Nat.pow_pos (by decide)
  have hsplit : (d * 10 ^ n + D) * 10 ^ (k + 1) = 10 ^ (n + 1) * (d * 10 ^ k) + D * 10 ^ k * 10 := by
    ring
  rw [hsplit, Nat.mul_add_div hpos, Nat.pow_succ 10 n, Nat.mul_div_mul_right _ _ (by decide)]

/-- The loop with `k` digits of a microsecond still to come. -/
theorem fractionFrom_eq {k f : Nat} (hk : k ≤ 6) (hf : f + 10 ^ k ≤ 1000000) (b : Bytes) :
    fractionFrom f ((if k = 0 then 0 else 10 ^ (k - 1) : Nat) : Int) b =
      .ok (((f + decimal (b.takeWhile isDigit) * 10 ^ k / 10 ^ (b.takeWhile isDigit).length : Nat) :
        Int), b.dropWhile isDigit) := by
  induction b generalizing k f with
  | nil => simp [fractionFrom, decimal]
  | cons ch rest ih =>
    rw [fractionFrom]
    by_cases hch : isDigit ch = true
    · have hd := isDigit_iff.mp hch
      have hmore := decimal_lt (List.all_takeWhile (p := isDigit) (l := rest))
      rw [if_pos hch, List.takeWhile_cons_of_pos hch, List.dropWhile_cons_of_pos hch, decimal_cons,
        List.length_cons]
      cases k with
      | zero =>
        have hnone : ((ch.toNat - 48) * 10 ^ (rest.takeWhile isDigit).length +
            decimal (rest.takeWhile isDigit)) * 10 ^ 0 /
              10 ^ ((rest.takeWhile isDigit).length + 1) = 0 := by
          refine Nat.div_eq_of_lt ?_
          have htop : (ch.toNat - 48) * 10 ^ (rest.takeWhile isDigit).length ≤
              9 * 10 ^ (rest.takeWhile isDigit).length := Nat.mul_le_mul_right _ (by omega)
          rw [Nat.pow_zero, Nat.mul_one, Nat.pow_succ]
          omega
        have hdone := ih (k := 0) (f := f) (by omega) hf
        rw [if_pos rfl] at hdone
        rw [if_pos rfl, if_neg (by decide), hnone]
        rw [Nat.pow_zero, Nat.mul_one, Nat.div_eq_of_lt hmore] at hdone
        exact hdone
      | succ k =>
        have hpow : 10 ^ k ≤ 100000 := Nat.pow_le_pow_right (show 0 < 10 by decide) (show k ≤ 5 by omega)
        have hpos : 0 < 10 ^ k := Nat.pow_pos (by decide)
        have htop : (ch.toNat - 48) * 10 ^ k ≤ 9 * 10 ^ k := Nat.mul_le_mul_right _ (by omega)
        rw [Nat.pow_succ] at hf
        have hscale : ((10 ^ k : Nat) : Int).tdiv 10 =
            ((if k = 0 then 0 else 10 ^ (k - 1) : Nat) : Int) := by
          cases k with
          | zero => rfl
          | succ k =>
            rw [if_neg (Nat.succ_ne_zero k), Nat.pow_succ, Nat.cast_mul]
            exact Int.mul_tdiv_cancel _ (by decide)
        have hnext : ((f : Int) + ((ch.toNat - 48) * 10 ^ k : Nat)) =
            ((f + (ch.toNat - 48) * 10 ^ k : Nat) : Int) := (Nat.cast_add ..).symm
        have hmul : ((ch.toNat - 48 : Nat) : Int) * ((10 ^ k : Nat) : Int) =
            ((ch.toNat - 48) * 10 ^ k : Nat) := (Nat.cast_mul ..).symm
        have hscaled : ((10 ^ k : Nat) : Int) > 0 := Int.natCast_pos.mpr hpos
        have hdigit : i64 (((ch.toNat - 48) * 10 ^ k : Nat) : Int) =
            .ok (((ch.toNat - 48) * 10 ^ k : Nat) : Int) := i64_ok (by omega) (by omega)
        have hsum : i64 ((f + (ch.toNat - 48) * 10 ^ k : Nat) : Int) =
            .ok ((f + (ch.toNat - 48) * 10 ^ k : Nat) : Int) := i64_ok (by omega) (by omega)
        rw [if_neg (Nat.succ_ne_zero k), Nat.add_sub_cancel, if_pos hscaled, hmul]
        refine (bind_of_ok hdigit).trans ((bind_of_ok (hnext ▸ hsum)).trans ?_)
        rw [hscale, fraction_step, ← Nat.add_assoc]
        exact ih (by omega) (by omega)
    · rw [if_neg hch, List.takeWhile_cons_of_neg hch, List.dropWhile_cons_of_neg hch]
      simp [decimal]

theorem microsOf_lt {fraction : Bytes} (h : fraction.all isDigit = true) :
    microsOf fraction < 10 ^ 6 := by
  refine Nat.div_lt_of_lt_mul ?_
  rw [Nat.mul_comm (10 ^ fraction.length)]
  exact Nat.mul_comm .. ▸ Nat.mul_lt_mul_of_pos_left (decimal_lt h) (by decide)

theorem takeWhile_digits {fraction behind : Bytes} (h : fraction.all isDigit = true)
    (hb : behind.head?.all fun ch => !isDigit ch) :
    (fraction ++ behind).takeWhile isDigit = fraction ∧
      (fraction ++ behind).dropWhile isDigit = behind := by
  induction fraction with
  | nil =>
    cases behind with
    | nil => exact ⟨rfl, rfl⟩
    | cons ch behind =>
      have hch : ¬ isDigit ch = true := by simpa using hb
      exact ⟨List.takeWhile_cons_of_neg hch, List.dropWhile_cons_of_neg hch⟩
  | cons ch fraction ih =>
    obtain ⟨hch, hrest⟩ := Bool.and_eq_true_iff.mp h
    obtain ⟨htake, hdrop⟩ := ih hrest
    rw [List.cons_append, List.takeWhile_cons_of_pos hch, List.dropWhile_cons_of_pos hch, htake, hdrop]
    exact ⟨rfl, rfl⟩

theorem readFraction_dot (behind : Bytes) : readFraction (46 :: behind) =
    .ok (if behind.takeWhile isDigit = [] then none
      else some ((microsOf (behind.takeWhile isDigit) : Int), behind.dropWhile isDigit)) := by
  have hread := fractionFrom_eq (k := 6) (f := 0) (by decide) (by decide) behind
  rw [Nat.zero_add] at hread
  have hlength : (behind.dropWhile isDigit).length = behind.length ↔
      behind.takeWhile isDigit = [] := by
    have hsum := congrArg List.length (List.takeWhile_append_dropWhile (p := isDigit) (l := behind))
    rw [List.length_append] at hsum
    rw [← List.length_eq_zero_iff]
    omega
  refine (bind_of_ok hread).trans ?_
  dsimp only
  by_cases hnone : behind.takeWhile isDigit = []
  · rw [if_pos hnone, if_pos (hlength.mpr hnone)]
    rfl
  · rw [if_neg hnone, if_neg (mt hlength.mp hnone)]
    rfl

theorem readFraction_none {rest : Bytes} (h : rest.head? ≠ some 46) :
    readFraction rest = .ok (some (0, rest)) := by
  rw [readFraction.eq_def]
  split
  · exact absurd rfl h
  · rfl

/-- What is read of a fraction, with its digits. -/
theorem readFraction_text {fraction behind : Bytes} (h : fraction.all isDigit = true)
    (hb : behind.head?.all fun ch => !isDigit ch) (hdot : behind.head? ≠ some 46) :
    readFraction (fractionText fraction ++ behind) =
      .ok (some ((microsOf fraction : Int), behind)) := by
  rw [fractionText]
  by_cases hnone : fraction = []
  · rw [if_pos hnone, hnone, List.nil_append, readFraction_none hdot]
    rfl
  · obtain ⟨htake, hdrop⟩ := takeWhile_digits h hb
    rw [if_neg hnone, List.cons_append, readFraction_dot, htake, hdrop, if_neg hnone]

theorem readFraction_cases (rest : Bytes) : readFraction rest = .ok none ∨
    ∃ fraction behind, fraction.all isDigit = true ∧ rest = fractionText fraction ++ behind ∧
      readFraction rest = .ok (some ((microsOf fraction : Int), behind)) := by
  by_cases hdot : rest.head? = some 46
  · obtain ⟨behind, rfl⟩ : ∃ behind, rest = 46 :: behind := by
      cases rest with
      | nil => cases hdot
      | cons ch behind =>
        cases hdot
        exact ⟨behind, rfl⟩
    rw [readFraction_dot]
    by_cases hnone : behind.takeWhile isDigit = []
    · rw [if_pos hnone]
      exact .inl rfl
    · rw [if_neg hnone]
      refine .inr ⟨_, _, List.all_takeWhile, ?_, rfl⟩
      rw [fractionText, if_neg hnone, List.cons_append, List.takeWhile_append_dropWhile]
  · exact .inr ⟨[], rest, rfl, rfl, readFraction_none hdot⟩

/-! ## The zone -/

theorem Zone.head_text (zone : Zone) :
    (zone.text.head?.all fun ch => !isDigit ch) = true ∧ zone.text.head? ≠ some 46 := by
  cases zone with
  | utc lower => cases lower <;> exact ⟨by decide, by decide⟩
  | offset west hours minutes =>
    cases west <;> exact ⟨rfl, fun h => by cases h⟩

theorem Zone.seconds_bounds {zone : Zone} (h : zone.Valid) :
    -86400 < zone.seconds ∧ zone.seconds < 86400 := by
  cases zone with
  | utc lower =>
    rw [seconds]
    exact ⟨by decide, by decide⟩
  | offset west hours minutes =>
    obtain ⟨hh, hm⟩ := h
    cases west
    · rw [seconds, if_neg Bool.false_ne_true]
      omega
    · rw [seconds, if_pos rfl]
      omega

/-- An offset of six bytes. -/
theorem readOffset_six {sign h₀ h₁ m₀ m₁ : UInt8} (hsign : sign = 43 ∨ sign = 45) :
    readOffset [sign, h₀, h₁, 58, m₀, m₁] =
      if [h₀, h₁].all isDigit then
        if [m₀, m₁].all isDigit then
          if decimal [h₀, h₁] > 23 ∨ decimal [m₀, m₁] > 59 then .ok none
          else .ok (some (Zone.offset (sign == 45) (decimal [h₀, h₁]) (decimal [m₀, m₁])).seconds)
        else .ok none
      else .ok none := by
  have hone : ¬ ([sign, h₀, h₁, 58, m₀, m₁].length = 1 ∧
      ([sign, h₀, h₁, 58, m₀, m₁].getD 0 0 = 90 ∨ [sign, h₀, h₁, 58, m₀, m₁].getD 0 0 = 122)) := by
    rintro ⟨h, -⟩
    cases h
  rw [readOffset, if_neg hone, if_pos ⟨rfl, hsign, rfl⟩]
  change orNull (fixed 256 [h₀, h₁]) (fun hours => orNull (fixed 256 [m₀, m₁]) fun minutes => _) = _
  rw [orNull_fixed (show 10 ^ 2 ≤ 256 by decide)]
  refine if_congr Iff.rfl ?_ rfl
  rw [orNull_fixed (show 10 ^ 2 ≤ 256 by decide)]
  refine if_congr Iff.rfl ?_ rfl
  by_cases hrange : decimal [h₀, h₁] > 23 ∨ decimal [m₀, m₁] > 59
  · rw [if_pos hrange, if_pos hrange]
  · rw [if_neg hrange, if_neg hrange]
    generalize decimal [h₀, h₁] = hours at *
    generalize decimal [m₀, m₁] = minutes at *
    have hhours : i64 ((hours : Int) * 3600) = .ok ((hours : Int) * 3600) :=
      i64_ok (by omega) (by omega)
    have hminutes : i64 ((minutes : Int) * 60) = .ok ((minutes : Int) * 60) :=
      i64_ok (by omega) (by omega)
    have htotal : i64 ((hours : Int) * 3600 + minutes * 60) = .ok ((hours : Int) * 3600 + minutes * 60) :=
      i64_ok (by omega) (by omega)
    have hminus : i64 (-((hours : Int) * 3600 + minutes * 60)) =
        .ok (-((hours : Int) * 3600 + minutes * 60)) := i64_ok (by omega) (by omega)
    refine (bind_of_ok hhours).trans ((bind_of_ok hminutes).trans ((bind_of_ok htotal).trans ?_))
    rcases hsign with rfl | rfl
    · refine (if_neg (show ¬ (43 : UInt8) = 45 by decide)).trans ?_
      exact congrArg (fun n => Except.ok (some n)) (Int.one_mul _).symm
    · refine (if_pos (show (45 : UInt8) = 45 from rfl)).trans ((bind_of_ok hminus).trans ?_)
      exact congrArg (fun n => Except.ok (some n)) (Int.neg_one_mul _).symm

theorem readOffset_text {zone : Zone} (h : zone.Valid) :
    readOffset zone.text = .ok (some zone.seconds) := by
  cases zone with
  | utc lower => cases lower <;> rfl
  | offset west hours minutes =>
    obtain ⟨hh, hm⟩ := h
    obtain ⟨h₀, h₁, htext, hall, hdec⟩ := digits_two (n := hours) (by omega)
    obtain ⟨m₀, m₁, htext', hall', hdec'⟩ := digits_two (n := minutes) (by omega)
    have hin : ¬ (hours > 23 ∨ minutes > 59) := by omega
    have hsix {sign : UInt8} (hsign : sign = 43 ∨ sign = 45) :
        readOffset [sign, h₀, h₁, 58, m₀, m₁] =
          .ok (some (Zone.offset (sign == 45) hours minutes).seconds) := by
      rw [readOffset_six hsign, hdec, hdec', if_pos hall, if_pos hall', if_neg hin]
    rw [Zone.text, htext, htext']
    cases west
    · exact hsix (.inl rfl)
    · exact hsix (.inr rfl)

theorem readOffset_cases (rest : Bytes) : readOffset rest = .ok none ∨
    ∃ zone : Zone, zone.Valid ∧ rest = zone.text := by
  by_cases hone : rest.length = 1 ∧ (rest.getD 0 0 = 90 ∨ rest.getD 0 0 = 122)
  · obtain ⟨hlength, hz⟩ := hone
    obtain ⟨z, rfl⟩ := List.length_eq_one_iff.mp hlength
    rcases hz with hz | hz
    · exact .inr ⟨.utc false, trivial, congrArg (fun z => [z]) hz⟩
    · exact .inr ⟨.utc true, trivial, congrArg (fun z => [z]) hz⟩
  · by_cases hsix : rest.length = 6 ∧ (rest.getD 0 0 = 43 ∨ rest.getD 0 0 = 45) ∧ rest.getD 3 0 = 58
    · obtain ⟨hlength, hsign, hcolon⟩ := hsix
      obtain ⟨sign, h₀, h₁, colon, m₀, m₁, rfl⟩ : ∃ a b c d e f, rest = [a, b, c, d, e, f] := by
        rcases rest with _ | ⟨a, _ | ⟨b, _ | ⟨c, _ | ⟨d, _ | ⟨e, _ | ⟨f, _ | ⟨g, rest⟩⟩⟩⟩⟩⟩⟩ <;>
          first | exact ⟨a, b, c, d, e, f, rfl⟩ | cases hlength
      obtain rfl : colon = 58 := hcolon
      have hsign : sign = 43 ∨ sign = 45 := hsign
      rw [readOffset_six hsign]
      split_ifs with hh hm hrange
      · exact .inl rfl
      · refine .inr ⟨.offset (sign == 45) (decimal [h₀, h₁]) (decimal [m₀, m₁]), by
          constructor <;> omega, ?_⟩
        have htext := word_decimal hh
        have htext' := word_decimal hm
        rw [Zone.text]
        change _ = _ :: (Text.digits [h₀, h₁].length (decimal [h₀, h₁]) ++ [58] ++
          Text.digits [m₀, m₁].length (decimal [m₀, m₁]))
        rw [htext, htext']
        rcases hsign with rfl | rfl <;> rfl
      · exact .inl rfl
      · exact .inl rfl
    · rw [readOffset, if_neg hone, if_neg hsix]
      exact .inl rfl

/-! ## The whole text -/

def InRange (micros : Int) : Prop := firstMicros ≤ micros ∧ micros ≤ lastMicros

instance : DecidablePred InRange := fun micros =>
  inferInstanceAs (Decidable (firstMicros ≤ micros ∧ micros ≤ lastMicros))

theorem Day.Valid.le_31 {day : Day} (h : day.Valid) : day.day ≤ 31 := by
  have := Int.le_trans h.within (monthLength_le _ _)
  omega

theorem Day.Valid.bounds {day : Day} (h : day.Valid) :
    -719162 ≤ day.days ∧ day.days ≤ 2932896 :=
  dayOf_bounds (by have := h.year; omega) h.month h.day h.within

/-- Every sum of the moment fits. -/
theorem momentOf_eq {s : Stated} (h : s.Valid) :
    momentOf s.day.year s.day.month s.day.day s.hour s.minute s.second (microsOf s.fraction)
      s.zone.seconds = .ok (if InRange s.micros then some s.micros else none) := by
  have hdays := h.day.bounds
  have hzone := Zone.seconds_bounds h.zone
  have hmicros : microsOf s.fraction < 1000000 := microsOf_lt h.fraction
  have hhour := h.hour
  have hminute := h.minute
  have hsecond := h.second
  have hyear := h.day.year
  have hcivil : daysFromCivil s.day.year s.day.month s.day.day = .ok s.day.days :=
    daysFromCivil_eq (by omega) h.day.month ⟨h.day.day, h.day.le_31⟩
  rw [momentOf, Stated.micros, secsPerDay, microsPerSec]
  generalize s.day.days = days at *
  generalize s.zone.seconds = offset at *
  generalize microsOf s.fraction = fraction at *
  refine (bind_of_ok hcivil).trans ?_
  refine (bind_of_ok (i64_ok (n := days * 86400) (by omega) (by omega))).trans ?_
  refine (bind_of_ok (i64_ok (n := (s.hour : Int) * 3600) (by omega) (by omega))).trans ?_
  refine (bind_of_ok (i64_ok (n := days * 86400 + s.hour * 3600) (by omega) (by omega))).trans ?_
  refine (bind_of_ok (i64_ok (n := (s.minute : Int) * 60) (by omega) (by omega))).trans ?_
  refine (bind_of_ok (i64_ok (n := days * 86400 + s.hour * 3600 + s.minute * 60) (by omega)
    (by omega))).trans ?_
  refine (bind_of_ok (i64_ok (n := days * 86400 + s.hour * 3600 + s.minute * 60 + s.second) (by omega)
    (by omega))).trans ?_
  generalize hsecs : days * 86400 + s.hour * 3600 + s.minute * 60 + s.second = civil
  refine (bind_of_ok (i64_ok (n := civil - offset) (by omega) (by omega))).trans ?_
  refine (bind_of_ok (i64_ok (n := (civil - offset) * 1000000) (by omega) (by omega))).trans ?_
  refine (bind_of_ok (i64_ok (n := (civil - offset) * 1000000 + fraction) (by omega)
    (by omega))).trans ?_
  generalize (civil - offset) * 1000000 + (fraction : Int) = micros
  by_cases hrange : InRange micros
  · rw [if_pos hrange, if_neg (by rw [InRange] at hrange; omega)]
    rfl
  · rw [if_neg hrange, if_pos (by rw [InRange] at hrange; omega)]
    rfl

/-- What follows a run of digits, or nothing. -/
theorem orNull_run {β : Type} {limit : Nat} {l : Bytes} {f : Nat → Run (Option β)}
    {r : Run (Option β)} (h : 10 ^ l.length ≤ limit) (hr : f (decimal l) = r) :
    orNull (fixed limit l) f = if l.all isDigit then r else .ok none := by
  rw [orNull_fixed h, hr]

/-- A text long enough, by its bytes. -/
theorem niloParse_shape (y₀ y₁ y₂ y₃ c₄ m₀ m₁ c₇ d₀ d₁ c₁₀ h₀ h₁ c₁₃ n₀ n₁ c₁₆ s₀ s₁ : UInt8)
    (rest : Bytes) :
    niloParse ([y₀, y₁, y₂, y₃, c₄, m₀, m₁, c₇, d₀, d₁] ++
      ([c₁₀, h₀, h₁, c₁₃, n₀, n₁, c₁₆, s₀, s₁] ++ rest)) =
    if rest = [] then .ok none
    else if c₄ ≠ 45 ∨ c₇ ≠ 45 then .ok none
    else if c₁₀ ≠ 84 ∧ c₁₀ ≠ 116 then .ok none
    else if c₁₃ ≠ 58 ∨ c₁₆ ≠ 58 then .ok none
    else if [y₀, y₁, y₂, y₃].all isDigit then
      if [m₀, m₁].all isDigit then
        if [d₀, d₁].all isDigit then
          if [h₀, h₁].all isDigit then
            if [n₀, n₁].all isDigit then
              if [s₀, s₁].all isDigit then
                readBehind (decimal [y₀, y₁, y₂, y₃]) (decimal [m₀, m₁]) (decimal [d₀, d₁])
                  (decimal [h₀, h₁]) (decimal [n₀, n₁]) (decimal [s₀, s₁]) rest
              else .ok none
            else .ok none
          else .ok none
        else .ok none
      else .ok none
    else .ok none := by
  have hlength : ([y₀, y₁, y₂, y₃, c₄, m₀, m₁, c₇, d₀, d₁] ++
      ([c₁₀, h₀, h₁, c₁₃, n₀, n₁, c₁₆, s₀, s₁] ++ rest)).length < 20 ↔ rest = [] := by
    rw [← List.length_eq_zero_iff, List.length_append, List.length_append]
    simp only [List.length_cons, List.length_nil]
    omega
  have htwo : 10 ^ 2 ≤ 256 := by decide
  rw [niloParse]
  refine if_congr hlength rfl (if_congr Iff.rfl rfl (if_congr Iff.rfl rfl (if_congr Iff.rfl rfl ?_)))
  refine orNull_run (l := [y₀, y₁, y₂, y₃]) (show 10 ^ 4 ≤ 2 ^ 63 by decide) ?_
  refine orNull_run (l := [m₀, m₁]) htwo (orNull_run (l := [d₀, d₁]) htwo ?_)
  refine orNull_run (l := [h₀, h₁]) htwo (orNull_run (l := [n₀, n₁]) htwo ?_)
  exact orNull_run (l := [s₀, s₁]) htwo rfl

theorem ten_bytes {l : Bytes} (h : l.length = 10) :
    ∃ a b c d e f g i j k, l = [a, b, c, d, e, f, g, i, j, k] := by
  rcases l with _ | ⟨a, _ | ⟨b, _ | ⟨c, _ | ⟨d, _ | ⟨e, _ | ⟨f, _ | ⟨g, _ | ⟨i, _ | ⟨j, _ | ⟨k, _ |
    ⟨m, l⟩⟩⟩⟩⟩⟩⟩⟩⟩⟩⟩ <;>
    first | exact ⟨a, b, c, d, e, f, g, i, j, k, rfl⟩ | cases h

theorem nine_bytes {l : Bytes} (h : l.length = 9) :
    ∃ a b c d e f g i j, l = [a, b, c, d, e, f, g, i, j] := by
  rcases l with _ | ⟨a, _ | ⟨b, _ | ⟨c, _ | ⟨d, _ | ⟨e, _ | ⟨f, _ | ⟨g, _ | ⟨i, _ | ⟨j, _ |
    ⟨m, l⟩⟩⟩⟩⟩⟩⟩⟩⟩⟩ <;>
    first | exact ⟨a, b, c, d, e, f, g, i, j, rfl⟩ | cases h

theorem day_of_checks {year month day : Nat} (hy : ¬ year < 1) (hy' : year < 10000)
    (hm : ¬ (month < 1 ∨ month > 12)) (hd : ¬ (day < 1 ∨ day > daysInMonth year month)) :
    (Day.mk year month day).Valid := by
  refine ⟨by dsimp only; omega, by dsimp only; omega, by dsimp only; omega, ?_⟩
  dsimp only
  rw [← daysInMonth_eq (Int.natCast_nonneg year) (by omega)]
  omega

theorem Day.Valid.checks {d : Day} (h : d.Valid) : ¬ d.year < 1 ∧ ¬ (d.month < 1 ∨ d.month > 12) ∧
    ¬ (d.day < 1 ∨ d.day > daysInMonth d.year d.month) := by
  have hyear := h.year
  have hmonth := h.month
  have hday := h.day
  have hwithin := h.within
  rw [← daysInMonth_eq (Int.natCast_nonneg d.year) hmonth] at hwithin
  omega

theorem readBehind_stated {s : Stated} (h : s.Valid) :
    readBehind s.day.year s.day.month s.day.day s.hour s.minute s.second
      (fractionText s.fraction ++ s.zone.text) =
        .ok (if InRange s.micros then some s.micros else none) := by
  obtain ⟨hyear, hmonth, hday⟩ := h.day.checks
  have hclock : ¬ (s.hour > 23 ∨ s.minute > 59 ∨ s.second > 59) := by
    have := h.hour
    have := h.minute
    have := h.second
    omega
  rw [readBehind, if_neg hyear, if_neg hmonth, if_neg hday, if_neg hclock,
    readFraction_text h.fraction s.zone.head_text.1 s.zone.head_text.2]
  change orNull (readOffset s.zone.text) _ = _
  rw [readOffset_text h.zone]
  exact momentOf_eq h

theorem readBehind_cases {year month day hour minute second : Nat} (hy : year < 10000) (rest : Bytes) :
    readBehind year month day hour minute second rest = .ok none ∨
      ∃ s : Stated, s.Valid ∧ s.day = ⟨year, month, day⟩ ∧ s.hour = hour ∧ s.minute = minute ∧
        s.second = second ∧ fractionText s.fraction ++ s.zone.text = rest := by
  rw [readBehind]
  split_ifs with hyear hmonth hday hclock
  · exact .inl rfl
  · exact .inl rfl
  · exact .inl rfl
  · exact .inl rfl
  · rcases readFraction_cases rest with hnone | ⟨fraction, behind, hall, rfl, hread⟩
    · rw [hnone]
      exact .inl rfl
    · rw [hread]
      rcases readOffset_cases behind with hnone | ⟨zone, hzone, rfl⟩
      · change orNull (readOffset behind) _ = _ ∨ _
        rw [hnone]
        exact .inl rfl
      · refine .inr ⟨⟨⟨year, month, day⟩, false, hour, minute, second, fraction, zone⟩, ?_, rfl, rfl,
          rfl, rfl, rfl⟩
        exact ⟨day_of_checks hyear hy hmonth hday, by dsimp only; omega, by dsimp only; omega,
          by dsimp only; omega, hall, hzone⟩

theorem Day.text_bytes {d : Day} (h : d.Valid) : ∃ y₀ y₁ y₂ y₃ m₀ m₁ d₀ d₁,
    d.text = [y₀, y₁, y₂, y₃, 45, m₀, m₁, 45, d₀, d₁] ∧
      ([y₀, y₁, y₂, y₃].all isDigit = true ∧ decimal [y₀, y₁, y₂, y₃] = d.year) ∧
      ([m₀, m₁].all isDigit = true ∧ decimal [m₀, m₁] = d.month) ∧
      [d₀, d₁].all isDigit = true ∧ decimal [d₀, d₁] = d.day := by
  have hyear := h.year
  have hmonth := h.month
  have hday := h.le_31
  obtain ⟨y₀, y₁, y₂, y₃, htext, hall, hdec⟩ := digits_four (n := d.year) (by omega)
  obtain ⟨m₀, m₁, htext', hall', hdec'⟩ := digits_two (n := d.month) (by omega)
  obtain ⟨d₀, d₁, htext'', hall'', hdec''⟩ := digits_two (n := d.day) (by omega)
  refine ⟨y₀, y₁, y₂, y₃, m₀, m₁, d₀, d₁, ?_, ⟨hall, hdec⟩, ⟨hall', hdec'⟩, hall'', hdec''⟩
  rw [Day.text, htext, htext', htext'']
  rfl

theorem Day.text_of {y₀ y₁ y₂ y₃ m₀ m₁ d₀ d₁ : UInt8} (hy : [y₀, y₁, y₂, y₃].all isDigit = true)
    (hm : [m₀, m₁].all isDigit = true) (hd : [d₀, d₁].all isDigit = true) :
    (Day.mk (decimal [y₀, y₁, y₂, y₃]) (decimal [m₀, m₁]) (decimal [d₀, d₁])).text =
      [y₀, y₁, y₂, y₃, 45, m₀, m₁, 45, d₀, d₁] := by
  have htext := word_decimal hy
  have htext' := word_decimal hm
  have htext'' := word_decimal hd
  simp only [List.length_cons, List.length_nil, Nat.zero_add, Nat.reduceAdd] at htext htext' htext''
  rw [Day.text, htext, htext', htext'']
  rfl

/-- The text of a valid time is read. -/
theorem niloParse_stated {s : Stated} (h : s.Valid) :
    niloParse s.text = .ok (if InRange s.micros then some s.micros else none) := by
  obtain ⟨y₀, y₁, y₂, y₃, m₀, m₁, d₀, d₁, hday, ⟨hy, hy'⟩, ⟨hm, hm'⟩, hd, hd'⟩ := Day.text_bytes h.day
  obtain ⟨h₀, h₁, htext, hh, hh'⟩ := digits_two (n := s.hour) (by have := h.hour; omega)
  obtain ⟨n₀, n₁, htext', hn, hn'⟩ := digits_two (n := s.minute) (by have := h.minute; omega)
  obtain ⟨s₀, s₁, htext'', hs, hs'⟩ := digits_two (n := s.second) (by have := h.second; omega)
  have hrest : fractionText s.fraction ++ s.zone.text ≠ [] := by
    intro hnil
    have hzone := (List.append_eq_nil_iff.mp hnil).2
    cases hz : s.zone with
    | utc lower =>
      rw [hz] at hzone
      cases hzone
    | offset west hours minutes =>
      rw [hz] at hzone
      cases hzone
  have hsep : ¬ ((if s.lower then 116 else 84 : UInt8) ≠ 84 ∧ (if s.lower then 116 else 84 : UInt8) ≠ 116) := by
    cases s.lower <;> decide
  rw [Stated.text, hday, Stated.clock, htext, htext', htext'']
  refine (niloParse_shape y₀ y₁ y₂ y₃ 45 m₀ m₁ 45 d₀ d₁ _ h₀ h₁ 58 n₀ n₁ 58 s₀ s₁ _).trans ?_
  rw [if_neg hrest, if_neg (by decide), if_neg hsep, if_neg (by decide), if_pos hy, if_pos hm,
    if_pos hd, if_pos hh, if_pos hn, if_pos hs, hy', hm', hd', hh', hn', hs']
  exact readBehind_stated h

/-- What is read is the text of a valid time. -/
theorem niloParse_cases (text : Bytes) :
    niloParse text = .ok none ∨ ∃ s : Stated, s.Valid ∧ s.text = text := by
  by_cases hshort : text.length < 20
  · exact .inl (if_pos hshort)
  · obtain ⟨y₀, y₁, y₂, y₃, c₄, m₀, m₁, c₇, d₀, d₁, hfirst⟩ :=
      ten_bytes (l := text.take 10) (by rw [List.length_take]; omega)
    obtain ⟨c₁₀, h₀, h₁, c₁₃, n₀, n₁, c₁₆, s₀, s₁, hsecond⟩ :=
      nine_bytes (l := (text.drop 10).take 9) (by rw [List.length_take, List.length_drop]; omega)
    have htext : text = text.take 10 ++ ((text.drop 10).take 9 ++ (text.drop 10).drop 9) := by
      rw [List.take_append_drop, List.take_append_drop]
    rw [hfirst, hsecond] at htext
    generalize (text.drop 10).drop 9 = rest at htext
    rw [htext, niloParse_shape]
    split_ifs with hrest hdash hsep hcolon hy hm hd hh hn hs
    · exact .inl rfl
    · exact .inl rfl
    · exact .inl rfl
    · exact .inl rfl
    · have hyear := decimal_four_lt hy
      rcases readBehind_cases hyear rest with hnone | ⟨s, hs', hday, hhour, hminute, hsecond', hbehind⟩
      · exact .inl hnone
      · -- The separator is one of two.
        refine .inr ⟨{ s with lower := c₁₀ == 116 }, ⟨hs'.day, hs'.hour, hs'.minute, hs'.second,
          hs'.fraction, hs'.zone⟩, ?_⟩
        have hc₁₀ : (if c₁₀ == 116 then 116 else 84 : UInt8) = c₁₀ := by
          by_cases hlower : c₁₀ = 116
          · rw [hlower]
            rfl
          · rw [if_neg (by simpa using hlower)]
            by_contra hne
            exact hsep ⟨fun heq => hne heq.symm, hlower⟩
        have hclock := word_decimal hh
        have hclock' := word_decimal hn
        have hclock'' := word_decimal hs
        simp only [List.length_cons, List.length_nil, Nat.zero_add, Nat.reduceAdd] at hclock hclock' hclock''
        obtain ⟨rfl, rfl⟩ : c₄ = 45 ∧ c₇ = 45 := by
          rw [not_or, not_not, not_not] at hdash
          exact hdash
        obtain ⟨rfl, rfl⟩ : c₁₃ = 58 ∧ c₁₆ = 58 := by
          rw [not_or, not_not, not_not] at hcolon
          exact hcolon
        rw [Stated.text]
        dsimp only
        rw [hday, Day.text_of hy hm hd, Stated.clock, hhour, hminute, hsecond', hclock, hclock', hclock'',
          hc₁₀, hbehind]
        rfl
    all_goals exact .inl rfl

/-! ## Days -/

theorem Date.niloParse_shape (y₀ y₁ y₂ y₃ c₄ m₀ m₁ c₇ d₀ d₁ : UInt8) :
    Date.niloParse [y₀, y₁, y₂, y₃, c₄, m₀, m₁, c₇, d₀, d₁] =
      if c₄ ≠ 45 ∨ c₇ ≠ 45 then .ok none
      else if [y₀, y₁, y₂, y₃].all isDigit then
        if [m₀, m₁].all isDigit then
          if [d₀, d₁].all isDigit then
            if decimal [y₀, y₁, y₂, y₃] < 1 then .ok none
            else if decimal [m₀, m₁] < 1 ∨ decimal [m₀, m₁] > 12 then .ok none
            else if decimal [d₀, d₁] < 1 ∨
                decimal [d₀, d₁] > daysInMonth (decimal [y₀, y₁, y₂, y₃]) (decimal [m₀, m₁]) then
              .ok none
            else .ok (some (dayOf (decimal [y₀, y₁, y₂, y₃]) (decimal [m₀, m₁]) (decimal [d₀, d₁])))
          else .ok none
        else .ok none
      else .ok none := by
  have htwo : 10 ^ 2 ≤ 256 := by decide
  have hlength : ¬ [y₀, y₁, y₂, y₃, c₄, m₀, m₁, c₇, d₀, d₁].length ≠ 10 := fun h => h rfl
  rw [Date.niloParse, if_neg hlength]
  refine if_congr Iff.rfl rfl ?_
  rw [show between [y₀, y₁, y₂, y₃, c₄, m₀, m₁, c₇, d₀, d₁] 0 4 = [y₀, y₁, y₂, y₃] from rfl,
    show between [y₀, y₁, y₂, y₃, c₄, m₀, m₁, c₇, d₀, d₁] 5 7 = [m₀, m₁] from rfl,
    show between [y₀, y₁, y₂, y₃, c₄, m₀, m₁, c₇, d₀, d₁] 8 10 = [d₀, d₁] from rfl,
    orNull_fixed (show 10 ^ 4 ≤ 2 ^ 63 by decide)]
  by_cases hy : [y₀, y₁, y₂, y₃].all isDigit = true
  · rw [if_pos hy, if_pos hy]
    refine orNull_run htwo ?_
    refine orNull_run htwo ?_
    have hlt := decimal_four_lt hy
    generalize decimal [y₀, y₁, y₂, y₃] = year at *
    generalize decimal [m₀, m₁] = month
    generalize decimal [d₀, d₁] = day
    by_cases hyear : year < 1
    · rw [if_pos hyear, if_pos hyear]
    rw [if_neg hyear, if_neg hyear]
    by_cases hmonth : month < 1 ∨ month > 12
    · rw [if_pos hmonth, if_pos hmonth]
    rw [if_neg hmonth, if_neg hmonth]
    by_cases hday : day < 1 ∨ day > daysInMonth year month
    · rw [if_pos hday, if_pos hday]
    rw [if_neg hday, if_neg hday]
    have hvalid := day_of_checks hyear hlt hmonth hday
    have hbounds := hvalid.bounds
    rw [Day.days] at hbounds
    have hcivil : daysFromCivil year month day = .ok (dayOf year month day) :=
      daysFromCivil_eq (by omega) hvalid.month ⟨hvalid.day, hvalid.le_31⟩
    refine (bind_of_ok hcivil).trans (if_pos ?_)
    dsimp only at hbounds ⊢
    omega
  · rw [if_neg hy, if_neg hy]

/-- The text of a valid day is read. -/
theorem Date.niloParse_day {d : Day} (h : d.Valid) : Date.niloParse d.text = .ok (some d.days) := by
  obtain ⟨y₀, y₁, y₂, y₃, m₀, m₁, d₀, d₁, hday, ⟨hy, hy'⟩, ⟨hm, hm'⟩, hd, hd'⟩ := Day.text_bytes h
  obtain ⟨hyear, hmonth, hday'⟩ := h.checks
  rw [hday, Date.niloParse_shape, if_neg (by decide), if_pos hy, if_pos hm, if_pos hd, hy', hm', hd',
    if_neg hyear, if_neg hmonth, if_neg hday', Day.days]

/-- What is read is the text of a valid day. -/
theorem Date.niloParse_cases (text : Bytes) :
    Date.niloParse text = .ok none ∨ ∃ d : Day, d.Valid ∧ d.text = text := by
  by_cases hlength : text.length ≠ 10
  · exact .inl (if_pos hlength)
  · obtain ⟨y₀, y₁, y₂, y₃, c₄, m₀, m₁, c₇, d₀, d₁, rfl⟩ := ten_bytes (not_not.mp hlength)
    rw [Date.niloParse_shape]
    split_ifs with hdash hy hm hd hyear hmonth hday
    · exact .inl rfl
    · exact .inl rfl
    · exact .inl rfl
    · exact .inl rfl
    · obtain ⟨rfl, rfl⟩ : c₄ = 45 ∧ c₇ = 45 := by
        rw [not_or, not_not, not_not] at hdash
        exact hdash
      exact .inr ⟨_, day_of_checks hyear (decimal_four_lt hy) hmonth hday, Day.text_of hy hm hd⟩
    all_goals exact .inl rfl

end Nilo.Time
