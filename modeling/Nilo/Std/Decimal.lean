import Nilo.Lib.Lex
import Nilo.Std.Text

/-!
# Numbers to a width (`{d:0>4}` of `std.fmt`)

A number that is padded with zeros to `k` digits is a word of `k` digits, as long as it fits
(`padded_eq_word`), and the word is what its digits spell (`decimal_word`, `word_decimal`).
-/

namespace Nilo.Text

open Lib (Lex.word Lex.word_lt Lex.length_word)

/-- `{d:0>k}`. -/
def padded (k n : Nat) : Bytes :=
  List.replicate (k - (digitsOf n).length) 48 ++ digitsOf n

/-- `{d}` of a signed integer. -/
def signed (n : Int) : Bytes := (if n < 0 then [45] else []) ++ digitsOf n.natAbs

def digit (d : Nat) : UInt8 := UInt8.ofNat (48 + d)

/-- `n` in `k` digits. -/
abbrev digits (k n : Nat) : Bytes := Lex.word digit 10 k n

variable {k n m : Nat}

theorem toNat_digit {d : Nat} (h : d < 10) : (digit d).toNat = 48 + d := by
  rw [digit, UInt8.toNat_ofNat', Nat.mod_eq_of_lt (by omega)]

theorem isDigit_iff {ch : UInt8} : isDigit ch = true ↔ 48 ≤ ch.toNat ∧ ch.toNat ≤ 57 := by
  rw [isDigit, Bool.and_eq_true, decide_eq_true_eq, decide_eq_true_eq]
  simp only [UInt8.le_iff_toNat_le, UInt8.reduceToNat]

theorem isDigit_digit {d : Nat} (h : d < 10) : isDigit (digit d) = true := by
  rw [isDigit_iff, toNat_digit h]
  omega

theorem digit_lt {i j : Nat} (hij : i < j) (hj : j < 10) : digit i < digit j := by
  rw [UInt8.lt_iff_toNat_lt, toNat_digit hj, toNat_digit (Nat.lt_trans hij hj)]
  omega

theorem digits_lt (hlt : n < m) (hm : m < 10 ^ k) : digits k n < digits k m :=
  Lex.word_lt (fun _ _ => digit_lt) hlt hm

/-! ## What digits spell -/

theorem decimal_from (ds : Bytes) (start : Nat) :
    ds.foldl (fun n ch => n * 10 + (ch.toNat - 48)) start = start * 10 ^ ds.length + decimal ds := by
  induction ds generalizing start with
  | nil => simp [decimal]
  | cons ch ds ih =>
    rw [decimal, List.foldl_cons, List.foldl_cons, ih, ih, List.length_cons, Nat.pow_succ']
    rw [Nat.add_mul, Nat.add_mul, Nat.zero_mul, Nat.mul_assoc, Nat.zero_add, Nat.add_assoc]

theorem decimal_cons (ch : UInt8) (ds : Bytes) :
    decimal (ch :: ds) = (ch.toNat - 48) * 10 ^ ds.length + decimal ds := by
  rw [decimal, List.foldl_cons, decimal_from, Nat.zero_mul, Nat.zero_add]

theorem decimal_lt {ds : Bytes} (h : ds.all isDigit = true) : decimal ds < 10 ^ ds.length := by
  induction ds with
  | nil => exact Nat.one_pos
  | cons ch ds ih =>
    obtain ⟨hch, hds⟩ := Bool.and_eq_true_iff.mp h
    have hd := isDigit_iff.mp hch
    have hlt := ih hds
    have htop : (ch.toNat - 48 + 1) * 10 ^ ds.length ≤ 10 * 10 ^ ds.length :=
      Nat.mul_le_mul_right _ (by omega)
    rw [Nat.add_mul, Nat.one_mul] at htop
    rw [decimal_cons, List.length_cons, Nat.pow_succ']
    omega

theorem decimal_word (h : n < 10 ^ k) : decimal (digits k n) = n := by
  induction k generalizing n with
  | zero =>
    rw [Nat.pow_zero] at h
    obtain rfl : n = 0 := by omega
    rfl
  | succ k ih =>
    have hpos : 0 < 10 ^ k := Nat.pow_pos (by decide)
    have hd : n / 10 ^ k < 10 := Nat.div_lt_of_lt_mul (by rw [← Nat.pow_succ]; exact h)
    rw [digits, Lex.word, decimal_cons, Lex.length_word, toNat_digit hd, ih (Nat.mod_lt n hpos),
      Nat.add_sub_cancel_left, Nat.div_add_mod']

theorem all_digits (h : n < 10 ^ k) : (digits k n).all isDigit = true := by
  induction k generalizing n with
  | zero => rfl
  | succ k ih =>
    have hpos : 0 < 10 ^ k := Nat.pow_pos (by decide)
    have hd : n / 10 ^ k < 10 := Nat.div_lt_of_lt_mul (by rw [← Nat.pow_succ]; exact h)
    rw [digits, Lex.word, List.all_cons, isDigit_digit hd, Bool.true_and]
    exact ih (Nat.mod_lt n hpos)

theorem word_decimal {ds : Bytes} (h : ds.all isDigit = true) :
    digits ds.length (decimal ds) = ds := by
  induction ds with
  | nil => rfl
  | cons ch ds ih =>
    obtain ⟨hch, hds⟩ := Bool.and_eq_true_iff.mp h
    have hd := isDigit_iff.mp hch
    have hlt := decimal_lt hds
    have hpos : 0 < 10 ^ ds.length := Nat.pow_pos (by decide)
    have hfirst : digit (ch.toNat - 48) = ch := by
      refine UInt8.toNat_inj.mp ?_
      rw [toNat_digit (by omega)]
      omega
    rw [List.length_cons, digits, Lex.word, decimal_cons, Nat.mul_comm, Nat.mul_add_div hpos,
      Nat.div_eq_of_lt hlt, Nat.add_zero, Nat.mul_add_mod, Nat.mod_eq_of_lt hlt, hfirst]
    exact congrArg (ch :: ·) (ih hds)

/-! ## Padding -/

theorem digits_concat (h : n < 10 ^ (k + 1)) :
    digits (k + 1) n = digits k (n / 10) ++ [digit (n % 10)] := by
  induction k generalizing n with
  | zero =>
    rw [Nat.mod_eq_of_lt (show n < 10 by omega), digits, Lex.word, Nat.pow_zero, Nat.div_one]
    rfl
  | succ k ih =>
    have hpos : 0 < 10 ^ (k + 1) := Nat.pow_pos (by decide)
    have hdiv : n / 10 / 10 ^ k = n / 10 ^ (k + 1) := by rw [Nat.div_div_eq_div_mul, Nat.pow_succ']
    have hmod : n % 10 ^ (k + 1) / 10 = n / 10 % 10 ^ k := by
      rw [Nat.pow_succ', Nat.mod_mul_right_div_self]
    have hlow : n % 10 ^ (k + 1) % 10 = n % 10 :=
      Nat.mod_mod_of_dvd n ⟨10 ^ k, Nat.pow_succ'⟩
    rw [digits, Lex.word, ← digits, ih (Nat.mod_lt n hpos), hmod, hlow, digits, digits, Lex.word, hdiv]
    rfl

theorem padded_eq_word (hk : 0 < k) (h : n < 10 ^ k) : padded k n = digits k n := by
  have hlength := (length_digitsOf_le hk).mpr h
  induction k generalizing n with
  | zero => cases hk
  | succ k ih =>
    rw [digits_concat h]
    by_cases hsmall : n < 10
    · have hzero : digits k (n / 10) = List.replicate k 48 := by
        rw [Nat.div_eq_of_lt hsmall]
        clear ih h hlength hk
        induction k with
        | zero => rfl
        | succ k ih =>
          rw [digits, Lex.word, Nat.zero_div, Nat.zero_mod, List.replicate_succ]
          exact congrArg (digit 0 :: ·) ih
      rw [padded, digitsOf_eq, if_pos hsmall, hzero, Nat.mod_eq_of_lt hsmall]
      rfl
    · have hk' : 0 < k := by
        refine Nat.pos_of_ne_zero ?_
        rintro rfl
        exact hsmall h
      have hdiv : n / 10 < 10 ^ k := Nat.div_lt_of_lt_mul (by rw [← Nat.pow_succ']; exact h)
      have hrest := ih hk' hdiv ((length_digitsOf_le hk').mpr hdiv)
      rw [padded] at hrest
      rw [padded, digitsOf_eq, if_neg hsmall, List.length_append, List.length_singleton,
        Nat.add_sub_add_right, ← List.append_assoc, hrest]
      rfl

theorem length_digitsOf_pos (n : Nat) : 0 < (digitsOf n).length := by
  rw [digitsOf_eq]
  split_ifs
  · exact Nat.one_pos
  · rw [List.length_append]
    exact Nat.add_pos_right _ Nat.one_pos

theorem lt_pow_length (n : Nat) : n < 10 ^ (digitsOf n).length :=
  (length_digitsOf_le (length_digitsOf_pos n)).mp (Nat.le_refl _)

theorem digitsOf_eq_word (n : Nat) : digitsOf n = digits (digitsOf n).length n := by
  rw [← padded_eq_word (length_digitsOf_pos n) (lt_pow_length n), padded, Nat.sub_self,
    List.replicate_zero, List.nil_append]

/-- A number that is printed in digits is what they spell. -/
theorem decimal_digitsOf (n : Nat) : decimal (digitsOf n) = n := by
  rw [digitsOf_eq_word]
  exact decimal_word (lt_pow_length n)

theorem all_digitsOf (n : Nat) : (digitsOf n).all isDigit = true := by
  rw [digitsOf_eq_word]
  exact all_digits (lt_pow_length n)

end Nilo.Text
