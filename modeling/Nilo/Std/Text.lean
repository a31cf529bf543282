import Mathlib.Algebra.Group.Int.Defs
import Mathlib.Algebra.GroupWithZero.Nat
import Mathlib.Data.List.Basic
import Mathlib.Data.List.TakeWhile
import Mathlib.Tactic.SplitIfs

/-!
# Byte strings (`std.mem`, `std.ascii`, `std.fmt`)

The functions of the standard library the sources read text with, over lists of
bytes: what each one answers, not how it scans.
-/

namespace Nilo.Text

abbrev Bytes := List UInt8

/-- A fact about a byte is one about 256 numbers, sixteen times sixteen of them. -/
theorem forall_byte {p : UInt8 → Prop} [DecidablePred p]
    (h : ((List.range 16).all fun hi => (List.range 16).all fun lo => p (UInt8.ofNat (16 * hi + lo))) = true)
    (ch : UInt8) : p ch := by
  have hlt := ch.toNat_lt
  have hrow := List.all_eq_true.mp h (ch.toNat / 16) (List.mem_range.mpr (by omega))
  have hch := List.all_eq_true.mp hrow (ch.toNat % 16) (List.mem_range.mpr (by omega))
  rw [Nat.div_add_mod, UInt8.ofNat_toNat] at hch
  exact of_decide_eq_true hch

/-- An ASCII literal of the sources. -/
def ascii (s : String) : Bytes := s.toList.map fun ch => UInt8.ofNat ch.toNat

theorem ascii_ofList (chars : List Char) :
    ascii (String.ofList chars) = chars.map fun ch => UInt8.ofNat ch.toNat := by
  rw [ascii, String.toList_ofList]

theorem ascii_append (a b : String) : ascii (a ++ b) = ascii a ++ ascii b := by
  rw [ascii, String.toList_append, List.map_append]
  rfl

/-- `std.ascii.toLower`. -/
def toLower (ch : UInt8) : UInt8 := if 65 ≤ ch ∧ ch ≤ 90 then ch ||| 0x20 else ch

/-- `std.ascii.eqlIgnoreCase`. -/
def eqlIgnoreCase (a b : Bytes) : Bool := a.map toLower == b.map toLower

/-- `std.ascii.startsWithIgnoreCase`. -/
def startsWithIgnoreCase (text pre : Bytes) : Bool :=
  decide (pre.length ≤ text.length) && eqlIgnoreCase (text.take pre.length) pre

/-- `std.ascii.isDigit`. -/
def isDigit (ch : UInt8) : Bool := 48 ≤ ch && ch ≤ 57

/-- `std.ascii.isAlphabetic`. -/
def isAlphabetic (ch : UInt8) : Bool := (65 ≤ ch && ch ≤ 90) || (97 ≤ ch && ch ≤ 122)

/-- `std.ascii.isAlphanumeric`. -/
def isAlphanumeric (ch : UInt8) : Bool :=
  isDigit ch || (65 ≤ ch && ch ≤ 90) || (97 ≤ ch && ch ≤ 122)

/-- The number a run of digits spells. -/
def decimal (digits : Bytes) : Nat := digits.foldl (fun n ch => n * 10 + (ch.toNat - 48)) 0

/-- `{d}` of `std.fmt`. -/
def digitsOf (n : Nat) : Bytes := (Nat.toDigits 10 n).map fun ch => UInt8.ofNat ch.toNat

/-- `std.fmt.parseInt(u64, text, 10)` on text that is known to be digits: an error past `u64`. -/
def parseU64 (digits : Bytes) : Option Nat :=
  if decimal digits < 2 ^ 64 then some (decimal digits) else none

/-- A literal of the sources that is not all ASCII. -/
def utf8 (s : String) : Bytes := s.toUTF8.data.toList

/-- `std.ascii.whitespace`. -/
def isWhitespace (ch : UInt8) : Bool := ch = 32 || (9 ≤ ch && ch ≤ 13)

/-- `std.mem.trim` of whitespace. -/
def trim (text : Bytes) : Bytes := ((text.dropWhile isWhitespace).reverse.dropWhile isWhitespace).reverse

/-- `std.mem.startsWith`. -/
def startsWith (text pre : Bytes) : Bool := pre.isPrefixOf text

/-- `std.mem.indexOfScalar`, as what is before the first `ch` and what is after it. -/
def cut (ch : UInt8) (text : Bytes) : Bytes × Option Bytes :=
  match text.dropWhile (· != ch) with
  | [] => (text, none)
  | _ :: rest => (text.takeWhile (· != ch), some rest)

theorem cut_append {ch : UInt8} {text : Bytes} (h : ch ∉ text) (rest : Bytes) :
    cut ch (text ++ ch :: rest) = (text, some rest) := by
  have hall : ∀ b ∈ text, (b != ch) = true := by
    intro b hb
    rw [bne_iff_ne]
    rintro rfl
    exact h hb
  rw [cut, List.dropWhile_append_of_pos hall, List.takeWhile_append_of_pos hall]
  simp

theorem cut_none {ch : UInt8} {text : Bytes} (h : ch ∉ text) : cut ch text = (text, none) := by
  have hall : text.dropWhile (· != ch) = [] := by
    rw [List.dropWhile_eq_nil_iff]
    intro b hb
    rw [bne_iff_ne]
    rintro rfl
    exact h hb
  rw [cut, hall]

/-- `std.mem.lastIndexOfScalar`. -/
def lastIndexOf (ch : UInt8) : Bytes → Option Nat
  | [] => none
  | b :: rest =>
    match lastIndexOf ch rest with
    | some i => some (i + 1)
    | none => if b = ch then some 0 else none

theorem digitsOf_eq (n : Nat) : digitsOf n =
    if n < 10 then [UInt8.ofNat (48 + n)] else digitsOf (n / 10) ++ [UInt8.ofNat (48 + n % 10)] := by
  have hchar (d : Nat) (hd : d < 10) : UInt8.ofNat (Nat.digitChar d).toNat = UInt8.ofNat (48 + d) := by
    revert hd
    revert d
    decide
  rw [digitsOf, Nat.toDigits_eq_if (by decide)]
  split_ifs with hsmall
  · rw [List.map_singleton, hchar n hsmall]
  · rw [List.map_append, List.map_singleton, hchar _ (Nat.mod_lt _ (by decide)), digitsOf]

theorem length_digitsOf_le {n k : Nat} (hk : 0 < k) : (digitsOf n).length ≤ k ↔ n < 10 ^ k := by
  rw [digitsOf, List.length_map]
  exact Nat.length_toDigits_le_iff (by decide) hk

theorem lastIndexOf_none {ch : UInt8} {text : Bytes} (h : lastIndexOf ch text = none) :
    ch ∉ text := by
  induction text with
  | nil => exact List.not_mem_nil
  | cons b rest ih =>
    rw [lastIndexOf] at h
    cases hrest : lastIndexOf ch rest with
    | some i =>
      rw [hrest] at h
      cases h
    | none =>
      rw [hrest] at h
      dsimp only at h
      split_ifs at h with hb
      exact List.not_mem_cons_of_ne_of_not_mem (Ne.symm hb) (ih hrest)

/-- Nothing behind the index is the byte that was looked for. -/
theorem lastIndexOf_some {ch : UInt8} {text : Bytes} {i : Nat} (h : lastIndexOf ch text = some i) :
    text = text.take i ++ ch :: text.drop (i + 1) ∧ ch ∉ text.drop (i + 1) := by
  induction text generalizing i with
  | nil => cases h
  | cons b rest ih =>
    rw [lastIndexOf] at h
    cases hrest : lastIndexOf ch rest with
    | some j =>
      rw [hrest] at h
      cases h
      obtain ⟨heq, hmem⟩ := ih hrest
      exact ⟨congrArg (b :: ·) heq, hmem⟩
    | none =>
      rw [hrest] at h
      dsimp only at h
      split_ifs at h with hb
      cases h
      subst hb
      exact ⟨rfl, lastIndexOf_none hrest⟩

/-- `std.mem.trim` of what lies around a comma. -/
def trimBlanks (text : Bytes) : Bytes :=
  let isBlank (ch : UInt8) : Bool := ch == 32 || ch == 9
  ((text.dropWhile isBlank).reverse.dropWhile isBlank).reverse

/-- `buf[start..stop]`. -/
def between (buf : Bytes) (start stop : Nat) : Bytes := (buf.drop start).take (stop - start)

/-- `std.ascii.findIgnoreCase`. -/
def findIgnoreCase (text needle : Bytes) : Option Nat :=
  (List.range (text.length + 1)).find? fun i => startsWithIgnoreCase (text.drop i) needle

/-- `std.fmt.parseInt` of an unsigned integer below `limit`, base ten: a sign, and underscores
between the digits. -/
def parseUnsigned (limit : Nat) (text : Bytes) : Option Nat :=
  let (negative, digits) :=
    match text with
    | 43 :: rest => (false, rest)
    | 45 :: rest => (true, rest)
    | _ => (false, text)
  if digits = [] ∨ digits.head? = some 95 ∨ digits.getLast? = some 95 then none
  else
    let shown := digits.filter (· != 95)
    if !shown.all isDigit then none
    else if negative then if decimal shown = 0 then some 0 else none
    else if decimal shown < limit then some (decimal shown) else none

end Nilo.Text
