import Nilo.Std.Decimal
import Nilo.Std.Utf8

/-!
# JSON (RFC 8259)

The grammar of JSON as a reader, and the compact text of a value: what is printed without a blank
between its tokens reads back as the value (`read_print`), whatever the escapes, as long as each string
body is read back.
-/

namespace Nilo.Json

open Text (Bytes ascii isDigit digitsOf)
open Utf8 (utf8ValidateSlice)

/-! ## Numbers -/

def isNumberByte (ch : UInt8) : Bool :=
  isDigit ch || ch == 43 || ch == 45 || ch == 46 || ch == 69 || ch == 101

/-- Digits, one at least. -/
def isDigits (text : Bytes) : Bool := text != [] && text.all isDigit

def isExponent : Bytes → Bool
  | [] => true
  | e :: rest =>
    (e == 69 || e == 101) &&
      match rest with
      | 43 :: digits => isDigits digits
      | 45 :: digits => isDigits digits
      | digits => isDigits digits

def isFraction : Bytes → Bool
  | 46 :: rest => isDigits (rest.takeWhile isDigit) && isExponent (rest.dropWhile isDigit)
  | rest => isExponent rest

def isUnsigned (text : Bytes) : Bool :=
  let whole := text.takeWhile isDigit
  isDigits whole && (whole.length == 1 || whole.head? != some 48) && isFraction (text.dropWhile isDigit)

def isNumber : Bytes → Bool
  | 45 :: rest => isUnsigned rest
  | text => isUnsigned text

/-- A number as its text. -/
structure Number where
  text : Bytes
  wellFormed : isNumber text = true
deriving DecidableEq

inductive Json where
  | null
  | bool (b : Bool)
  | number (n : Number)
  | string (text : Bytes)
  | array (values : List Json)
  | object (members : List (Bytes × Json))

/-! ## Strings -/

def hexDigit (ch : UInt8) : Option Nat :=
  if isDigit ch then some (ch.toNat - 48)
  else if 97 ≤ ch && ch ≤ 102 then some (ch.toNat - 87)
  else if 65 ≤ ch && ch ≤ 70 then some (ch.toNat - 55)
  else none

def hexUnit (a b c d : UInt8) : Option Nat :=
  match hexDigit a, hexDigit b, hexDigit c, hexDigit d with
  | some a, some b, some c, some d => some (((a * 16 + b) * 16 + c) * 16 + d)
  | _, _, _, _ => none

/-- A code point in UTF-8. -/
def encode (point : Nat) : Bytes :=
  if point < 0x80 then [UInt8.ofNat point]
  else if point < 0x800 then [UInt8.ofNat (0xC0 + point / 64), UInt8.ofNat (0x80 + point % 64)]
  else if point < 0x10000 then
    [UInt8.ofNat (0xE0 + point / 4096), UInt8.ofNat (0x80 + point / 64 % 64),
      UInt8.ofNat (0x80 + point % 64)]
  else
    [UInt8.ofNat (0xF0 + point / 262144), UInt8.ofNat (0x80 + point / 4096 % 64),
      UInt8.ofNat (0x80 + point / 64 % 64), UInt8.ofNat (0x80 + point % 64)]

/-- The escapes of two characters. -/
def unescape (ch : UInt8) : Option UInt8 :=
  match ch with
  | 34 => some 34
  | 92 => some 92
  | 47 => some 47
  | 98 => some 8
  | 102 => some 12
  | 110 => some 10
  | 114 => some 13
  | 116 => some 9
  | _ => none

def prepend (front : Bytes) (read : Option (Bytes × Bytes)) : Option (Bytes × Bytes) :=
  read.map fun (text, rest) => (front ++ text, rest)

/-- The rest of a string, to its closing quote, with what is behind it. -/
def stringRest : Bytes → Option (Bytes × Bytes)
  | [] => none
  | ch :: rest =>
    if ch = 34 then some ([], rest)
    else if ch = 92 then
      match rest with
      | [] => none
      | escaped :: rest =>
        if escaped = 117 then
          match rest with
          | a :: b :: c :: d :: rest =>
            match hexUnit a b c d with
            | none => none
            | some unit =>
              if unit < 0xD800 ∨ 0xE000 ≤ unit then prepend (encode unit) (stringRest rest)
              else
                -- A surrogate is the first of a pair.
                match rest with
                | 92 :: 117 :: e :: f :: g :: h :: rest =>
                  match hexUnit e f g h with
                  | none => none
                  | some low =>
                    if unit < 0xDC00 ∧ 0xDC00 ≤ low ∧ low < 0xE000 then
                      prepend (encode (0x10000 + (unit - 0xD800) * 1024 + (low - 0xDC00)))
                        (stringRest rest)
                    else none
                | _ => none
          | _ => none
        else
          match unescape escaped with
          | none => none
          | some b => prepend [b] (stringRest rest)
    else if ch < 0x20 then none
    else prepend [ch] (stringRest rest)
termination_by structural text => text

theorem stringRest_quote (rest : Bytes) : stringRest (34 :: rest) = some ([], rest) := by
  rw [stringRest.eq_def]
  exact if_pos rfl

theorem stringRest_plain {ch : UInt8} (hquote : ch ≠ 34) (hback : ch ≠ 92) (hpass : ¬ ch < 0x20)
    (rest : Bytes) : stringRest (ch :: rest) = prepend [ch] (stringRest rest) := by
  rw [stringRest.eq_def]
  exact (if_neg hquote).trans ((if_neg hback).trans (if_neg hpass))

theorem stringRest_escape {ch b : UInt8} (hunit : ch ≠ 117) (h : unescape ch = some b) (rest : Bytes) :
    stringRest (92 :: ch :: rest) = prepend [b] (stringRest rest) := by
  rw [stringRest.eq_def]
  refine (if_neg (show ¬ (92 : UInt8) = 34 by decide)).trans ((if_pos rfl).trans ((if_neg hunit).trans ?_))
  rw [h]

theorem stringRest_unit {a b c d : UInt8} {unit : Nat} (h : hexUnit a b c d = some unit)
    (hsingle : unit < 0xD800 ∨ 0xE000 ≤ unit) (rest : Bytes) :
    stringRest (92 :: 117 :: a :: b :: c :: d :: rest) = prepend (encode unit) (stringRest rest) := by
  rw [stringRest.eq_def]
  refine (if_neg (show ¬ (92 : UInt8) = 34 by decide)).trans ((if_pos rfl).trans ((if_pos rfl).trans ?_))
  dsimp only
  rw [h]
  exact if_pos hsingle

/-! ## Values -/

/-- The text behind its blanks. -/
def skip (text : Bytes) : Bytes := text.dropWhile fun ch => ch == 32 || ch == 9 || ch == 10 || ch == 13

/-- A token of one byte, with what is behind it. -/
def expect (ch : UInt8) (text : Bytes) : Option Bytes :=
  if (skip text).head? = some ch then some (skip text).tail else none

def literal (word : String) (v : Json) (text : Bytes) : Option (Json × Bytes) :=
  if Text.startsWith text (ascii word) then some (v, text.drop (ascii word).length) else none

def number (text : Bytes) : Option (Json × Bytes) :=
  if h : isNumber (text.takeWhile isNumberByte) = true then
    some (.number ⟨text.takeWhile isNumberByte, h⟩, text.dropWhile isNumberByte)
  else none

mutual

/-- A value, with what is behind it. -/
def value : Nat → Bytes → Option (Json × Bytes)
  | 0, _ => none
  | n + 1, text =>
    match skip text with
    | [] => none
    | ch :: rest =>
      if ch = 34 then (stringRest rest).map fun (text, rest) => (.string text, rest)
      else if ch = 91 then
        match expect 93 rest with
        | some rest => some (.array [], rest)
        | none => (elements n rest).map fun (values, rest) => (.array values, rest)
      else if ch = 123 then
        match expect 125 rest with
        | some rest => some (.object [], rest)
        | none => (members n rest).map fun (all, rest) => (.object all, rest)
      else if ch = 116 then literal "true" (.bool true) (ch :: rest)
      else if ch = 102 then literal "false" (.bool false) (ch :: rest)
      else if ch = 110 then literal "null" .null (ch :: rest)
      else number (ch :: rest)

/-- The values of an array, to its bracket. -/
def elements : Nat → Bytes → Option (List Json × Bytes)
  | 0, _ => none
  | n + 1, text =>
    match value n text with
    | none => none
    | some (v, rest) =>
      match expect 44 rest with
      | some rest => (elements n rest).map fun (values, rest) => (v :: values, rest)
      | none => (expect 93 rest).map fun rest => ([v], rest)

/-- The members of an object, to its brace. -/
def members : Nat → Bytes → Option (List (Bytes × Json) × Bytes)
  | 0, _ => none
  | n + 1, text =>
    match (expect 34 text).bind stringRest with
    | none => none
    | some (key, rest) =>
      match (expect 58 rest).bind (value n) with
      | none => none
      | some (v, rest) =>
        match expect 44 rest with
        | some rest => (members n rest).map fun (all, rest) => ((key, v) :: all, rest)
        | none => (expect 125 rest).map fun rest => ([(key, v)], rest)

end

/-- A document: UTF-8, one value, and blanks. -/
def read (text : Bytes) : Option Json :=
  if utf8ValidateSlice text then
    match value (text.length + 1) text with
    | some (v, rest) => if skip rest = [] then some v else none
    | none => none
  else none

/-! ## The compact text -/

section Print

variable (escape : Bytes → Bytes)

def quoted (text : Bytes) : Bytes := 34 :: (escape text ++ [34])

mutual

def print : Json → Bytes
  | .null => ascii "null"
  | .bool b => if b then ascii "true" else ascii "false"
  | .number n => n.text
  | .string text => quoted escape text
  | .array values => 91 :: (printAll values ++ [93])
  | .object all => 123 :: (printMembers all ++ [125])

def printAll : List Json → Bytes
  | [] => []
  | [v] => print v
  | v :: values => print v ++ 44 :: printAll values

def printMembers : List (Bytes × Json) → Bytes
  | [] => []
  | [(key, v)] => quoted escape key ++ 58 :: print v
  | (key, v) :: all => quoted escape key ++ 58 :: (print v ++ 44 :: printMembers all)

end

end Print

/-! ## Numbers read back -/

theorem isNumberByte_of_isDigit {ch : UInt8} (h : isDigit ch = true) : isNumberByte ch = true := by
  rw [isNumberByte, h]
  rfl

theorem isDigits_bytes {text : Bytes} (h : isDigits text = true) : text.all isNumberByte = true := by
  rw [isDigits, Bool.and_eq_true] at h
  exact List.all_eq_true.mpr fun ch hch =>
    isNumberByte_of_isDigit (List.all_eq_true.mp h.2 ch hch)

theorem isExponent_bytes {text : Bytes} (h : isExponent text = true) : text.all isNumberByte = true := by
  cases text with
  | nil => rfl
  | cons e rest =>
    rw [isExponent.eq_def] at h
    obtain ⟨he, hdigits⟩ := Bool.and_eq_true_iff.mp h
    have he' : isNumberByte e = true := by
      rw [Bool.or_eq_true, beq_iff_eq, beq_iff_eq] at he
      rcases he with rfl | rfl <;> decide
    rw [List.all_cons, he', Bool.true_and]
    split at hdigits
    · rw [List.all_cons, isDigits_bytes hdigits]
      rfl
    · rw [List.all_cons, isDigits_bytes hdigits]
      rfl
    · exact isDigits_bytes hdigits

theorem isFraction_bytes {text : Bytes} (h : isFraction text = true) : text.all isNumberByte = true := by
  rw [isFraction.eq_def] at h
  split at h
  · next rest =>
    rw [Bool.and_eq_true] at h
    rw [List.all_cons, ← List.takeWhile_append_dropWhile (p := isDigit) (l := rest), List.all_append,
      isDigits_bytes h.1, isExponent_bytes h.2]
    decide
  · exact isExponent_bytes h

theorem isUnsigned_bytes {text : Bytes} (h : isUnsigned text = true) :
    text ≠ [] ∧ text.all isNumberByte = true := by
  rw [isUnsigned] at h
  simp only [Bool.and_eq_true] at h
  obtain ⟨⟨hwhole, -⟩, hrest⟩ := h
  refine ⟨?_, ?_⟩
  · rintro rfl
    cases hwhole
  · rw [← List.takeWhile_append_dropWhile (p := isDigit) (l := text), List.all_append,
      isDigits_bytes hwhole, isFraction_bytes hrest]
    rfl

theorem isNumber_bytes {text : Bytes} (h : isNumber text = true) :
    text ≠ [] ∧ text.all isNumberByte = true := by
  rw [isNumber.eq_def] at h
  split at h
  · refine ⟨List.cons_ne_nil _ _, ?_⟩
    rw [List.all_cons, (isUnsigned_bytes h).2]
    decide
  · exact isUnsigned_bytes h

/-- What is behind a number does not go on with it. -/
def Stops (rest : Bytes) : Prop := ∀ ch ∈ rest.head?, isNumberByte ch = false

theorem takeWhile_stops {p : UInt8 → Bool} {text rest : Bytes} (h : text.all p = true)
    (hrest : ∀ ch ∈ rest.head?, p ch = false) :
    (text ++ rest).takeWhile p = text ∧ (text ++ rest).dropWhile p = rest := by
  have hall := List.all_eq_true.mp h
  rw [List.takeWhile_append_of_pos hall, List.dropWhile_append_of_pos hall]
  cases rest with
  | nil => exact ⟨List.append_nil text, rfl⟩
  | cons ch rest =>
    have hch : ¬ p ch = true := by rw [hrest ch rfl]; decide
    rw [List.takeWhile_cons_of_neg hch, List.dropWhile_cons_of_neg hch]
    exact ⟨List.append_nil text, rfl⟩

theorem number_print (n : Number) {rest : Bytes} (h : Stops rest) :
    number (n.text ++ rest) = some (.number n, rest) := by
  obtain ⟨htake, hdrop⟩ := takeWhile_stops (isNumber_bytes n.wellFormed).2 h
  rw [number]
  simp only [htake, hdrop]
  exact dif_pos n.wellFormed

theorem head_digitsOf {n : Nat} (h : (digitsOf n).head? = some 48) : n = 0 := by
  induction n using Nat.strong_induction_on with
  | _ n ih =>
    rw [Text.digitsOf_eq] at h
    by_cases hsmall : n < 10
    · rw [if_pos hsmall, List.head?_cons, Option.some.injEq, ← UInt8.toNat_inj, UInt8.toNat_ofNat'] at h
      simp only [UInt8.reduceToNat] at h
      omega
    · rw [if_neg hsmall, List.head?_append_of_ne_nil _
        (List.ne_nil_of_length_pos (Text.length_digitsOf_pos _))] at h
      have := ih (n / 10) (by omega) h
      omega

theorem isUnsigned_digitsOf (n : Nat) : isUnsigned (digitsOf n) = true := by
  have hall := Text.all_digitsOf n
  have hne : digitsOf n ≠ [] := List.ne_nil_of_length_pos (Text.length_digitsOf_pos n)
  have htake : (digitsOf n).takeWhile isDigit = digitsOf n :=
    List.takeWhile_eq_self_iff.mpr (List.all_eq_true.mp hall)
  have hdrop : (digitsOf n).dropWhile isDigit = [] :=
    List.dropWhile_eq_nil_iff.mpr (List.all_eq_true.mp hall)
  have hdigits : isDigits (digitsOf n) = true := by
    rw [isDigits, hall, bne_iff_ne.mpr hne]
    rfl
  have hlead : ((digitsOf n).length == 1 || (digitsOf n).head? != some 48) = true := by
    by_cases hzero : n = 0
    · subst hzero
      decide
    · rw [bne_iff_ne.mpr (mt head_digitsOf hzero), Bool.or_true]
  rw [isUnsigned, htake, hdrop, hdigits, hlead]
  rfl

/-- `{d}` is a number. -/
theorem isNumber_digitsOf (n : Nat) : isNumber (digitsOf n) = true := by
  rw [isNumber.eq_def]
  split
  · next heq =>
    have hall := Text.all_digitsOf n
    rw [heq] at hall
    cases hall
  · exact isUnsigned_digitsOf n

/-! ## Values read back -/

theorem skip_cons {ch : UInt8} (h : (ch == 32 || ch == 9 || ch == 10 || ch == 13) = false) (rest : Bytes) :
    skip (ch :: rest) = ch :: rest :=
  List.dropWhile_cons_of_neg (by rw [h]; decide)

/-- The first byte of a value, and of a member. -/
def Opens (ch : UInt8) : Prop :=
  (ch == 32 || ch == 9 || ch == 10 || ch == 13) = false ∧ ch ≠ 93 ∧ ch ≠ 125

instance : DecidablePred Opens := fun ch =>
  inferInstanceAs (Decidable
    ((ch == 32 || ch == 9 || ch == 10 || ch == 13) = false ∧ ch ≠ 93 ∧ ch ≠ 125))

theorem expect_cons {ch : UInt8} (h : (ch == 32 || ch == 9 || ch == 10 || ch == 13) = false)
    (rest : Bytes) : expect ch (ch :: rest) = some rest := by
  rw [expect, skip_cons h]
  exact if_pos rfl

theorem expect_ne {ch c : UInt8} (h : (ch == 32 || ch == 9 || ch == 10 || ch == 13) = false)
    (hne : ch ≠ c) (rest : Bytes) : expect c (ch :: rest) = none := by
  rw [expect, skip_cons h]
  exact if_neg fun heq => hne (Option.some.inj heq)

theorem opens_numberByte (ch : UInt8) : isNumberByte ch = true → Opens ch ∧ ch ≠ 34 ∧ ch ≠ 91 ∧ ch ≠ 123 ∧
    ch ≠ 116 ∧ ch ≠ 102 ∧ ch ≠ 110 := by
  revert ch
  exact Text.forall_byte (by decide)

section Print

variable {escape : Bytes → Bytes}
  (hescape : ∀ text rest, stringRest (escape text ++ 34 :: rest) = some (text, rest))

theorem print_opens (escape : Bytes → Bytes) (v : Json) : ∃ ch rest, print escape v = ch :: rest ∧ Opens ch := by
  cases v with
  | null => exact ⟨_, _, rfl, by decide, by decide, by decide⟩
  | bool b => cases b <;> exact ⟨_, _, rfl, by decide, by decide, by decide⟩
  | number n =>
    obtain ⟨hne, hall⟩ := isNumber_bytes n.wellFormed
    obtain ⟨ch, rest, htext⟩ := List.exists_cons_of_ne_nil hne
    rw [htext, List.all_cons, Bool.and_eq_true] at hall
    exact ⟨ch, rest, by rw [print, htext], (opens_numberByte ch hall.1).1⟩
  | string text => exact ⟨_, _, by rw [print, quoted], by decide, by decide, by decide⟩
  | array values => exact ⟨_, _, by rw [print], by decide, by decide, by decide⟩
  | object all => exact ⟨_, _, by rw [print], by decide, by decide, by decide⟩

theorem value_of_cons {n : Nat} {ch : UInt8} {rest : Bytes} (h : Opens ch) : value (n + 1) (ch :: rest) =
    if ch = 34 then (stringRest rest).map fun (text, rest) => (.string text, rest)
    else if ch = 91 then
      match expect 93 rest with
      | some rest => some (.array [], rest)
      | none => (elements n rest).map fun (values, rest) => (.array values, rest)
    else if ch = 123 then
      match expect 125 rest with
      | some rest => some (.object [], rest)
      | none => (members n rest).map fun (all, rest) => (.object all, rest)
    else if ch = 116 then literal "true" (.bool true) (ch :: rest)
    else if ch = 102 then literal "false" (.bool false) (ch :: rest)
    else if ch = 110 then literal "null" .null (ch :: rest)
    else number (ch :: rest) := by
  rw [value, skip_cons h.1]

theorem value_number (number : Number) (n : Nat) {rest : Bytes} (h : Stops rest) :
    value (n + 1) (number.text ++ rest) = some (.number number, rest) := by
  obtain ⟨hne, hall⟩ := isNumber_bytes number.wellFormed
  obtain ⟨ch, text, htext⟩ := List.exists_cons_of_ne_nil hne
  have hread := number_print number h
  rw [htext, List.all_cons, Bool.and_eq_true] at hall
  obtain ⟨hopens, h34, h91, h123, h116, h102, h110⟩ := opens_numberByte ch hall.1
  rw [htext, List.cons_append] at hread ⊢
  rw [value_of_cons hopens, if_neg h34, if_neg h91, if_neg h123, if_neg h116, if_neg h102, if_neg h110,
    hread]

theorem stops_nil : Stops [] := fun ch hch => by cases hch

theorem stops_comma (rest : Bytes) : Stops (44 :: rest) := by
  rintro ch ⟨⟩
  decide

theorem stops_bracket (rest : Bytes) : Stops (93 :: rest) := by
  rintro ch ⟨⟩
  decide

theorem stops_brace (rest : Bytes) : Stops (125 :: rest) := by
  rintro ch ⟨⟩
  decide

theorem printAll_cons (v next : Json) (values : List Json) : printAll escape (v :: next :: values) =
    print escape v ++ 44 :: printAll escape (next :: values) := by
  rw [printAll]
  rintro ⟨⟩

/-- The values of an array, each behind the first with its comma. -/
theorem printAll_flatMap (first : Json) (rest : List Json) : printAll escape (first :: rest) =
    print escape first ++ rest.flatMap fun v => 44 :: print escape v := by
  induction rest generalizing first with
  | nil => rw [printAll, List.flatMap_nil, List.append_nil]
  | cons next rest ih => rw [printAll_cons, ih, List.flatMap_cons, List.cons_append]

theorem printMembers_cons (member next : Bytes × Json) (all : List (Bytes × Json)) :
    printMembers escape (member :: next :: all) = quoted escape member.1 ++
      58 :: (print escape member.2 ++ 44 :: printMembers escape (next :: all)) := by
  rw [printMembers]
  rintro ⟨⟩

theorem expect_print {v : Json} {rest : Bytes} {ch : UInt8} (h : ch = 93 ∨ ch = 125) :
    expect ch (print escape v ++ rest) = none := by
  obtain ⟨first, text, hprint, hopens⟩ := print_opens escape v
  rw [hprint]
  refine expect_ne hopens.1 ?_ _
  rintro rfl
  rcases h with rfl | rfl
  · exact hopens.2.1 rfl
  · exact hopens.2.2 rfl

include hescape

theorem stringRest_quoted (text rest : Bytes) :
    stringRest ((quoted escape text).tail ++ rest) = some (text, rest) := by
  rw [quoted, List.tail_cons, List.append_assoc]
  exact hescape text rest

theorem expect_quoted (key rest : Bytes) :
    (expect 34 (quoted escape key ++ rest)).bind stringRest = some (key, rest) := by
  have hkey := stringRest_quoted hescape key rest
  rw [quoted, List.tail_cons] at hkey
  rw [quoted, List.cons_append, expect_cons (by decide)]
  exact hkey

mutual

theorem value_print (v : Json) {n : Nat} (hn : (print escape v).length ≤ n) {rest : Bytes}
    (hrest : Stops rest) : value (n + 1) (print escape v ++ rest) = some (v, rest) := by
  match v with
  | .null => rfl
  | .bool true => rfl
  | .bool false => rfl
  | .number number =>
    rw [print]
    exact value_number number n hrest
  | .string text =>
    have hread := stringRest_quoted hescape text rest
    rw [quoted, List.tail_cons] at hread
    rw [print, quoted, List.cons_append, value_of_cons (by decide), if_pos rfl, hread]
    rfl
  | .array [] => rfl
  | .array (v :: values) =>
    rw [print, List.length_cons, List.length_append, List.length_singleton] at hn
    obtain ⟨m, rfl⟩ : ∃ m, n = m + 1 := ⟨n - 1, by omega⟩
    have hmore := elements_print v values (n := m) (by omega) rest
    have hopen : expect 93 (printAll escape (v :: values) ++ 93 :: rest) = none := by
      cases values with
      | nil => exact expect_print (.inl rfl)
      | cons next values =>
        rw [printAll_cons, List.append_assoc]
        exact expect_print (.inl rfl)
    rw [print, List.cons_append, List.append_assoc, List.singleton_append,
      value_of_cons (by decide), if_neg (by decide), if_pos rfl, hopen, hmore]
    rfl
  | .object [] => rfl
  | .object (member :: all) =>
    rw [print, List.length_cons, List.length_append, List.length_singleton] at hn
    obtain ⟨m, rfl⟩ : ∃ m, n = m + 1 := ⟨n - 1, by omega⟩
    have hmore := members_print member all (n := m) (by omega) rest
    have hopen : expect 125 (printMembers escape (member :: all) ++ 125 :: rest) = none := by
      cases all with
      | nil =>
        rw [printMembers, quoted, List.cons_append, List.cons_append]
        exact expect_ne (by decide) (by decide) _
      | cons next all =>
        rw [printMembers_cons, quoted, List.cons_append, List.cons_append]
        exact expect_ne (by decide) (by decide) _
    rw [print, List.cons_append, List.append_assoc, List.singleton_append,
      value_of_cons (by decide), if_neg (by decide), if_neg (by decide), if_pos rfl, hopen, hmore]
    rfl
termination_by n

theorem elements_print (v : Json) (values : List Json) {n : Nat}
    (hn : (printAll escape (v :: values)).length < n) (rest : Bytes) :
    elements (n + 1) (printAll escape (v :: values) ++ 93 :: rest) = some (v :: values, rest) := by
  obtain ⟨m, rfl⟩ : ∃ m, n = m + 1 := ⟨n - 1, by omega⟩
  match values with
  | [] =>
    rw [printAll] at hn ⊢
    rw [elements, value_print v (by omega) (stops_bracket rest)]
    dsimp only
    rw [expect_ne (by decide) (by decide), expect_cons (by decide)]
    rfl
  | next :: values =>
    rw [printAll_cons, List.length_append, List.length_cons] at hn
    have hmore := elements_print next values (n := m) (by omega) rest
    rw [printAll_cons, List.append_assoc, List.cons_append, elements,
      value_print v (by omega) (stops_comma _)]
    dsimp only
    rw [expect_cons (by decide)]
    dsimp only
    rw [hmore]
    rfl
termination_by n

theorem members_print (member : Bytes × Json) (all : List (Bytes × Json)) {n : Nat}
    (hn : (printMembers escape (member :: all)).length < n) (rest : Bytes) :
    members (n + 1) (printMembers escape (member :: all) ++ 125 :: rest) =
      some (member :: all, rest) := by
  obtain ⟨m, rfl⟩ : ∃ m, n = m + 1 := ⟨n - 1, by omega⟩
  match member, all with
  | (key, v), [] =>
    rw [printMembers, List.length_append, List.length_cons] at hn
    have hv := value_print v (n := m) (by omega) (stops_brace rest)
    rw [printMembers, List.append_assoc, List.cons_append, members, expect_quoted hescape]
    dsimp only
    rw [expect_cons (by decide), Option.bind_some, hv]
    dsimp only
    rw [expect_ne (by decide) (by decide), expect_cons (by decide)]
    rfl
  | (key, v), next :: all =>
    rw [printMembers_cons, List.length_append, List.length_cons, List.length_append,
      List.length_cons] at hn
    dsimp only at hn
    have hv := value_print v (n := m) (by omega)
      (stops_comma (printMembers escape (next :: all) ++ 125 :: rest))
    have hmore := members_print next all (n := m) (by omega) rest
    rw [printMembers_cons, List.append_assoc, List.cons_append, List.append_assoc, List.cons_append,
      members, expect_quoted hescape]
    dsimp only
    rw [expect_cons (by decide), Option.bind_some, hv]
    dsimp only
    rw [expect_cons (by decide)]
    dsimp only
    rw [hmore]
    rfl
termination_by n

end

/-- What is printed is read back. -/
theorem read_print {v : Json} (h : utf8ValidateSlice (print escape v) = true) :
    read (print escape v) = some v := by
  have hread := value_print hescape v (Nat.le_refl _) stops_nil
  rw [List.append_nil] at hread
  rw [read, if_pos h, hread]
  rfl

end Print

end Nilo.Json
