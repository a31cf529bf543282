import Nilo.Std.Text
import Mathlib.Tactic.IntervalCases

/-!
# Base64 (`std.base64`)

The two alphabets the sources use: the standard one, padded with `=`, and the one for URLs, with no
padding. What was encoded is decoded to the bytes it was, and its size is told from the text.
-/

namespace Nilo.Base64

open Text (Bytes)

structure Codec where
  /-- The digits 62 and 63. -/
  plus : UInt8
  slash : UInt8
  pad : Option UInt8
deriving Repr

/-- `std.base64.standard` -/
def standard : Codec := ⟨43, 47, some 61⟩

/-- `std.base64.url_safe_no_pad` -/
def urlSafe : Codec := ⟨45, 95, none⟩

def Codec.char (c : Codec) (d : Nat) : UInt8 :=
  if d < 26 then UInt8.ofNat (65 + d)
  else if d < 52 then UInt8.ofNat (71 + d)
  else if d < 62 then UInt8.ofNat (d - 4)
  else if d = 62 then c.plus
  else c.slash

/-- `char_to_index` -/
def Codec.index (c : Codec) (ch : UInt8) : Option Nat :=
  if 65 ≤ ch ∧ ch ≤ 90 then some (ch.toNat - 65)
  else if 97 ≤ ch ∧ ch ≤ 122 then some (ch.toNat - 71)
  else if 48 ≤ ch ∧ ch ≤ 57 then some (ch.toNat + 4)
  else if ch = c.plus then some 62
  else if ch = c.slash then some 63
  else none

/-! ## Encoding -/

/-- The bytes, six bits at a time. -/
def sextets : Bytes → List Nat
  | [] => []
  | [a] => [a.toNat / 4, a.toNat % 4 * 16]
  | [a, b] => [a.toNat / 4, a.toNat % 4 * 16 + b.toNat / 16, b.toNat % 16 * 4]
  | a :: b :: c :: rest =>
    a.toNat / 4 :: (a.toNat % 4 * 16 + b.toNat / 16) :: (b.toNat % 16 * 4 + c.toNat / 64) ::
      c.toNat % 64 :: sextets rest

def padding (n : Nat) : Nat := (4 - n % 4) % 4

/-- `Encoder.encode` -/
def Codec.encode (c : Codec) (b : Bytes) : Bytes :=
  let text := (sextets b).map c.char
  match c.pad with
  | some p => text ++ List.replicate (padding text.length) p
  | none => text

/-! ## Decoding -/

/-- The digits up to the first padding character, and what is from there on. -/
def Codec.digits (c : Codec) : Bytes → Option (List Nat × Bytes)
  | [] => some ([], [])
  | ch :: rest =>
    match c.index ch with
    | some d => (c.digits rest).map fun found => (d :: found.1, found.2)
    | none => if c.pad = some ch then some ([], ch :: rest) else none

/-- The bytes of a run of digits, and the bits left over: their value and how many they are. -/
def pack (acc n : Nat) : List Nat → Bytes × Nat × Nat
  | [] => ([], acc, n)
  | d :: ds =>
    let acc := acc * 64 + d
    if 8 ≤ n + 6 then
      let found := pack (acc % 2 ^ (n - 2)) (n - 2) ds
      (UInt8.ofNat (acc / 2 ^ (n - 2)) :: found.1, found.2)
    else pack acc (n + 6) ds

/-- `Decoder.calcSizeForSlice` -/
def Codec.calcSize (c : Codec) (text : Bytes) : Option Nat :=
  let n := text.length
  match c.pad with
  | none => if n % 4 = 1 then none else some (n / 4 * 3 + n % 4 * 3 / 4)
  | some p =>
    if n % 4 ≠ 0 then none
    else
      let last := if 1 ≤ n ∧ text[n - 1]? = some p then 1 else 0
      let before := if 2 ≤ n ∧ text[n - 2]? = some p then 1 else 0
      some (n / 4 * 3 - last - before)

/-- `Decoder.decode` -/
def Codec.decode (c : Codec) (text : Bytes) : Option Bytes :=
  if c.pad.isSome ∧ text.length % 4 ≠ 0 then none
  else
    match c.digits text with
    | none => none
    | some (ds, rest) =>
      let (bytes, acc, n) := pack 0 0 ds
      if 4 < n ∨ acc ≠ 0 then none
      else if rest = [] then some bytes
      else if rest.length = n / 2 ∧ rest.all (fun ch => c.pad = some ch) then some bytes
      else none

/-! ## There and back -/

theorem sextets_lt (b : Bytes) : ∀ d ∈ sextets b, d < 64 := by
  induction b using sextets.induct with
  | case1 => simp [sextets]
  | case2 a =>
    have ha := a.toNat_lt
    intro d hd
    simp only [sextets, List.mem_cons, List.not_mem_nil, or_false] at hd
    omega
  | case3 a b =>
    have ha := a.toNat_lt
    have hb := b.toNat_lt
    intro d hd
    simp only [sextets, List.mem_cons, List.not_mem_nil, or_false] at hd
    omega
  | case4 a b c rest ih =>
    have ha := a.toNat_lt
    have hb := b.toNat_lt
    have hc := c.toNat_lt
    intro d hd
    simp only [sextets, List.mem_cons] at hd
    rcases hd with rfl | rfl | rfl | rfl | hd
    · omega
    · omega
    · omega
    · omega
    · exact ih d hd

theorem length_sextets (b : Bytes) : (sextets b).length = (b.length * 4 + 2) / 3 := by
  induction b using sextets.induct with
  | case1 => rfl
  | case2 a => simp [sextets]
  | case3 a b => simp [sextets]
  | case4 a b c rest ih =>
    simp only [sextets, List.length_cons, ih]
    omega

theorem byte_eq {x : Nat} {a : UInt8} (h : x = a.toNat) : UInt8.ofNat x = a := by
  rw [h, UInt8.ofNat_toNat]

/-- What is left over after the last whole byte is nought. -/
theorem pack_sextets (b : Bytes) :
    pack 0 0 (sextets b) = (b, 0, (6 * (sextets b).length) % 8) := by
  induction b using sextets.induct with
  | case1 => simp [sextets, pack]
  | case2 a =>
    have ha := a.toNat_lt
    simp only [sextets, pack, Nat.reduceAdd, Nat.reduceLeDiff, if_false, if_true, Nat.reduceSub,
      Nat.reducePow, List.length_cons, List.length_nil, Prod.mk.injEq, List.cons.injEq, and_true]
    exact ⟨byte_eq (by omega), by omega⟩
  | case3 a b =>
    have ha := a.toNat_lt
    have hb := b.toNat_lt
    simp only [sextets, pack, Nat.reduceAdd, Nat.reduceLeDiff, if_false, if_true, Nat.reduceSub,
      Nat.reducePow, List.length_cons, List.length_nil, Prod.mk.injEq, List.cons.injEq, and_true]
    exact ⟨⟨byte_eq (by omega), byte_eq (by omega)⟩, by omega⟩
  | case4 a b c rest ih =>
    have ha := a.toNat_lt
    have hb := b.toNat_lt
    have hc := c.toNat_lt
    have hleft : (((a.toNat / 4 * 64 + (a.toNat % 4 * 16 + b.toNat / 16)) % 16 * 64 +
        (b.toNat % 16 * 4 + c.toNat / 64)) % 4 * 64 + c.toNat % 64) % 1 = 0 := Nat.mod_one _
    simp only [sextets, pack, Nat.reduceAdd, Nat.reduceLeDiff, if_false, if_true, Nat.reduceSub,
      Nat.reducePow, Nat.zero_mul, Nat.zero_add, hleft, ih, List.length_cons, Prod.mk.injEq,
      List.cons.injEq, Nat.div_one]
    refine ⟨⟨byte_eq ?_, byte_eq ?_, byte_eq ?_, trivial⟩, trivial, ?_⟩ <;> omega

/-- The digits are told apart, and the padding is none of them. -/
structure Codec.Proper (c : Codec) : Prop where
  index_char : ∀ d, d < 64 → c.index (c.char d) = some d
  index_pad : ∀ p, c.pad = some p → c.index p = none

theorem standard_proper : standard.Proper where
  index_char := by decide
  index_pad p hp := by
    obtain rfl := Option.some.inj hp
    decide

variable {c : Codec}

theorem digits_append (h : c.Proper) {ds : List Nat} (hds : ∀ d ∈ ds, d < 64) {rest : Bytes}
    (hrest : c.digits rest = some ([], rest)) :
    c.digits (ds.map c.char ++ rest) = some (ds, rest) := by
  induction ds with
  | nil => exact hrest
  | cons d ds ih =>
    have hmore := ih fun x hx => hds x (List.mem_cons_of_mem d hx)
    rw [List.map_cons, List.cons_append, Codec.digits, h.index_char d (hds d List.mem_cons_self)]
    dsimp only
    rw [hmore]
    rfl

theorem length_encode_mod (b : Bytes) : (sextets b).length % 4 ≠ 1 := by
  rw [length_sextets]
  omega

theorem decode_encode_unpadded (h : c.Proper) (hpad : c.pad = none) (b : Bytes) :
    c.decode (c.encode b) = some b := by
  have hmod := length_encode_mod b
  have hdigits : c.digits ((sextets b).map c.char ++ []) = some (sextets b, []) :=
    digits_append h (sextets_lt b) rfl
  rw [List.append_nil] at hdigits
  simp only [Codec.decode, Codec.encode, hpad, hdigits, pack_sextets, Option.isSome_none,
    Bool.false_eq_true, false_and, if_false]
  rw [if_neg (by omega)]
  exact if_pos trivial

theorem length_padded (n : Nat) : (n + padding n) % 4 = 0 := by
  simp only [padding]
  omega

theorem decode_encode_padded (h : c.Proper) {p : UInt8} (hpad : c.pad = some p) (b : Bytes) :
    c.decode (c.encode b) = some b := by
  have hmod := length_encode_mod b
  have hlen := length_padded (sextets b).length
  have hrest : c.digits (List.replicate (padding (sextets b).length) p) =
      some ([], List.replicate (padding (sextets b).length) p) := by
    cases padding (sextets b).length with
    | zero => rfl
    | succ k =>
      rw [List.replicate_succ, Codec.digits, h.index_pad p hpad]
      exact if_pos hpad
  have hdigits := digits_append h (sextets_lt b) hrest
  simp only [Codec.decode, Codec.encode, hpad, List.length_map, hdigits, pack_sextets,
    Option.isSome_some, true_and, List.length_append, List.length_replicate, hlen, ne_eq,
    not_true_eq_false, if_false]
  have hsmall (n : Nat) (hn : n % 4 ≠ 1) : ¬ 4 < 6 * n % 8 := by omega
  rw [if_neg (fun h => h.elim (hsmall _ hmod) id)]
  by_cases hnone : List.replicate (padding (sextets b).length) p = []
  · rw [if_pos hnone]
  · rw [if_neg hnone, if_pos]
    have hbits (n : Nat) (hn : n % 4 ≠ 1) : (4 - n % 4) % 4 = 6 * n % 8 / 2 := by omega
    exact ⟨hbits _ hmod, by simp⟩

theorem decode_encode (h : c.Proper) (b : Bytes) : c.decode (c.encode b) = some b := by
  cases hpad : c.pad with
  | none => exact decode_encode_unpadded h hpad b
  | some p => exact decode_encode_padded h hpad b

/-- Where the padding begins. -/
theorem pad_at (h : c.Proper) {p : UInt8} (hpad : c.pad = some p) {ds : List Nat}
    (hds : ∀ d ∈ ds, d < 64) (k i : Nat) (hi : i < ds.length + k) :
    (ds.map c.char ++ List.replicate k p)[i]? = some p ↔ ds.length ≤ i := by
  have hlen : (ds.map c.char).length = ds.length := List.length_map _
  by_cases hin : i < ds.length
  · rw [List.getElem?_append_left (by omega), List.getElem?_map, List.getElem?_eq_getElem hin]
    refine ⟨fun heq => ?_, fun hle => absurd hin (by omega)⟩
    have hchar : c.char ds[i] = p := Option.some.inj heq
    have hindex := h.index_char ds[i] (hds _ (List.getElem_mem hin))
    rw [hchar, h.index_pad p hpad] at hindex
    cases hindex
  · rw [List.getElem?_append_right (by omega), List.getElem?_replicate, if_pos (by omega)]
    exact ⟨fun _ => by omega, fun _ => rfl⟩

/-- The size of what a padded text decodes to is told from the text. -/
theorem calcSize_encode (h : c.Proper) {p : UInt8} (hpad : c.pad = some p) (b : Bytes) :
    c.calcSize (c.encode b) = some b.length := by
  have hmod := length_encode_mod b
  have hlen := length_sextets b
  have hat := pad_at h hpad (sextets_lt b) (padding (sextets b).length)
  generalize hn : (sextets b).length = n at *
  have htext : c.encode b = (sextets b).map c.char ++ List.replicate (padding n) p := by
    simp [Codec.encode, hpad, hn]
  have htotal : (c.encode b).length = n + padding n := by
    rw [htext]
    simp [hn]
  have hk : padding n = (4 - n % 4) % 4 := rfl
  have hlast : (if 1 ≤ n + padding n ∧ (c.encode b)[n + padding n - 1]? = some p then 1 else 0) =
      if 1 ≤ padding n then 1 else 0 := by
    refine if_congr ?_ rfl rfl
    constructor
    · rintro ⟨hpos, heq⟩
      rw [htext, hat _ (by omega)] at heq
      omega
    · intro hone
      refine ⟨by omega, ?_⟩
      rw [htext, hat _ (by omega)]
      omega
  have hbefore : (if 2 ≤ n + padding n ∧ (c.encode b)[n + padding n - 2]? = some p then 1 else 0) =
      if 2 ≤ padding n then 1 else 0 := by
    refine if_congr ?_ rfl rfl
    constructor
    · rintro ⟨hpos, heq⟩
      rw [htext, hat _ (by omega)] at heq
      omega
    · intro htwo
      refine ⟨by omega, ?_⟩
      rw [htext, hat _ (by omega)]
      omega
  simp only [Codec.calcSize, hpad, htotal]
  rw [if_neg (by omega), hlast, hbefore]
  refine congrArg some ?_
  by_cases hone : 1 ≤ padding n
  · by_cases htwo : 2 ≤ padding n
    · rw [if_pos hone, if_pos htwo]
      omega
    · rw [if_pos hone, if_neg htwo]
      omega
  · rw [if_neg hone, if_neg (by omega)]
    omega

/-! ## The size of what is decoded -/

/-- As many bytes as there are whole ones in the digits, and the bits left over. -/
theorem length_pack (ds : List Nat) (acc n : Nat) (hn : n < 8) :
    (pack acc n ds).1.length = (n + 6 * ds.length) / 8 ∧
      (pack acc n ds).2.2 = (n + 6 * ds.length) % 8 := by
  induction ds generalizing acc n with
  | nil =>
    simp only [pack, List.length_nil]
    omega
  | cons d ds ih =>
    rw [pack]
    split
    · obtain ⟨hlen, hleft⟩ := ih ((acc * 64 + d) % 2 ^ (n - 2)) (n - 2) (by omega)
      simp only [List.length_cons, hlen, hleft]
      omega
    · obtain ⟨hlen, hleft⟩ := ih (acc * 64 + d) (n + 6) (by omega)
      simp only [List.length_cons, hlen, hleft]
      omega

/-- A text is its digits and what is from the first padding character on. -/
theorem digits_split (h : c.Proper) {p : UInt8} (hpad : c.pad = some p) {text : Bytes}
    {ds : List Nat} {rest : Bytes} (hdigits : c.digits text = some (ds, rest)) :
    ∃ front, text = front ++ rest ∧ front.length = ds.length ∧ p ∉ front := by
  induction text generalizing ds with
  | nil =>
    cases hdigits
    exact ⟨[], rfl, rfl, List.not_mem_nil⟩
  | cons ch text ih =>
    rw [Codec.digits] at hdigits
    cases hindex : c.index ch with
    | some d =>
      simp only [hindex] at hdigits
      obtain ⟨⟨ds', rest'⟩, hmore, heq⟩ := Option.map_eq_some_iff.mp hdigits
      simp only [Prod.mk.injEq] at heq
      obtain ⟨rfl, rfl⟩ := heq
      obtain ⟨front, rfl, hlen, hnot⟩ := ih hmore
      refine ⟨ch :: front, rfl, by simp [hlen], ?_⟩
      intro hin
      rcases List.mem_cons.mp hin with rfl | hin
      · rw [h.index_pad p hpad] at hindex
        cases hindex
      · exact hnot hin
    | none =>
      simp only [hindex] at hdigits
      split at hdigits
      · cases hdigits
        exact ⟨[], rfl, rfl, List.not_mem_nil⟩
      · cases hdigits

/-- What a padded text decodes to is as long as its size says. -/
theorem length_decode (h : c.Proper) {p : UInt8} (hpad : c.pad = some p) {text b : Bytes}
    {n : Nat} (hsize : c.calcSize text = some n) (hdecode : c.decode text = some b) :
    b.length = n := by
  rw [Codec.decode] at hdecode
  split at hdecode
  · cases hdecode
  · cases hdigits : c.digits text with
    | none =>
      simp only [hdigits] at hdecode
      cases hdecode
    | some found =>
      obtain ⟨ds, rest⟩ := found
      simp only [hdigits] at hdecode
      obtain ⟨front, rfl, hlen, hnot⟩ := digits_split h hpad hdigits
      obtain ⟨hbytes, hleft⟩ := length_pack ds 0 0 (by omega)
      generalize hpack : pack 0 0 ds = packed at hdecode hbytes hleft
      obtain ⟨bytes, acc, left⟩ := packed
      dsimp only at hdecode hbytes hleft
      have htotal : (front ++ rest).length = ds.length + rest.length := by
        rw [List.length_append, hlen]
      -- What is not a digit is padding, as much of it as the bits left over ask for.
      have hrest : b = bytes ∧ ¬ 4 < left ∧
          (rest = [] ∨ rest.length = left / 2 ∧ ∀ ch ∈ rest, ch = p) := by
        split at hdecode
        · cases hdecode
        · rename_i hsmall
          have hsmall' := (not_or.mp hsmall).1
          split at hdecode
          · rename_i hnil
            exact ⟨(Option.some.inj hdecode).symm, hsmall', .inl hnil⟩
          · split at hdecode
            · rename_i hall
              refine ⟨(Option.some.inj hdecode).symm, hsmall', .inr ⟨hall.1, ?_⟩⟩
              intro ch hch
              have hpch := of_decide_eq_true (List.all_eq_true.mp hall.2 ch hch)
              rw [hpad] at hpch
              exact (Option.some.inj hpch).symm
            · cases hdecode
      obtain ⟨rfl, hsmall, hrest⟩ := hrest
      have hat (i : Nat) (hi : i < (front ++ rest).length) :
          (front ++ rest)[i]? = some p ↔ front.length ≤ i := by
        by_cases hin : i < front.length
        · rw [List.getElem?_append_left hin]
          refine ⟨fun heq => absurd (List.mem_of_getElem? heq) hnot, fun hle => ?_⟩
          omega
        · rw [List.getElem?_append_right (by omega)]
          refine ⟨fun _ => by omega, fun _ => ?_⟩
          have hlt : i - front.length < rest.length := by
            rw [List.length_append] at hi
            omega
          rcases hrest with hnil | ⟨_, hall⟩
          · rw [hnil] at hlt
            exact absurd hlt (Nat.not_lt_zero _)
          · rw [List.getElem?_eq_getElem hlt]
            exact congrArg some (hall _ (List.getElem_mem hlt))
      simp only [Codec.calcSize, hpad] at hsize
      split at hsize
      · cases hsize
      · rename_i hfour
        have hlast : (if 1 ≤ (front ++ rest).length ∧
            (front ++ rest)[(front ++ rest).length - 1]? = some p then 1 else 0) =
            if 1 ≤ rest.length then 1 else 0 := by
          refine if_congr ⟨fun ⟨hpos, heq⟩ => ?_, fun hone => ⟨by omega, ?_⟩⟩ rfl rfl
          · rw [hat _ (by omega)] at heq
            omega
          · rw [hat _ (by omega)]
            omega
        have hbefore : (if 2 ≤ (front ++ rest).length ∧
            (front ++ rest)[(front ++ rest).length - 2]? = some p then 1 else 0) =
            if 2 ≤ rest.length then 1 else 0 := by
          refine if_congr ⟨fun ⟨hpos, heq⟩ => ?_, fun htwo => ⟨by omega, ?_⟩⟩ rfl rfl
          · rw [hat _ (by omega)] at heq
            omega
          · rw [hat _ (by omega)]
            omega
        rw [hlast, hbefore, htotal] at hsize
        rw [htotal] at hfour
        have hn := Option.some.inj hsize
        have hcount : rest.length = 0 ∨ rest.length = left / 2 := by
          rcases hrest with hnil | ⟨heq, _⟩
          · exact .inl (by simp [hnil])
          · exact .inr heq
        by_cases hone : 1 ≤ rest.length
        · by_cases htwo : 2 ≤ rest.length
          · rw [if_pos hone, if_pos htwo] at hn
            omega
          · rw [if_pos hone, if_neg htwo] at hn
            omega
        · rw [if_neg hone, if_neg (by omega)] at hn
          omega

end Nilo.Base64
