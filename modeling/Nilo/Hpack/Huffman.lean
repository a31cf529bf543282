import Nilo.Hpack.Code
import Nilo.Hpack.Int
import Nilo.Lib.Bits

/-!
# Huffman strings (`huffmanDecode` in `http/hpack.zig`)

Up to 64 bits of input are held at the top of a word that is refilled a word at a time, and one or
two symbols are taken off the top of it a lookup. `refDecode` reads the same bits one by one:
`huffmanDecode_eq` says that the two are the same function, and never write past what was
reserved; `huffmanDecode_encode` that what the code was written with comes back.
-/

namespace Nilo.Hpack

open Text (Bytes)
open Mem (Fault readBe)
open Lib (Bits.window Bits.testBit_window Bits.eq_window)

/-! ## The decoder -/

/-- Input that is not decoded yet: `bits` of it at the top of `acc`, the rest from `next` on. -/
structure Held where
  acc : Nat
  bits : Nat
  next : Nat
deriving DecidableEq, Repr

/-- Bytes are added below what is held, one at a time; there is room for eight at the most. -/
def refillBytes (input : Bytes) : Nat → Held → Held
  | 0, s => s
  | n + 1, s =>
    if h : s.bits ≤ 56 ∧ s.next < input.length then
      have := h.2
      refillBytes input n
        ⟨s.acc ||| (input[s.next].toNat <<< (56 - s.bits)) % 2 ^ 64, s.bits + 8, s.next + 1⟩
    else s

def refill (input : Bytes) (s : Held) : Except Stop Held :=
  if s.next + 8 ≤ input.length then
    -- A whole word, of which as many bytes as fit below what is held are counted.
    if s.bits > 63 then .error (.fault .overflow)
    else
      let take := (63 - s.bits) / 8
      .ok ⟨s.acc ||| readBe ((input.drop s.next).take 8) >>> s.bits, s.bits + take * 8, s.next + take⟩
  else .ok (refillBytes input 8 s)

/-- `acc <<= n; bits -= n`. -/
def Held.drop (s : Held) (n : Nat) : Held := { s with acc := (s.acc <<< n) % 2 ^ 64, bits := s.bits - n }

/-- What is left at the end: shorter than a byte and every bit set, or the string is refused. -/
def padding (s : Held) : Except Stop Unit :=
  if s.bits > 7 then .error .compression
  else if s.bits = 0 then .ok ()
  else if s.acc >>> (64 - s.bits) ≠ 1 <<< s.bits - 1 then .error .compression
  else .ok ()

/-- A byte written into what was reserved. -/
def put (room : Nat) (out : Bytes) (sym : UInt8) : Except Stop Bytes :=
  if out.length < room then .ok (out ++ [sym]) else .error (.fault .range)

/-- What a turn of the loop comes to: another one, or the end of the string. -/
inductive Turn where
  | go (s : Held) (out : Bytes)
  | ended (out : Bytes)
deriving DecidableEq, Repr

/-- The canonical walk, from `len` on. -/
def walkCodes (room : Nat) (s : Held) (out : Bytes) : Nat → Nat → Except Stop Turn
  | 0, _ => .error .compression
  | n + 1, len =>
    if len > s.bits then (padding s).map fun _ => .ended out
    else
      let code := s.acc >>> (64 - len)
      if canonical.has len code then
        match canonical.symbol len code with
        | none => .error (.fault .range)
        | some sym => (put room out sym).map fun out => .go (s.drop len) out
      -- Thirty bits that are no byte's code: the end-of-string symbol, or nothing at all.
      else if len = eosLen then .error .compression
      else walkCodes room s out n (len + 1)

/-- A turn of the loop, once there is enough to look at. -/
def decodeHeld (room : Nat) (s : Held) (out : Bytes) : Except Stop Turn :=
  if s.bits = 0 then .ok (.ended out)
  else
    let hit := fast (s.acc >>> (64 - fastBits))
    if hit.both ≠ 0 ∧ hit.both ≤ s.bits then do
      let out ← put room out hit.first
      let out ← put room out hit.second
      pure (.go (s.drop hit.both) out)
    else if hit.len ≠ 0 then
      if hit.len > s.bits then (padding s).map fun _ => .ended out
      else (put room out hit.first).map fun out => .go (s.drop hit.len) out
    -- Longer than the table: the canonical walk, from the first length it does not cover.
    else walkCodes room s out (eosLen - fastBits) (fastBits + 1)

def decodeTurn (input : Bytes) (room : Nat) (s : Held) (out : Bytes) : Except Stop Turn := do
  let s ← refill input s
  decodeHeld room s out

/-- Every turn but the last takes bits off, so a turn for each bit is enough. -/
def decodeWithin (input : Bytes) (room : Nat) : Nat → Held → Bytes → Except Stop Bytes
  | 0, _, _ => .error .compression
  | n + 1, s, out =>
    match decodeTurn input room s out with
    | .error e => .error e
    | .ok (.ended out) => .ok out
    | .ok (.go s out) => decodeWithin input room n s out

def huffmanDecode (input : Bytes) : Except Stop Bytes :=
  decodeWithin input (input.length * 8 / 5 + 1) (8 * input.length + 1) ⟨0, 0, 0⟩ []

/-! ## One bit at a time -/

/-- The bit at `p` of a string of bytes, high bit first; past its end there are zeros. -/
def bitAt (input : Bytes) (p : Nat) : Bool := (input.getD (p / 8) 0).toNat.testBit (7 - p % 8)

def bitsOf (input : Bytes) : List Bool := (List.range (8 * input.length)).map (bitAt input)

def Code.bits (c : Code) : List Bool := (List.range c.len).map fun i => c.code.testBit (c.len - 1 - i)

def eos : List Bool := List.replicate eosLen true

/-- The decoder of RFC 7541: bits are read until they are a code, `cur` being those read since the
last one. The end-of-string symbol is an error, and what is left at the end has to be fewer than
eight ones. -/
def refDecode : List Bool → List Bool → Option Bytes
  | cur, [] => if cur.length < 8 ∧ cur.all id = true then some [] else none
  | cur, b :: rest =>
    match codeTable.find? fun c => c.bits == cur ++ [b] with
    | some c => (refDecode [] rest).map (c.sym :: ·)
    | none => if cur ++ [b] = eos then none else refDecode (cur ++ [b]) rest

/-! ## What is held is the input -/

theorem bitAt_of_le {input : Bytes} {p : Nat} (h : 8 * input.length ≤ p) : bitAt input p = false := by
  have hnone : input.length ≤ p / 8 := by omega
  rw [bitAt, List.getD_eq_getElem?_getD, List.getElem?_eq_none hnone]
  exact Nat.zero_testBit _

theorem byte_testBit (b : UInt8) {i : Nat} (h : 8 ≤ i) : b.toNat.testBit i = false :=
  Nat.testBit_lt_two_pow (Nat.lt_of_lt_of_le b.toNat_lt (Nat.pow_le_pow_right (by decide) h))

theorem readBe_lt (b : Bytes) : readBe b < 256 ^ b.length := by
  induction b with
  | nil => exact Nat.one_pos
  | cons x rest ih =>
    have hx := x.toNat_lt
    have hmul : (x.toNat + 1) * 256 ^ rest.length ≤ 256 * 256 ^ rest.length :=
      Nat.mul_le_mul_right _ (by omega)
    rw [Nat.add_mul, Nat.one_mul] at hmul
    rw [readBe, List.length_cons, Nat.pow_succ, Nat.mul_comm (256 ^ rest.length)]
    omega

theorem testBit_readBe (b : Bytes) {j : Nat} (hj : j < 8 * b.length) :
    (readBe b).testBit (8 * b.length - 1 - j) = bitAt b j := by
  induction b generalizing j with
  | nil => cases hj
  | cons x rest ih =>
    have hpow : 256 ^ rest.length = 2 ^ (8 * rest.length) := by rw [Nat.pow_mul]
    have hlt := readBe_lt rest
    rw [List.length_cons] at hj ⊢
    rw [readBe, hpow, Nat.mul_comm, Nat.testBit_two_pow_mul_add _ (hpow ▸ hlt), bitAt]
    split_ifs with hlow
    · have hrest := ih (j := j - 8) (by omega)
      rw [show 8 * rest.length - 1 - (j - 8) = 8 * (rest.length + 1) - 1 - j by omega] at hrest
      rw [hrest, bitAt, show j / 8 = (j - 8) / 8 + 1 by omega, List.getD_cons_succ]
      congr 1
      omega
    · rw [show j / 8 = 0 by omega, List.getD_cons_zero]
      congr 1
      omega

/-- What `Held` says about the input at `pos`: the bits it counts are those of the input, and below
them is nothing that the input does not have. -/
structure Holds (input : Bytes) (pos : Nat) (s : Held) : Prop where
  place : s.bits + pos = 8 * s.next
  within : s.next ≤ input.length
  word : s.acc < 2 ^ 64
  room : s.bits ≤ 64
  held : ∀ j < s.bits, s.acc.testBit (63 - j) = bitAt input (pos + j)
  below : ∀ j < 64, s.acc.testBit (63 - j) = true → bitAt input (pos + j) = true

variable {input : Bytes} {pos : Nat} {s : Held}

/-- The bits that are counted no more, where all of the input is. -/
theorem Holds.testBit (h : Holds input pos s) {j : Nat} (hj : j < 64)
    (hread : j < s.bits ∨ s.next = input.length) :
    s.acc.testBit (63 - j) = bitAt input (pos + j) := by
  rcases hread with hread | hend
  · exact h.held j hread
  · by_cases hbits : j < s.bits
    · exact h.held j hbits
    · have hplace := h.place
      have hpast : bitAt input (pos + j) = false := bitAt_of_le (by omega)
      rw [hpast]
      exact Bool.eq_false_iff.mpr fun hset => by
        have := h.below j hj hset
        rw [hpast] at this
        cases this

theorem Holds.peek (h : Holds input pos s) {k : Nat} (hk : k ≤ 64)
    (hread : k ≤ s.bits ∨ s.next = input.length) :
    s.acc >>> (64 - k) = Bits.window (bitAt input) pos k := by
  refine Bits.eq_window ?_ fun j hj => ?_
  · rw [Nat.shiftRight_eq_div_pow, Nat.div_lt_iff_lt_mul (Nat.two_pow_pos _), ← Nat.pow_add,
      Nat.add_sub_cancel' hk]
    exact h.word
  · rw [Nat.testBit_shiftRight, show 64 - k + (k - 1 - j) = 63 - j by omega]
    refine h.testBit (by omega) ?_
    rcases hread with hread | hend
    · exact .inl (by omega)
    · exact .inr hend

theorem Holds.drop (h : Holds input pos s) {k : Nat} (hk : k ≤ s.bits) :
    Holds input (pos + k) (s.drop k) := by
  have hplace := h.place
  have hroom := h.room
  have hbit (j : Nat) (hj : j < 64) : (s.drop k).acc.testBit (63 - j) =
      (decide (j + k < 64) && s.acc.testBit (63 - (j + k))) := by
    rw [Held.drop, Nat.testBit_mod_two_pow, decide_eq_true (by omega), Bool.true_and,
      Nat.testBit_shiftLeft]
    by_cases hfits : j + k < 64
    · rw [decide_eq_true hfits, decide_eq_true (by omega)]
      congr 2
      omega
    · rw [decide_eq_false hfits, decide_eq_false (by omega), Bool.false_and, Bool.false_and]
  refine ⟨?_, h.within, Nat.mod_lt _ (by decide), ?_, fun j hj => ?_, fun j hj hset => ?_⟩
  · show s.bits - k + (pos + k) = 8 * s.next
    omega
  · show s.bits - k ≤ 64
    omega
  · have hj' : j + k < s.bits := by
      have : j < s.bits - k := hj
      omega
    rw [hbit j (by omega), decide_eq_true (by omega), Bool.true_and, h.held _ hj']
    congr 1
    omega
  · rw [hbit j hj, Bool.and_eq_true_iff, decide_eq_true_eq] at hset
    have hset' := h.below (j + k) hset.1 hset.2
    rw [← hset']
    congr 1
    omega

/-- Bits are added below those that are counted. -/
theorem Holds.add (h : Holds input pos s) {extra : Nat} {n : Nat} (hextra : extra < 2 ^ 64)
    (hn : s.bits + 8 * n ≤ 64) (hnext : s.next + n ≤ input.length)
    (hnone : ∀ j < s.bits, extra.testBit (63 - j) = false)
    (hnew : ∀ j, s.bits ≤ j → j < s.bits + 8 * n → extra.testBit (63 - j) = bitAt input (pos + j))
    (hbelow : ∀ j, s.bits + 8 * n ≤ j → j < 64 → extra.testBit (63 - j) = true →
      bitAt input (pos + j) = true) :
    Holds input pos ⟨s.acc ||| extra, s.bits + 8 * n, s.next + n⟩ := by
  have hplace := h.place
  refine ⟨by dsimp only; omega, hnext, Nat.or_lt_two_pow h.word hextra, hn, fun j hj => ?_,
    fun j hj hset => ?_⟩
  · rw [Nat.testBit_or]
    by_cases hold : j < s.bits
    · rw [h.held j hold, hnone j hold, Bool.or_false]
    · have hj' : j < s.bits + 8 * n := hj
      rw [hnew j (by omega) hj']
      -- What was there below already is a bit of the input.
      cases hset : s.acc.testBit (63 - j) with
      | false => rw [Bool.false_or]
      | true => rw [h.below j (by omega) hset, Bool.true_or]
  · rw [Nat.testBit_or, Bool.or_eq_true_iff] at hset
    rcases hset with hset | hset
    · exact h.below j hj hset
    · by_cases hold : j < s.bits
      · rw [hnone j hold] at hset
        cases hset
      · by_cases hin : j < s.bits + 8 * n
        · rwa [hnew j (by omega) hin] at hset
        · exact hbelow j (by omega) hj hset

theorem bitAt_drop_take {n j : Nat} (hn : n + 8 ≤ input.length) (hj : j < 64) :
    bitAt ((input.drop n).take 8) j = bitAt input (8 * n + j) := by
  rw [bitAt, bitAt, List.getD_eq_getElem?_getD, List.getD_eq_getElem?_getD,
    List.getElem?_take_of_lt (by omega), List.getElem?_drop]
  congr 2
  · congr 2
    omega
  · omega

theorem Holds.refillBytes {n : Nat} (h : Holds input pos s) (hn : 64 < s.bits + 8 * n + 8) :
    Holds input pos (refillBytes input n s) ∧
      (56 ≤ (Hpack.refillBytes input n s).bits ∨ (Hpack.refillBytes input n s).next = input.length) := by
  induction n generalizing s with
  | zero => exact ⟨h, .inl (by rw [Hpack.refillBytes]; omega)⟩
  | succ n ih =>
    rw [Hpack.refillBytes]
    split_ifs with hgo
    · have hplace := h.place
      refine ih ?_ (by dsimp only; omega)
      have hshift : input[s.next].toNat <<< (56 - s.bits) < 2 ^ 64 := by
        rw [Nat.shiftLeft_eq]
        calc input[s.next].toNat * 2 ^ (56 - s.bits)
            < 2 ^ 8 * 2 ^ (56 - s.bits) :=
              Nat.mul_lt_mul_of_pos_right (input[s.next]).toNat_lt (Nat.two_pow_pos _)
          _ ≤ 2 ^ 8 * 2 ^ 56 := Nat.mul_le_mul_left _ (Nat.pow_le_pow_right (by decide) (by omega))
          _ = 2 ^ 64 := by decide
      rw [Nat.mod_eq_of_lt hshift]
      refine h.add (n := 1) hshift (by omega) (by omega) (fun j hj => ?_) (fun j hj hj' => ?_)
        (fun j hj hj' hset => ?_)
      · rw [Nat.testBit_shiftLeft, byte_testBit _ (by omega), Bool.and_false]
      · rw [Nat.testBit_shiftLeft, decide_eq_true (by omega), Bool.true_and, bitAt,
          show (pos + j) / 8 = s.next by omega, List.getD_eq_getElem?_getD,
          List.getElem?_eq_getElem hgo.2, Option.getD_some]
        congr 1
        omega
      · rw [Nat.testBit_shiftLeft, decide_eq_false (by omega), Bool.false_and] at hset
        cases hset
    · refine ⟨h, ?_⟩
      have := h.within
      by_cases hbits : s.bits ≤ 56
      · exact .inr (by omega)
      · exact .inl (by omega)

/-- After a refill there is enough for the longest code, or all of the input is held. -/
theorem Holds.refill (h : Holds input pos s) (hbits : s.bits ≤ 63) :
    ∃ s', refill input s = .ok s' ∧ Holds input pos s' ∧
      (56 ≤ s'.bits ∨ s'.next = input.length) := by
  rw [Hpack.refill]
  split_ifs with hword hfull
  · omega
  · have hplace := h.place
    have htake : (63 - s.bits) / 8 * 8 = 8 * ((63 - s.bits) / 8) := Nat.mul_comm ..
    have hlen : ((input.drop s.next).take 8).length = 8 := by
      rw [List.length_take, List.length_drop]
      omega
    have hlt := readBe_lt ((input.drop s.next).take 8)
    rw [hlen] at hlt
    have hread (j : Nat) (hj : s.bits ≤ j) (hj' : j < 64) :
        (readBe ((input.drop s.next).take 8) >>> s.bits).testBit (63 - j) = bitAt input (pos + j) := by
      have hbe := testBit_readBe ((input.drop s.next).take 8) (j := j - s.bits) (by rw [hlen]; omega)
      rw [bitAt_drop_take hword (by omega), hlen] at hbe
      rw [Nat.testBit_shiftRight, show s.bits + (63 - j) = 8 * 8 - 1 - (j - s.bits) by omega, hbe]
      congr 1
      omega
    refine ⟨_, rfl, ?_, ?_⟩
    · rw [htake]
      refine h.add ?_ (by omega) (by omega) (fun j hj => ?_) (fun j hj hj' => hread j hj (by omega))
        (fun j hj hj' hset => ?_)
      · exact Nat.lt_of_le_of_lt (Nat.shiftRight_le _ _) hlt
      · rw [Nat.testBit_shiftRight]
        exact Nat.testBit_lt_two_pow
          (Nat.lt_of_lt_of_le hlt (Nat.pow_le_pow_right (show 0 < 2 by decide)
            (show 64 ≤ s.bits + (63 - j) by omega)))
      · rwa [hread j (by omega) hj'] at hset
    · left
      show 56 ≤ s.bits + (63 - s.bits) / 8 * 8
      omega
  · exact ⟨_, rfl, h.refillBytes (by omega)⟩

/-! ## What the bits begin with -/

/-- A list of bits as a stream, with zeros past its end. -/
def bitOf (l : List Bool) (i : Nat) : Bool := l.getD i false

theorem getElem?_bits (c : Code) {i : Nat} (hi : i < c.len) :
    c.bits[i]? = some (c.code.testBit (c.len - 1 - i)) := by
  rw [Code.bits, List.getElem?_map, List.getElem?_range hi]
  rfl

@[simp] theorem length_bits (c : Code) : c.bits.length = c.len := by simp [Code.bits]

/-- A list begins with a code where its first bits are the code's number. -/
theorem bits_prefix_iff {c : Code} (hc : c ∈ codeTable) {l : List Bool} :
    c.bits <+: l ↔ c.len ≤ l.length ∧ Bits.window (bitOf l) 0 c.len = c.code := by
  have hlt : c.code < 2 ^ c.len := by
    have := (code_bounds hc).2.2
    omega
  constructor
  · rintro ⟨t, rfl⟩
    refine ⟨by rw [List.length_append, length_bits]; omega, ?_⟩
    refine (Bits.eq_window hlt fun j hj => ?_).symm
    rw [Nat.zero_add, bitOf, List.getD_eq_getElem?_getD,
      List.getElem?_append_left (by rwa [length_bits]), getElem?_bits c hj, Option.getD_some]
  · rintro ⟨hle, hcode⟩
    rw [List.prefix_iff_eq_take, length_bits]
    refine List.ext_getElem? fun i => ?_
    by_cases hi : i < c.len
    · have hbit := Lib.Bits.testBit_of_eq_window hcode hi
      have hlen : i < l.length := by omega
      rw [Nat.zero_add, bitOf, List.getD_eq_getElem?_getD, List.getElem?_eq_getElem hlen,
        Option.getD_some] at hbit
      rw [getElem?_bits c hi, List.getElem?_take_of_lt hi, List.getElem?_eq_getElem hlen, hbit]
    · rw [List.getElem?_eq_none (by rw [length_bits]; omega), List.getElem?_take_eq_none (by omega)]

/-- Only one code is what a list begins with. -/
theorem eq_of_prefix {c c' : Code} (hc : c ∈ codeTable) (hc' : c' ∈ codeTable) {l : List Bool}
    (h : c.bits <+: l) (h' : c'.bits <+: l) : c = c' := by
  have hone {a b : Code} (ha : a ∈ codeTable) (hb : b ∈ codeTable) (hab : a.bits <+: b.bits) :
      a = b := by
    obtain ⟨hle, hcode⟩ := (bits_prefix_iff ha).mp hab
    obtain ⟨-, hown⟩ := (bits_prefix_iff hb).mp (List.prefix_refl b.bits)
    rw [length_bits] at hle
    refine eq_of_begins ha hb ⟨hle, ?_⟩
    rw [← hown, Lib.Bits.window_shiftRight hle, hcode]
  rcases List.prefix_or_prefix_of_prefix h h' with hle | hle
  · exact hone hc hc' hle
  · exact (hone hc' hc hle).symm

/-- What the reference does with what it has read and what is to come, where what it has read does
not begin with a code: the code that comes next is taken, and where none does it ends. -/
theorem refDecode_cases (rest cur : List Bool) (hcur : ∀ c ∈ codeTable, ¬ c.bits <+: cur) :
    (∀ c ∈ codeTable, c.bits <+: cur ++ rest →
      refDecode cur rest = (refDecode [] (rest.drop (c.len - cur.length))).map (c.sym :: ·)) ∧
    ((∀ c ∈ codeTable, ¬ c.bits <+: cur ++ rest) →
      refDecode cur rest =
        if (cur ++ rest).length < 8 ∧ (cur ++ rest).all id = true then some [] else none) := by
  induction rest generalizing cur with
  | nil =>
    rw [List.append_nil]
    refine ⟨fun c hc hfront => absurd hfront (hcur c hc), fun _ => ?_⟩
    rw [refDecode]
  | cons b rest ih =>
    have hassoc : cur ++ b :: rest = (cur ++ [b]) ++ rest := by rw [List.append_assoc]; rfl
    rw [refDecode, hassoc]
    cases hfind : codeTable.find? fun c => c.bits == cur ++ [b] with
    | some found =>
      have hmem := List.mem_of_find?_eq_some hfind
      have hbits : found.bits = cur ++ [b] := by
        have hsome := List.find?_some hfind
        exact eq_of_beq hsome
      have hfront : found.bits <+: cur ++ [b] ++ rest := hbits ▸ List.prefix_append _ rest
      refine ⟨fun c hc hcode => ?_, fun hnone => absurd hfront (hnone found hmem)⟩
      have heq := eq_of_prefix hc hmem hcode hfront
      subst heq
      have hlen := congrArg List.length hbits
      rw [length_bits, List.length_append, List.length_singleton] at hlen
      rw [show c.len - cur.length = 1 by omega]
      rfl
    | none =>
      have hnext : ∀ c ∈ codeTable, ¬ c.bits <+: cur ++ [b] := by
        intro c hc hfront
        rcases List.prefix_concat_iff.mp hfront with heq | hle
        · have hne := List.find?_eq_none.mp hfind c hc
          exact hne (beq_iff_eq.mpr heq)
        · exact hcur c hc hle
      have hlonger {c : Code} (hfront : c.bits <+: cur ++ [b] ++ rest)
          (hc : c ∈ codeTable) : cur.length + 1 < c.len := by
        by_contra hle
        refine hnext c hc (List.prefix_of_prefix_length_le hfront (List.prefix_append _ rest) ?_)
        rw [length_bits, List.length_append, List.length_singleton]
        omega
      obtain ⟨hcode, hend⟩ := ih (cur ++ [b]) hnext
      by_cases heos : cur ++ [b] = eos
      · simp only [if_pos heos]
        have hlen := congrArg List.length heos
        rw [List.length_append, List.length_singleton, eos, List.length_replicate, eosLen] at hlen
        refine ⟨fun c hc hfront => ?_, fun _ => ?_⟩
        · have := hlonger hfront hc
          have := (code_bounds hc).2.1
          omega
        · rw [if_neg]
          rintro ⟨hshort, -⟩
          rw [List.length_append, List.length_append, List.length_singleton] at hshort
          omega
      · simp only [if_neg heos]
        refine ⟨fun c hc hfront => ?_, hend⟩
        have hlen := hlonger hfront hc
        rw [hcode c hc hfront, List.length_append, List.length_singleton,
          show c.len - cur.length = c.len - (cur.length + 1) + 1 by omega, List.drop_succ_cons]

/-- The code of a symbol is what comes next at `pos`. -/
def CodeAt (input : Bytes) (pos : Nat) (c : Code) : Prop :=
  c ∈ codeTable ∧ pos + c.len ≤ 8 * input.length ∧ Bits.window (bitAt input) pos c.len = c.code

theorem codeAt_iff {c : Code} (hc : c ∈ codeTable) (hpos : pos ≤ 8 * input.length) :
    c.bits <+: (bitsOf input).drop pos ↔ CodeAt input pos c := by
  have hbit (j : Nat) : bitOf ((bitsOf input).drop pos) (0 + j) = bitAt input (pos + j) := by
    rw [Nat.zero_add, bitOf, List.getD_eq_getElem?_getD, List.getElem?_drop, bitsOf,
      List.getElem?_map]
    by_cases hin : pos + j < 8 * input.length
    · rw [List.getElem?_range hin]
      rfl
    · rw [List.getElem?_eq_none (by rw [List.length_range]; omega), bitAt_of_le (by omega)]
      rfl
  have hlen : ((bitsOf input).drop pos).length = 8 * input.length - pos := by
    rw [List.length_drop, bitsOf, List.length_map, List.length_range]
  rw [bits_prefix_iff hc, hlen, Lib.Bits.window_congr fun j _ => hbit j, CodeAt]
  constructor
  · rintro ⟨hle, hcode⟩
    exact ⟨hc, by omega, hcode⟩
  · rintro ⟨-, hle, hcode⟩
    exact ⟨by omega, hcode⟩

theorem not_prefix_nil {c : Code} (hc : c ∈ codeTable) : ¬ c.bits <+: [] := by
  intro h
  have hlen := h.length_le
  rw [length_bits, List.length_nil] at hlen
  have := (code_bounds hc).1
  omega

/-- What the reference makes of the input from `pos` on. -/
def refFrom (input : Bytes) (pos : Nat) : Option Bytes := refDecode [] ((bitsOf input).drop pos)

theorem refFrom_code {c : Code} (h : CodeAt input pos c) :
    refFrom input pos = (refFrom input (pos + c.len)).map (c.sym :: ·) := by
  have hpos : pos ≤ 8 * input.length := by
    have := h.2.1
    omega
  have hcode := (refDecode_cases ((bitsOf input).drop pos) [] fun c hc => not_prefix_nil hc).1 c h.1
    ((codeAt_iff h.1 hpos).mpr h)
  rw [refFrom, hcode, List.length_nil, Nat.sub_zero, List.drop_drop, refFrom]

theorem refFrom_end (hpos : pos ≤ 8 * input.length) (h : ∀ c, ¬ CodeAt input pos c) :
    refFrom input pos =
      if 8 * input.length - pos < 8 ∧ ((bitsOf input).drop pos).all id = true then some [] else none := by
  have hend := (refDecode_cases ((bitsOf input).drop pos) [] fun c hc => not_prefix_nil hc).2
    fun c hc hfront => h c ((codeAt_iff hc hpos).mp hfront)
  have hlen : ((bitsOf input).drop pos).length = 8 * input.length - pos := by
    rw [List.length_drop, bitsOf, List.length_map, List.length_range]
  rw [refFrom, hend, List.nil_append, hlen]

/-! ## One turn -/

theorem all_drop_iff : ((bitsOf input).drop pos).all id = true ↔
    ∀ j < 8 * input.length - pos, bitAt input (pos + j) = true := by
  rw [List.all_eq_true]
  constructor
  · intro h j hj
    refine h _ (List.mem_of_getElem? (i := j) ?_)
    rw [List.getElem?_drop, bitsOf, List.getElem?_map, List.getElem?_range (by omega)]
    rfl
  · intro h b hb
    obtain ⟨j, hj⟩ := List.mem_iff_getElem?.mp hb
    rw [List.getElem?_drop, bitsOf, List.getElem?_map] at hj
    by_cases hin : pos + j < 8 * input.length
    · rw [List.getElem?_range hin] at hj
      cases hj
      exact h j (by omega)
    · rw [List.getElem?_eq_none (by rw [List.length_range]; omega)] at hj
      cases hj

/-- What a turn that began at `pos` with `out` came to, beside the reference. -/
def TurnSpec (input : Bytes) (pos : Nat) (out : Bytes) : Except Stop Turn → Prop
  | .ok (.go s' out') => ∃ syms pos', Holds input pos' s' ∧ s'.bits ≤ 63 ∧ out' = out ++ syms ∧
      pos < pos' ∧ pos + 5 * syms.length ≤ pos' ∧
      refFrom input pos = (refFrom input pos').map (syms ++ ·)
  | .ok (.ended out') => out' = out ∧ refFrom input pos = some []
  | .error e => e = .compression ∧ refFrom input pos = none

variable {room : Nat} {out : Bytes}

theorem turnSpec_padding (h : Holds input pos s) (hend : s.next = input.length)
    (hnone : ∀ c, ¬ CodeAt input pos c) :
    TurnSpec input pos out ((padding s).map fun _ => .ended out) := by
  have hplace := h.place
  have hbits : 8 * input.length - pos = s.bits := by omega
  have href := refFrom_end (by omega) hnone
  rw [hbits] at href
  rw [padding]
  split_ifs with hlong hempty hones
  · rw [if_neg (by omega)] at href
    exact ⟨rfl, href⟩
  · have hall : ((bitsOf input).drop pos).all id = true := by
      rw [all_drop_iff]
      intro j hj
      omega
    rw [if_pos ⟨by omega, hall⟩] at href
    exact ⟨rfl, href⟩
  · have hnot : ¬ ((bitsOf input).drop pos).all id = true := by
      rw [all_drop_iff, hbits, ← Lib.Bits.window_ones, ← h.peek h.room (.inl (Nat.le_refl _)),
        ← Nat.one_shiftLeft]
      exact hones
    rw [if_neg fun hboth => hnot hboth.2] at href
    exact ⟨rfl, href⟩
  · have hall : ((bitsOf input).drop pos).all id = true := by
      rw [all_drop_iff, hbits, ← Lib.Bits.window_ones, ← h.peek h.room (.inl (Nat.le_refl _)),
        ← Nat.one_shiftLeft]
      exact not_not.mp hones
    rw [if_pos ⟨by omega, hall⟩] at href
    exact ⟨rfl, href⟩

/-- A symbol that is taken off the top has its place in what was reserved. -/
theorem turnSpec_take {c : Code} (h : Holds input pos s) (hcode : CodeAt input pos c)
    (hbits : c.len ≤ s.bits) (hout : 5 * out.length ≤ pos)
    (hroom : room = input.length * 8 / 5 + 1) :
    put room out c.sym = .ok (out ++ [c.sym]) ∧
      TurnSpec input pos out (.ok (.go (s.drop c.len) (out ++ [c.sym]))) := by
  have hle := hcode.2.1
  have hlen := (code_bounds hcode.1).1
  have hwithin := h.room
  refine ⟨?_, [c.sym], pos + c.len, h.drop hbits, ?_, rfl, by omega, ?_, refFrom_code hcode⟩
  · rw [put, if_pos (by omega)]
  · show s.bits - c.len ≤ 63
    omega
  · rw [List.length_singleton]
    omega

theorem turnSpec_walk {n len : Nat} (h : Holds input pos s)
    (hread : 56 ≤ s.bits ∨ s.next = input.length) (hlen : len ≤ 30) (hn : len + n = 31)
    (hnone : ∀ c, CodeAt input pos c → len ≤ c.len) (hout : 5 * out.length ≤ pos)
    (hroom : room = input.length * 8 / 5 + 1) :
    TurnSpec input pos out (walkCodes room s out n len) := by
  have hplace := h.place
  have hwithin := h.within
  induction n generalizing len with
  | zero => omega
  | succ n ih =>
    rw [walkCodes]
    by_cases hshort : len > s.bits
    · -- All of the input is held, and it is shorter than any code that could still come.
      have hend : s.next = input.length := hread.resolve_left (by omega)
      rw [if_pos hshort]
      refine turnSpec_padding h hend fun c hc => ?_
      have hle := hnone c hc
      have := hc.2.1
      omega
    · have hpeek := h.peek (k := len) (by omega) (.inl (by omega))
      rw [if_neg hshort]
      dsimp only
      rw [hpeek]
      by_cases hhas : canonical.has len (Bits.window (bitAt input) pos len) = true
      · have hlt : Bits.window (bitAt input) pos len < 2 ^ 32 :=
          Nat.lt_of_lt_of_le Lib.Bits.window_lt (Nat.pow_le_pow_right (by decide) (by omega))
        obtain ⟨c, hmem, rfl, hcode, hsym⟩ := mem_of_has hlen hlt hhas
        have hat : CodeAt input pos c := ⟨hmem, by omega, hcode.symm⟩
        obtain ⟨hput, hspec⟩ := turnSpec_take h hat (by omega) hout hroom
        rw [if_pos hhas, hsym]
        dsimp only
        rw [hput]
        exact hspec
      · have hlonger : ∀ c, CodeAt input pos c → len + 1 ≤ c.len := by
          intro c hc
          have hle := hnone c hc
          by_contra hlt
          have heq : c.len = len := by omega
          refine hhas ?_
          rw [← heq, hc.2.2]
          exact has_of_mem hc.1
        rw [if_neg hhas]
        by_cases heos : len = eosLen
        · -- Thirty bits, and no code among them.
          rw [eosLen] at heos
          have hnot : ∀ c, ¬ CodeAt input pos c := by
            intro c hc
            have hle := hlonger c hc
            have := (code_bounds hc.1).2.1
            omega
          have href := refFrom_end (by omega) hnot
          rw [if_neg (by omega)] at href
          rw [if_pos (by rw [eosLen, heos])]
          exact ⟨rfl, href⟩
        · rw [if_neg heos]
          rw [eosLen] at heos
          exact ih (by omega) (by omega) hlonger

theorem turnSpec_lookup {c : Code} (h : Holds input pos s)
    (hread : 56 ≤ s.bits ∨ s.next = input.length) (hc : c ∈ codeTable)
    (hcode : Bits.window (bitAt input) pos c.len = c.code) (hlen : c.len ≤ fastBits)
    (hout : 5 * out.length ≤ pos) (hroom : room = input.length * 8 / 5 + 1) :
    TurnSpec input pos out
      (if c.len > s.bits then (padding s).map fun _ => .ended out
      else (put room out c.sym).map fun out => .go (s.drop c.len) out) := by
  have hplace := h.place
  have hwithin := h.within
  rw [fastBits] at hlen
  split_ifs with hlong
  · -- The code reaches past the end of the input, so no code comes next.
    have hend : s.next = input.length := hread.resolve_left (by omega)
    refine turnSpec_padding h hend fun c' hc' => ?_
    have hle := hc'.2.1
    have hbegins : c'.Begins c := by
      refine ⟨by omega, ?_⟩
      rw [← hcode, Lib.Bits.window_shiftRight (by omega), hc'.2.2]
    have heq := eq_of_begins hc'.1 hc hbegins
    subst heq
    omega
  · obtain ⟨hput, hspec⟩ := turnSpec_take h ⟨hc, by omega, hcode⟩ (by omega) hout hroom
    rw [hput]
    exact hspec

theorem turnSpec_decodeHeld (h : Holds input pos s) (hread : 56 ≤ s.bits ∨ s.next = input.length)
    (hout : 5 * out.length ≤ pos) (hroom : room = input.length * 8 / 5 + 1) :
    TurnSpec input pos out (decodeHeld room s out) := by
  have hplace := h.place
  have hwithin := h.within
  have hbits := h.room
  rw [decodeHeld]
  by_cases hempty : s.bits = 0
  · have hend : s.next = input.length := hread.resolve_left (by omega)
    have hnot : ∀ c, ¬ CodeAt input pos c := by
      intro c hc
      have := hc.2.1
      have := (code_bounds hc.1).1
      omega
    have hspec := @turnSpec_padding input pos s out h hend hnot
    rw [padding, if_neg (by omega), if_pos hempty] at hspec
    rw [if_pos hempty]
    exact hspec
  · have hpeek : s.acc >>> (64 - fastBits) = Bits.window (bitAt input) pos fastBits :=
      h.peek (by decide) (hread.imp_left fun hlong => Nat.le_trans (by decide) hlong)
    have hfills {c : Code} : c.fills (Bits.window (bitAt input) pos fastBits) = true ↔
        c.len ≤ fastBits ∧ Bits.window (bitAt input) pos c.len = c.code := by
      rw [fills_iff]
      refine and_congr_right fun hle => ?_
      rw [Lib.Bits.window_shiftRight hle]
    rw [if_neg hempty, hpeek]
    rcases fast_cases (Bits.window (bitAt input) pos fastBits) with
      ⟨hnone, hfast⟩ | ⟨c, hc, hcfills, hone | ⟨c', hc', hfills', hfits, htwo⟩⟩
    · rw [hfast]
      refine turnSpec_walk h hread (by decide) (by decide) (fun c hat => ?_) hout hroom
      by_contra hlt
      rw [fastBits] at hlt
      have hset := hfills.mpr ⟨by rw [fastBits]; omega, hat.2.2⟩
      rw [hnone c hat.1] at hset
      cases hset
    · obtain ⟨hlen, hcode⟩ := hfills.mp hcfills
      have hpos := (code_bounds hc).1
      rw [hone]
      dsimp only
      rw [if_neg (fun hboth => hboth.1 rfl), if_pos (by omega)]
      exact turnSpec_lookup h hread hc hcode hlen hout hroom
    · obtain ⟨hlen, hcode⟩ := hfills.mp hcfills
      have hpos := (code_bounds hc).1
      have hpos' := (code_bounds hc').1
      rw [htwo]
      dsimp only
      by_cases hboth : c.len + c'.len ≤ s.bits
      · -- Two symbols: the second code comes right behind the first.
        have hcode' : Bits.window (bitAt input) (pos + c.len) c'.len = c'.code := by
          rw [fills_iff] at hfills'
          rw [← hfills'.2, behind, Nat.one_shiftLeft]
          exact (Lib.Bits.window_behind hfits).symm
        have hat : CodeAt input pos c := ⟨hc, by omega, hcode⟩
        have hat' : CodeAt input (pos + c.len) c' := ⟨hc', by omega, hcode'⟩
        have hput {out : Bytes} (sym : UInt8) (hroom' : 5 * out.length + 5 ≤ 8 * input.length) :
            put room out sym = .ok (out ++ [sym]) := by
          rw [put, if_pos (by omega)]
        rw [if_pos ⟨by omega, hboth⟩, hput c.sym (by omega)]
        show TurnSpec input pos out (do
          let out ← put room (out ++ [c.sym]) c'.sym
          pure (.go (s.drop (c.len + c'.len)) out))
        rw [hput c'.sym (by rw [List.length_append, List.length_singleton]; omega)]
        refine ⟨[c.sym, c'.sym], pos + (c.len + c'.len), h.drop hboth, ?_, ?_, by omega, ?_, ?_⟩
        · show s.bits - (c.len + c'.len) ≤ 63
          omega
        · rw [List.append_assoc]
          rfl
        · show pos + 5 * 2 ≤ _
          omega
        · rw [refFrom_code hat, refFrom_code hat', Option.map_map, Nat.add_assoc]
          rfl
      · rw [if_neg fun hgo => hboth hgo.2, if_pos (by omega)]
        exact turnSpec_lookup h hread hc hcode hlen hout hroom

theorem turnSpec_decodeTurn (h : Holds input pos s) (hbits : s.bits ≤ 63)
    (hout : 5 * out.length ≤ pos) (hroom : room = input.length * 8 / 5 + 1) :
    TurnSpec input pos out (decodeTurn input room s out) := by
  obtain ⟨s', hrefill, h', hread⟩ := h.refill hbits
  rw [decodeTurn, hrefill]
  exact turnSpec_decodeHeld h' hread hout hroom

/-! ## The whole string -/

theorem decodeWithin_eq {n : Nat} (h : Holds input pos s) (hbits : s.bits ≤ 63)
    (hn : 8 * input.length - pos < n) (hout : 5 * out.length ≤ pos)
    (hroom : room = input.length * 8 / 5 + 1) :
    decodeWithin input room n s out =
      match refFrom input pos with
      | some text => .ok (out ++ text)
      | none => .error .compression := by
  induction n generalizing s out pos with
  | zero => cases hn
  | succ n ih =>
    have hspec := turnSpec_decodeTurn h hbits hout hroom
    rw [decodeWithin]
    cases hturn : decodeTurn input room s out with
    | error e =>
      rw [hturn] at hspec
      obtain ⟨rfl, href⟩ := hspec
      rw [href]
    | ok turn =>
      rw [hturn] at hspec
      cases turn with
      | ended out' =>
        obtain ⟨rfl, href⟩ := hspec
        rw [href]
        exact congrArg Except.ok (List.append_nil _).symm
      | go s' out' =>
        obtain ⟨syms, pos', h', hbits', rfl, hlt, hle, href⟩ := hspec
        have hplace := h'.place
        have hwithin := h'.within
        dsimp only
        rw [ih h' hbits' (by omega) (by rw [List.length_append]; omega), href]
        cases refFrom input pos' with
        | none => rfl
        | some text => exact congrArg Except.ok (List.append_assoc ..)

theorem holds_start : Holds input 0 ⟨0, 0, 0⟩ :=
  ⟨rfl, Nat.zero_le _, by decide, by decide, fun j hj => absurd hj (Nat.not_lt_zero j),
    fun j _ hset => by
      rw [Nat.zero_testBit] at hset
      cases hset⟩

/-- The table-driven decoder is the one that reads a bit at a time: it succeeds on the same strings
with the same bytes, and is never refused a byte of what it reserved. -/
theorem huffmanDecode_eq (input : Bytes) :
    huffmanDecode input =
      match refDecode [] (bitsOf input) with
      | some text => .ok text
      | none => .error .compression := by
  rw [huffmanDecode, decodeWithin_eq holds_start (by decide) (by omega) (Nat.zero_le _) rfl, refFrom,
    List.drop_zero]
  rfl

/-! ## Encoding -/

def codeOf (sym : UInt8) : Code := codeTable.getD sym.toNat ⟨sym, 0, 0⟩

theorem codeOf_mem (sym : UInt8) : codeOf sym ∈ codeTable ∧ (codeOf sym).sym = sym := by
  have hlen : codeTable.length = 256 := by
    have := congrArg List.length codeTable_sym
    rwa [List.length_map, List.length_map, List.length_range] at this
  have hlt : sym.toNat < codeTable.length := hlen ▸ sym.toNat_lt
  have hget : codeOf sym = codeTable[sym.toNat] := by
    rw [codeOf, List.getD_eq_getElem?_getD, List.getElem?_eq_getElem hlt, Option.getD_some]
  refine ⟨hget ▸ List.getElem_mem hlt, ?_⟩
  have hsym := congrArg (·[sym.toNat]?) codeTable_sym
  simp only [List.getElem?_map, List.getElem?_range sym.toNat_lt, List.getElem?_eq_getElem hlt,
    Option.map_some, Option.some.injEq] at hsym
  rw [hget, hsym]
  exact UInt8.ofNat_toNat

def huffmanBits (text : Bytes) : List Bool := text.flatMap fun sym => (codeOf sym).bits

/-- Bits as bytes. -/
def pack (l : List Bool) : Bytes :=
  (List.range (l.length / 8)).map fun i => UInt8.ofNat (Bits.window (bitOf l) (8 * i) 8)

/-- The codes of a text, padded with ones to a whole byte. -/
def huffmanEncode (text : Bytes) : Bytes :=
  let bits := huffmanBits text
  pack (bits ++ List.replicate ((8 - bits.length % 8) % 8) true)

theorem bitsOf_pack {l : List Bool} (h : l.length % 8 = 0) : bitsOf (pack l) = l := by
  have hlen : (pack l).length = l.length / 8 := by rw [pack, List.length_map, List.length_range]
  refine List.ext_getElem? fun p => ?_
  rw [bitsOf, List.getElem?_map, hlen, show 8 * (l.length / 8) = l.length by omega]
  by_cases hp : p < l.length
  · rw [List.getElem?_range hp, List.getElem?_eq_getElem hp, Option.map_some, bitAt, pack,
      List.getD_eq_getElem?_getD, List.getElem?_map, List.getElem?_range (by omega), Option.map_some,
      Option.getD_some, UInt8.toNat_ofNat', Nat.mod_eq_of_lt Lib.Bits.window_lt,
      Lib.Bits.testBit_window, decide_eq_true (by omega), Bool.true_and, bitOf,
      show 8 * (p / 8) + (8 - 1 - (7 - p % 8)) = p by omega, List.getD_eq_getElem?_getD,
      List.getElem?_eq_getElem hp, Option.getD_some]
  · rw [List.getElem?_eq_none (by rw [List.length_range]; omega), List.getElem?_eq_none (by omega)]
    rfl

/-- Padding does not begin with a code: none is all ones. -/
theorem refDecode_ones {k : Nat} (hk : k < 8) : refDecode [] (List.replicate k true) = some [] := by
  have hnone : ∀ c ∈ codeTable, ¬ c.bits <+: [] ++ List.replicate k true := by
    intro c hc hfront
    rw [List.nil_append, bits_prefix_iff hc, List.length_replicate] at hfront
    have hones : Bits.window (bitOf (List.replicate k true)) 0 c.len = 2 ^ c.len - 1 := by
      rw [Lib.Bits.window_ones]
      intro j hj
      rw [Nat.zero_add, bitOf, List.getD_eq_getElem?_getD, List.getElem?_replicate,
        if_pos (by omega), Option.getD_some]
    have := (code_bounds hc).2.2
    omega
  rw [(refDecode_cases _ [] fun c hc => not_prefix_nil hc).2 hnone, List.nil_append, if_pos]
  refine ⟨by rwa [List.length_replicate], ?_⟩
  rw [List.all_eq_true]
  intro b hb
  exact (List.eq_of_mem_replicate hb)

theorem refDecode_huffmanBits (text : Bytes) {k : Nat} (hk : k < 8) :
    refDecode [] (huffmanBits text ++ List.replicate k true) = some text := by
  induction text with
  | nil => exact refDecode_ones hk
  | cons sym text ih =>
    obtain ⟨hmem, hsym⟩ := codeOf_mem sym
    have hbits : huffmanBits (sym :: text) = (codeOf sym).bits ++ huffmanBits text :=
      List.flatMap_cons
    have hfront : (codeOf sym).bits <+: [] ++ (huffmanBits (sym :: text) ++ List.replicate k true) := by
      rw [List.nil_append, hbits, List.append_assoc]
      exact List.prefix_append ..
    have hdrop : (huffmanBits (sym :: text) ++ List.replicate k true).drop ((codeOf sym).len - 0) =
        huffmanBits text ++ List.replicate k true := by
      rw [hbits, List.append_assoc, Nat.sub_zero, ← length_bits, List.drop_left]
    rw [(refDecode_cases _ [] fun c hc => not_prefix_nil hc).1 _ hmem hfront, List.length_nil, hdrop,
      ih, Option.map_some, hsym]

/-- Huffman decoding is what RFC 7541 says, a bit at a time, and undoes encoding. -/
theorem huffmanDecode_exact :
    (∀ input, huffmanDecode input =
      match refDecode [] (bitsOf input) with
      | some text => .ok text
      | none => .error .compression) ∧
    ∀ text, huffmanDecode (huffmanEncode text) = .ok text := by
  refine ⟨huffmanDecode_eq, fun text => ?_⟩
  have hlength (bits : List Bool) :
      (bits ++ List.replicate ((8 - bits.length % 8) % 8) true).length % 8 = 0 := by
    rw [List.length_append, List.length_replicate]
    omega
  rw [huffmanDecode_eq, huffmanEncode, bitsOf_pack (hlength _),
    refDecode_huffmanBits text (Nat.mod_lt _ (by decide))]

end Nilo.Hpack
