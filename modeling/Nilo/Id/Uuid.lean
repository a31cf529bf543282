import Nilo.Lib.Lex
import Nilo.Std.Mem
import Mathlib.Tactic.IntervalCases

/-!
# Keys that go up (`id/uuid.zig`)

A version 7 UUID is the millisecond and then random bits; `v7Now` puts a counter in the twelve bits
behind the version, so that the keys of one thread sort in the order they were made. Where the
counter runs out it borrows the next millisecond, and where the clock steps back it stays where it
was. `mint_order` is about all the keys a thread makes from its start; it goes as far as the field of
the millisecond does, which the borrowed ones take up too (`mint_ms_le`).
-/

namespace Nilo.Id

open Text (Bytes ascii)
open Mem (writeBe)
open Lib (Lex.word Lex.word_lt Lex.append_lt Lex.append_lt_append_iff Lex.length_word)

def byteLen : Nat := 16

/-- Sixteen bytes, in the order they are written down. -/
structure Uuid where
  bytes : Bytes
  length : bytes.length = byteLen
deriving DecidableEq

/-- `v7_entropy` random bytes. -/
abbrev Entropy : Type := Vector UInt8 10

/-- The six bits every layout sets the same way. -/
def Uuid.marked (self : Uuid) (v : UInt8) : Uuid where
  bytes := (self.bytes.modify 6 fun b => (b &&& (0x0f : UInt8)) ||| (v <<< (4 : UInt8))).modify 8 fun b => (b &&& (0x3f : UInt8)) ||| 0x80
  length := by rw [List.length_modify, List.length_modify, self.length]

/-- `ms` big-endian in the first six bytes, and then `entropy`. -/
def v7 (entropy : Entropy) (ms : Nat) : Uuid :=
  let out : Uuid :=
    { bytes := writeBe 6 (ms % 2 ^ 48) ++ entropy.toList
      length := by rw [List.length_append, Mem.length_writeBe, Vector.length_toList, byteLen] }
  out.marked 7

/-- `rand_a` as a counter: the twelve bits after the version nibble. -/
def Uuid.withCounter (self : Uuid) (n : BitVec 12) : Uuid where
  bytes := (self.bytes.set 6 ((0x70 : UInt8) ||| UInt8.ofNat (n.toNat >>> 8))).set 7 (UInt8.ofNat n.toNat)
  length := by rw [List.length_set, List.length_set, self.length]

def Uuid.version (self : Uuid) : UInt8 := self.bytes.getD 6 0 >>> 4

def hex : Bytes := ascii "0123456789abcdef"

/-- A byte of the text, with the hyphen that stands in front of it. -/
def pair (p : UInt8 × Nat) : Bytes :=
  (if p.2 = 4 ∨ p.2 = 6 ∨ p.2 = 8 ∨ p.2 = 10 then ([45] : Bytes) else []) ++
    [hex.getD (p.1 >>> 4).toNat 0, hex.getD (p.1 &&& 0x0f).toNat 0]

def Uuid.toText (self : Uuid) : Bytes := self.bytes.zipIdx.flatMap pair

/-! ## The counter -/

/-- The millisecond and counter the last key of a thread used. -/
structure Counter where
  ms : Nat := 0
  n : BitVec 12 := 0
deriving DecidableEq, Repr

/-- Move `c` to the next key's millisecond and counter. -/
def advance (c : Counter) (nowMs : Nat) (seed : BitVec 12) : Counter :=
  if nowMs > c.ms then ⟨nowMs, seed⟩
  else if c.n.toNat + 1 ≥ 2 ^ 12 then ⟨c.ms + 1, seed⟩
  else { c with n := c.n + 1 }

/-- What the clock and the Scope answer for one key. -/
structure Draw where
  nowMs : Nat
  entropy : Entropy

/-- The entropy's own `rand_a` bits, less the top one. -/
def Draw.seed (self : Draw) : BitVec 12 :=
  BitVec.ofNat 12 (self.entropy[0] &&& 0x07).toNat <<< 8 ||| BitVec.ofNat 12 self.entropy[1].toNat

/-- A key, with the counter that it leaves behind. -/
structure Made where
  last : Counter
  key : Uuid

def v7Now (last : Counter) (draw : Draw) : Made :=
  let last := advance last draw.nowMs draw.seed
  ⟨last, (v7 draw.entropy last.ms).withCounter last.n⟩

/-- The keys that one thread makes. -/
def mint : Counter → List Draw → List Made
  | _, [] => []
  | last, draw :: draws => v7Now last draw :: mint (v7Now last draw).last draws

/-! ## The bytes of a key -/

theorem writeBe_eq_word {k n : Nat} (h : n < 256 ^ k) :
    writeBe k n = Lex.word UInt8.ofNat 256 k n := by
  induction k generalizing n with
  | zero => rfl
  | succ k ih =>
    have hpos : 0 < 256 ^ k := Nat.pow_pos (by decide)
    have hlow : writeBe k n = writeBe k (n % 256 ^ k) := by
      conv_lhs => rw [← Nat.div_add_mod' n (256 ^ k)]
      exact Mem.writeBe_add_mul k (n % 256 ^ k) (n / 256 ^ k)
    rw [writeBe, Lex.word, hlow, ih (Nat.mod_lt _ hpos)]

theorem ofNat_lt {i j : Nat} (hij : i < j) (hj : j < 256) : UInt8.ofNat i < UInt8.ofNat j := by
  rw [UInt8.lt_iff_toNat_lt, UInt8.toNat_ofNat', UInt8.toNat_ofNat']
  omega

/-- The counter behind the version, as a number of two bytes. -/
theorem counter_eq_word (n : BitVec 12) :
    [(0x70 : UInt8) ||| UInt8.ofNat (n.toNat >>> 8), UInt8.ofNat n.toNat] =
      Lex.word UInt8.ofNat 256 2 (0x7000 + n.toNat) := by
  have hn := n.isLt
  have hhigh : ∀ h < 16, (0x70 : UInt8) ||| UInt8.ofNat h = UInt8.ofNat (0x70 + h) := by decide
  have hlow : UInt8.ofNat n.toNat = UInt8.ofNat ((0x7000 + n.toNat) % 256) := by
    refine UInt8.toNat_inj.mp ?_
    rw [UInt8.toNat_ofNat', UInt8.toNat_ofNat']
    omega
  rw [Lex.word, Lex.word, Lex.word, Nat.shiftRight_eq_div_pow, hhigh _ (by omega), hlow]
  congr 2
  · omega
  · simp

/-- What the entropy leaves a key with, behind the counter. -/
def tailOf (entropy : Entropy) : Bytes :=
  (entropy.toList.drop 2).modify 0 fun b => (b &&& (0x3f : UInt8)) ||| 0x80

theorem toList_entropy (entropy : Entropy) :
    ∃ e₀ e₁ e₂ rest, entropy.toList = e₀ :: e₁ :: e₂ :: rest ∧ rest.length = 7 := by
  have hlength := entropy.length_toList
  rcases h : entropy.toList with _ | ⟨e₀, _ | ⟨e₁, _ | ⟨e₂, rest⟩⟩⟩
  · rw [h] at hlength
    cases hlength
  · rw [h] at hlength
    cases hlength
  · rw [h] at hlength
    cases hlength
  · rw [h] at hlength
    exact ⟨e₀, e₁, e₂, rest, rfl, by simpa using hlength⟩

theorem bytes_v7 (entropy : Entropy) (ms : Nat) (n : BitVec 12) :
    ((v7 entropy ms).withCounter n).bytes = writeBe 6 (ms % 2 ^ 48) ++
      ([(0x70 : UInt8) ||| UInt8.ofNat (n.toNat >>> 8), UInt8.ofNat n.toNat] ++ tailOf entropy) := by
  obtain ⟨e₀, e₁, e₂, rest, h, -⟩ := toList_entropy entropy
  rw [tailOf, h]
  change (((writeBe 6 (ms % 2 ^ 48) ++ entropy.toList).modify 6 _).modify 8 _ |>.set 6 _).set 7 _ = _
  rw [h]
  rfl

/-- A later counter makes a greater key. -/
theorem bytes_lt {c c' : Counter} (hms : c'.ms < 2 ^ 48)
    (h : c.ms < c'.ms ∨ c.ms = c'.ms ∧ c.n.toNat < c'.n.toNat) (e e' : Entropy) :
    ((v7 e c.ms).withCounter c.n).bytes < ((v7 e' c'.ms).withCounter c'.n).bytes := by
  have hms' : c.ms < 2 ^ 48 := by omega
  rw [bytes_v7, bytes_v7, Nat.mod_eq_of_lt hms, Nat.mod_eq_of_lt hms', counter_eq_word,
    counter_eq_word, writeBe_eq_word (n := c.ms) hms', writeBe_eq_word (n := c'.ms) hms]
  rcases h with hlt | ⟨heq, hlt⟩
  · exact Lex.append_lt (by rw [Lex.length_word, Lex.length_word])
      (Lex.word_lt (fun i j => ofNat_lt) hlt hms) _ _
  · rw [heq]
    refine List.append_left_lt (Lex.append_lt (by rw [Lex.length_word, Lex.length_word]) ?_ _ _)
    have hn := c'.n.isLt
    exact Lex.word_lt (fun i j => ofNat_lt) (by omega) (by omega)

/-! ## The text of a key -/

theorem digits_eq_word (b : UInt8) : [hex.getD (b >>> 4).toNat 0, hex.getD (b &&& 0x0f).toNat 0] =
    Lex.word (hex.getD · 0) 16 2 b.toNat := by
  have hall := Text.forall_byte (p := fun b =>
    [hex.getD (b >>> 4).toNat 0, hex.getD (b &&& 0x0f).toNat 0] =
      Lex.word (hex.getD · 0) 16 2 b.toNat) (by decide)
  exact hall b

theorem hex_lt {i j : Nat} (hij : i < j) (hj : j < 16) : hex.getD i 0 < hex.getD j 0 := by
  have hall : ∀ j < 16, ∀ i < j, hex.getD i 0 < hex.getD j 0 := by decide
  exact hall j hj i hij

/-- Texts compare as the bytes they are written from. -/
theorem text_lt {xs ys : Bytes} (hlength : xs.length = ys.length) (h : xs < ys) (i : Nat) :
    (xs.zipIdx i).flatMap pair < (ys.zipIdx i).flatMap pair := by
  induction xs generalizing ys i with
  | nil =>
    obtain rfl := List.length_eq_zero_iff.mp hlength.symm
    exact absurd h (List.not_lt_nil [])
  | cons x xs ih =>
    cases ys with
    | nil => cases hlength
    | cons y ys =>
      rw [List.zipIdx_cons, List.zipIdx_cons, List.flatMap_cons, List.flatMap_cons, pair, pair,
        List.append_assoc, List.append_assoc]
      refine List.append_left_lt ?_
      rw [digits_eq_word, digits_eq_word]
      rcases List.cons_lt_cons_iff.mp h with hlt | ⟨rfl, hrest⟩
      · exact Lex.append_lt (by rw [Lex.length_word, Lex.length_word])
          (Lex.word_lt (fun i j => hex_lt) (UInt8.lt_iff_toNat_lt.mp hlt) y.toNat_lt) _ _
      · exact List.append_left_lt (ih (Nat.succ.inj hlength) hrest (i + 1))

theorem toText_lt {a b : Uuid} (h : a.bytes < b.bytes) : a.toText < b.toText :=
  text_lt (by rw [a.length, b.length]) h 0

/-! ## Over a run -/

/-- What one call does to the counter. -/
theorem advance_cases (c : Counter) (nowMs : Nat) (seed : BitVec 12) :
    (c.ms < nowMs ∧ advance c nowMs seed = ⟨nowMs, seed⟩) ∨
      (nowMs ≤ c.ms ∧ c.n.toNat = 4095 ∧ advance c nowMs seed = ⟨c.ms + 1, seed⟩) ∨
        (nowMs ≤ c.ms ∧ (advance c nowMs seed).ms = c.ms ∧
          (advance c nowMs seed).n.toNat = c.n.toNat + 1) := by
  have hn := c.n.isLt
  have hnext : (c.n + 1).toNat = (c.n.toNat + 1) % 4096 := BitVec.toNat_add _ _
  rw [advance]
  by_cases hlater : nowMs > c.ms
  · exact .inl ⟨hlater, if_pos hlater⟩
  · rw [if_neg hlater]
    by_cases hcarried : c.n.toNat + 1 ≥ 2 ^ 12
    · exact .inr (.inl ⟨by omega, by omega, if_pos hcarried⟩)
    · rw [if_neg hcarried]
      exact .inr (.inr ⟨by omega, rfl, hnext.trans (Nat.mod_eq_of_lt (by omega))⟩)

/-- A key counts on from the one before it. -/
theorem advance_lt (c : Counter) (nowMs : Nat) (seed : BitVec 12) :
    c.ms < (advance c nowMs seed).ms ∨
      c.ms = (advance c nowMs seed).ms ∧ c.n.toNat < (advance c nowMs seed).n.toNat := by
  rcases advance_cases c nowMs seed with ⟨hlater, heq⟩ | ⟨-, -, heq⟩ | ⟨-, hms, hn⟩
  · rw [heq]
    exact .inl hlater
  · rw [heq]
    exact .inl (Nat.lt_succ_self _)
  · exact .inr ⟨hms.symm, by omega⟩

theorem lt_of_mem_mint {last : Counter} {draws : List Draw} {made : Made}
    (h : made ∈ mint last draws) :
    (last.ms < made.last.ms ∨ last.ms = made.last.ms ∧ last.n.toNat < made.last.n.toNat) ∧
      ∃ entropy, made.key = (v7 entropy made.last.ms).withCounter made.last.n := by
  induction draws generalizing last with
  | nil => cases h
  | cons draw draws ih =>
    have hstep := advance_lt last draw.nowMs draw.seed
    rcases List.mem_cons.mp h with rfl | hin
    · exact ⟨hstep, draw.entropy, rfl⟩
    · obtain ⟨hlater, hkey⟩ := ih hin
      refine ⟨?_, hkey⟩
      rw [show (v7Now last draw).last = advance last draw.nowMs draw.seed from rfl] at hlater
      omega

theorem mint_pairwise (last : Counter) (draws : List Draw) :
    (mint last draws).Pairwise fun a b => b.last.ms < 2 ^ 48 → a.key.bytes < b.key.bytes := by
  induction draws generalizing last with
  | nil => exact .nil
  | cons draw draws ih =>
    refine .cons (fun made hin hms => ?_) (ih _)
    obtain ⟨hlater, entropy, hkey⟩ := lt_of_mem_mint hin
    rw [hkey]
    exact bytes_lt hms hlater draw.entropy entropy

theorem seed_lt (draw : Draw) : draw.seed.toNat < 2048 := by
  have hhigh : (draw.entropy[0] &&& 0x07).toNat < 8 :=
    Text.forall_byte (p := fun b => (b &&& 0x07).toNat < 8) (by decide) draw.entropy[0]
  have hlow : draw.entropy[1].toNat < 256 := draw.entropy[1].toNat_lt
  rw [Draw.seed, BitVec.toNat_or, BitVec.toNat_shiftLeft, BitVec.toNat_ofNat, BitVec.toNat_ofNat]
  refine Nat.or_lt_two_pow (n := 11) ?_ ?_
  · rw [Nat.shiftLeft_eq]
    omega
  · omega

/-- How far the keys have run ahead of every clock reading, against how many they are. -/
theorem mint_ahead {last : Counter} {draws : List Draw} {made : Made} {top b : Nat}
    (h : made ∈ mint last draws) (htop : ∀ draw ∈ draws, draw.nowMs ≤ top)
    (hbefore : 2049 * (last.ms - top) + (last.n.toNat - 2047) ≤ b) :
    2049 * (made.last.ms - top) ≤ b + draws.length := by
  induction draws generalizing last b with
  | nil => cases h
  | cons draw draws ih =>
    have hseed := seed_lt draw
    have hnow := htop draw List.mem_cons_self
    have hn := last.n.isLt
    have hstep : 2049 * ((v7Now last draw).last.ms - top) + ((v7Now last draw).last.n.toNat - 2047) ≤
        b + 1 := by
      change 2049 * ((advance last draw.nowMs draw.seed).ms - top) +
        ((advance last draw.nowMs draw.seed).n.toNat - 2047) ≤ _
      rcases advance_cases last draw.nowMs draw.seed with ⟨hlater, heq⟩ | ⟨-, hfull, heq⟩ |
        ⟨-, hms, hnext⟩
      · rw [heq]
        dsimp only
        omega
      · rw [heq]
        dsimp only
        omega
      · omega
    rw [List.length_cons]
    rcases List.mem_cons.mp h with rfl | hin
    · omega
    · have hrest := ih hin (fun d hd => htop d (List.mem_cons_of_mem draw hd)) hstep
      omega

/-- A millisecond is borrowed for every 2049 keys at the most. -/
theorem mint_ms_le {draws : List Draw} {made : Made} {top : Nat} (h : made ∈ mint {} draws)
    (htop : ∀ draw ∈ draws, draw.nowMs ≤ top) : made.last.ms ≤ top + draws.length / 2049 := by
  have hahead := mint_ahead (b := 0) h htop (by simp)
  omega

/-- The keys of one thread go up, as bytes and as text, as far as their millisecond has a field. -/
theorem mint_order (draws : List Draw) :
    ((mint {} draws).Pairwise fun a b => b.last.ms < 2 ^ 48 →
      a.key.bytes < b.key.bytes ∧ a.key.toText < b.key.toText ∧ a.key ≠ b.key) ∧
    (∀ made ∈ mint {} draws, made.key.version = 7 ∧ made.key.bytes.getD 8 0 &&& 0xc0 = 0x80) ∧
    ∀ top, (∀ draw ∈ draws, draw.nowMs ≤ top) →
      ∀ made ∈ mint {} draws, made.last.ms ≤ top + draws.length / 2049 := by
  refine ⟨(mint_pairwise {} draws).imp fun hlt hms => ?_, fun made hin => ?_,
    fun top htop made hin => mint_ms_le hin htop⟩
  · have hbytes := hlt hms
    refine ⟨hbytes, toText_lt hbytes, fun heq => ?_⟩
    rw [heq] at hbytes
    exact List.lt_irrefl _ hbytes
  · obtain ⟨-, entropy, hkey⟩ := lt_of_mem_mint hin
    obtain ⟨e₀, e₁, e₂, rest, he, -⟩ := toList_entropy entropy
    have hversion : ∀ h < 16, ((0x70 : UInt8) ||| UInt8.ofNat h) >>> 4 = 7 := by decide
    have hvariant := Text.forall_byte (p := fun b => ((b &&& (0x3f : UInt8)) ||| 0x80) &&& (0xc0 : UInt8) = 0x80)
      (by decide) e₂
    have hn := made.last.n.isLt
    rw [Uuid.version, hkey, bytes_v7, tailOf, he]
    refine ⟨?_, hvariant⟩
    change ((0x70 : UInt8) ||| UInt8.ofNat (made.last.n.toNat >>> 8)) >>> 4 = 7
    refine hversion _ ?_
    rw [Nat.shiftRight_eq_div_pow]
    omega

/-! ## The end of the field -/

theorem mint_append (last : Counter) (xs ys : List Draw) :
    mint last (xs ++ ys) = mint last xs ++
      mint (xs.foldl (fun c draw => advance c draw.nowMs draw.seed) last) ys := by
  induction xs generalizing last with
  | nil => rfl
  | cons x xs ih => exact congrArg (v7Now last x :: ·) (ih _)

/-- A clock that stands at the last millisecond of the field. -/
def lastDraw : Draw := ⟨2 ^ 48 - 1, Vector.replicate 10 0xff⟩

theorem advance_burst {ms j : Nat} {n : BitVec 12} (draw : Draw) (h : n.toNat + j < 2 ^ 12)
    (hms : draw.nowMs = ms) :
    (List.replicate j draw).foldl (fun c draw => advance c draw.nowMs draw.seed) ⟨ms, n⟩ =
      ⟨ms, n + BitVec.ofNat 12 j⟩ := by
  induction j generalizing n with
  | zero => simp
  | succ j ih =>
    have hnext : (n + 1).toNat = (n.toNat + 1) % 2 ^ 12 := BitVec.toNat_add _ _
    have hstep : advance ⟨ms, n⟩ draw.nowMs draw.seed = ⟨ms, n + 1⟩ := by
      have hearly : ¬ draw.nowMs > ms := by omega
      have hroom : ¬ n.toNat + 1 ≥ 2 ^ 12 := by omega
      rw [advance, if_neg hearly, if_neg hroom]
    rw [List.replicate_succ, List.foldl_cons, hstep, ih (by omega)]
    congr 1
    rw [Nat.add_comm j 1, BitVec.ofNat_add, ← BitVec.add_assoc]
    rfl

/-- The key that borrows the millisecond behind the last sorts before the first. -/
theorem not_mint_increasing : ¬ ∀ draws : List Draw, (∀ draw ∈ draws, draw.nowMs < 2 ^ 48) →
    (mint {} draws).Pairwise fun a b => a.key.bytes < b.key.bytes := by
  intro h
  have hall := h ([lastDraw] ++ (List.replicate 2048 lastDraw ++ [lastDraw])) (by
    intro draw hin
    have heq : draw = lastDraw := by
      simp only [List.mem_append, List.mem_singleton, List.mem_replicate] at hin
      rcases hin with heq | ⟨-, heq⟩ | heq <;> exact heq
    rw [heq]
    decide)
  have hfirst : advance {} lastDraw.nowMs lastDraw.seed = ⟨2 ^ 48 - 1, 2047⟩ := by decide
  have hburst := advance_burst (n := 2047) (j := 2048) lastDraw (by decide)
    (show lastDraw.nowMs = 2 ^ 48 - 1 from rfl)
  rw [mint_append, mint_append] at hall
  have hlt := (List.pairwise_append.mp hall).2.2 _ (List.mem_singleton_self _)
    (v7Now ⟨2 ^ 48 - 1, 2047 + BitVec.ofNat 12 2048⟩ lastDraw) (by
      refine List.mem_append_right _ ?_
      rw [List.foldl_cons, List.foldl_nil, hfirst, hburst]
      exact List.mem_singleton_self _)
  revert hlt
  rw [v7Now, hfirst]
  decide

end Nilo.Id
