import Mathlib.Data.List.Pairwise
import Nilo.Std.Text

/-!
# The Huffman code of HPACK (`http/hpack.zig`, RFC 7541 Appendix B)

The code of each byte, and the two tables that are built of them while the source compiles:
`canonical` for the walk by length, and `fast` for the next twelve bits of input. What a decoder
needs of the code is said here once: no code begins another, none is all ones, and the two tables
answer with the symbol whose code comes next.
-/

namespace Nilo.Hpack

/-- Each byte's code, right-aligned. -/
def codes : List Nat := [
    0x1ff8, 0x7fffd8, 0xfffffe2, 0xfffffe3, 0xfffffe4, 0xfffffe5, 0xfffffe6, 0xfffffe7,
    0xfffffe8, 0xffffea, 0x3ffffffc, 0xfffffe9, 0xfffffea, 0x3ffffffd, 0xfffffeb, 0xfffffec,
    0xfffffed, 0xfffffee, 0xfffffef, 0xffffff0, 0xffffff1, 0xffffff2, 0x3ffffffe, 0xffffff3,
    0xffffff4, 0xffffff5, 0xffffff6, 0xffffff7, 0xffffff8, 0xffffff9, 0xffffffa, 0xffffffb,
    0x14, 0x3f8, 0x3f9, 0xffa, 0x1ff9, 0x15, 0xf8, 0x7fa,
    0x3fa, 0x3fb, 0xf9, 0x7fb, 0xfa, 0x16, 0x17, 0x18,
    0x0, 0x1, 0x2, 0x19, 0x1a, 0x1b, 0x1c, 0x1d,
    0x1e, 0x1f, 0x5c, 0xfb, 0x7ffc, 0x20, 0xffb, 0x3fc,
    0x1ffa, 0x21, 0x5d, 0x5e, 0x5f, 0x60, 0x61, 0x62,
    0x63, 0x64, 0x65, 0x66, 0x67, 0x68, 0x69, 0x6a,
    0x6b, 0x6c, 0x6d, 0x6e, 0x6f, 0x70, 0x71, 0x72,
    0xfc, 0x73, 0xfd, 0x1ffb, 0x7fff0, 0x1ffc, 0x3ffc, 0x22,
    0x7ffd, 0x3, 0x23, 0x4, 0x24, 0x5, 0x25, 0x26,
    0x27, 0x6, 0x74, 0x75, 0x28, 0x29, 0x2a, 0x7,
    0x2b, 0x76, 0x2c, 0x8, 0x9, 0x2d, 0x77, 0x78,
    0x79, 0x7a, 0x7b, 0x7ffe, 0x7fc, 0x3ffd, 0x1ffd, 0xffffffc,
    0xfffe6, 0x3fffd2, 0xfffe7, 0xfffe8, 0x3fffd3, 0x3fffd4, 0x3fffd5, 0x7fffd9,
    0x3fffd6, 0x7fffda, 0x7fffdb, 0x7fffdc, 0x7fffdd, 0x7fffde, 0xffffeb, 0x7fffdf,
    0xffffec, 0xffffed, 0x3fffd7, 0x7fffe0, 0xffffee, 0x7fffe1, 0x7fffe2, 0x7fffe3,
    0x7fffe4, 0x1fffdc, 0x3fffd8, 0x7fffe5, 0x3fffd9, 0x7fffe6, 0x7fffe7, 0xffffef,
    0x3fffda, 0x1fffdd, 0xfffe9, 0x3fffdb, 0x3fffdc, 0x7fffe8, 0x7fffe9, 0x1fffde,
    0x7fffea, 0x3fffdd, 0x3fffde, 0xfffff0, 0x1fffdf, 0x3fffdf, 0x7fffeb, 0x7fffec,
    0x1fffe0, 0x1fffe1, 0x3fffe0, 0x1fffe2, 0x7fffed, 0x3fffe1, 0x7fffee, 0x7fffef,
    0xfffea, 0x3fffe2, 0x3fffe3, 0x3fffe4, 0x7ffff0, 0x3fffe5, 0x3fffe6, 0x7ffff1,
    0x3ffffe0, 0x3ffffe1, 0xfffeb, 0x7fff1, 0x3fffe7, 0x7ffff2, 0x3fffe8, 0x1ffffec,
    0x3ffffe2, 0x3ffffe3, 0x3ffffe4, 0x7ffffde, 0x7ffffdf, 0x3ffffe5, 0xfffff1, 0x1ffffed,
    0x7fff2, 0x1fffe3, 0x3ffffe6, 0x7ffffe0, 0x7ffffe1, 0x3ffffe7, 0x7ffffe2, 0xfffff2,
    0x1fffe4, 0x1fffe5, 0x3ffffe8, 0x3ffffe9, 0xffffffd, 0x7ffffe3, 0x7ffffe4, 0x7ffffe5,
    0xfffec, 0xfffff3, 0xfffed, 0x1fffe6, 0x3fffe9, 0x1fffe7, 0x1fffe8, 0x7ffff3,
    0x3fffea, 0x3fffeb, 0x1ffffee, 0x1ffffef, 0xfffff4, 0xfffff5, 0x3ffffea, 0x7ffff4,
    0x3ffffeb, 0x7ffffe6, 0x3ffffec, 0x3ffffed, 0x7ffffe7, 0x7ffffe8, 0x7ffffe9, 0x7ffffea,
    0x7ffffeb, 0xffffffe, 0x7ffffec, 0x7ffffed, 0x7ffffee, 0x7ffffef, 0x7fffff0, 0x3ffffee]

def lengths : List Nat := [
    13, 23, 28, 28, 28, 28, 28, 28, 28, 24, 30, 28, 28, 30, 28, 28,
    28, 28, 28, 28, 28, 28, 30, 28, 28, 28, 28, 28, 28, 28, 28, 28,
    6, 10, 10, 12, 13, 6, 8, 11, 10, 10, 8, 11, 8, 6, 6, 6,
    5, 5, 5, 6, 6, 6, 6, 6, 6, 6, 7, 8, 15, 6, 12, 10,
    13, 6, 7, 7, 7, 7, 7, 7, 7, 7, 7, 7, 7, 7, 7, 7,
    7, 7, 7, 7, 7, 7, 7, 7, 8, 7, 8, 13, 19, 13, 14, 6,
    15, 5, 6, 5, 6, 5, 6, 6, 6, 5, 7, 7, 6, 6, 6, 5,
    6, 7, 6, 5, 5, 6, 7, 7, 7, 7, 7, 15, 11, 14, 13, 28,
    20, 22, 20, 20, 22, 22, 22, 23, 22, 23, 23, 23, 23, 23, 24, 23,
    24, 24, 22, 23, 24, 23, 23, 23, 23, 21, 22, 23, 22, 23, 23, 24,
    22, 21, 20, 22, 22, 23, 23, 21, 23, 22, 22, 24, 21, 22, 23, 23,
    21, 21, 22, 21, 23, 22, 23, 23, 20, 22, 22, 22, 23, 22, 22, 23,
    26, 26, 20, 19, 22, 23, 22, 25, 26, 26, 26, 27, 27, 26, 24, 25,
    19, 21, 26, 27, 27, 26, 27, 24, 21, 21, 26, 26, 28, 27, 27, 27,
    20, 24, 20, 21, 22, 21, 21, 23, 22, 22, 25, 25, 24, 24, 26, 23,
    26, 27, 26, 26, 27, 27, 27, 27, 27, 28, 27, 27, 27, 27, 27, 26]

/-- A byte with its code. -/
structure Code where
  sym : UInt8
  code : Nat
  len : Nat
deriving DecidableEq, Repr

def codeTable : List Code :=
  (codes.zip lengths).zipIdx.map fun p => ⟨UInt8.ofNat p.2, p.1.1, p.1.2⟩

/-- The end-of-string symbol, 30 ones. -/
def eosLen : Nat := 30

/-! ## The canonical table -/

structure Canonical where
  first : List Nat
  count : List Nat
  offset : List Nat
  symbols : List UInt8
deriving DecidableEq, Repr

/-- Of the codes of one length, the one that comes next after `last`. -/
def nextOf (same : List Code) (last : Option Nat) : Option Code :=
  same.foldl (fun best c =>
    if last.any (c.code ≤ ·) then best
    else
      match best with
      | none => some c
      | some b => if c.code < b.code then some c else best) none

/-- The codes of one length in their order; `turns` of them at the most. -/
def ofLength (same : List Code) : Nat → Option Nat → List Code
  | 0, _ => []
  | turns + 1, last =>
    match nextOf same last with
    | none => []
    | some c => c :: ofLength same turns (some c.code)

def inOrder : List (List Code) :=
  (List.range 31).map fun len => ofLength (codeTable.filter (·.len == len)) 256 none

def canonical : Canonical where
  first := inOrder.map fun l => (l.head?.map (·.code)).getD 0
  count := inOrder.map (·.length)
  offset := (List.range 31).map fun len => ((inOrder.take len).map (·.length)).sum
  symbols := inOrder.flatten.map (·.sym)

/-! ## The fast table -/

def fastBits : Nat := 12

structure Fast where
  first : UInt8
  second : UInt8
  /-- The first symbol's bits; 0 when the code starting here is longer than `fastBits`. -/
  len : Nat
  /-- Both symbols' bits; 0 when only the first fits. -/
  both : Nat
deriving DecidableEq, Repr

/-- Whether the code of a symbol fills the entry at `i`. -/
def Code.fills (c : Code) (i : Nat) : Bool :=
  let first := c.code <<< (fastBits - c.len)
  decide (c.len ≤ fastBits) && decide (first ≤ i) && decide (i < first + 1 <<< (fastBits - c.len))

/-- The entry at `i` after every symbol has filled what it fills: one symbol a lookup. -/
def one (i : Nat) : Fast :=
  codeTable.foldl (fun e c => if c.fills i then ⟨c.sym, 0, c.len, 0⟩ else e) ⟨0, 0, 0, 0⟩

/-- The entry at `i`: a pair is read off the single-symbol answer for what the first one leaves. -/
def fast (i : Nat) : Fast :=
  let e := one i
  if e.len = 0 then e
  else
    let after := one ((i <<< e.len) &&& (1 <<< fastBits - 1))
    if after.len = 0 || e.len + after.len > fastBits then e
    else { e with second := after.first, both := e.len + after.len }

/-! ## The lists of codes -/

/-- A list of lists read by the place in it: so many lists on, and so far into that one. -/
theorem getElem?_flatten {α : Type} (lists : List (List α)) {i j : Nat}
    (h : j < (lists.getD i []).length) :
    lists.flatten[((lists.take i).map (·.length)).sum + j]? = (lists.getD i [])[j]? := by
  induction lists generalizing i with
  | nil => exact absurd h (Nat.not_lt_zero j)
  | cons l lists ih =>
    cases i with
    | zero =>
      rw [List.getD_cons_zero] at h ⊢
      rw [List.take_zero, List.map_nil, List.sum_nil, Nat.zero_add, List.flatten_cons,
        List.getElem?_append_left h]
    | succ i =>
      rw [List.getD_cons_succ] at h ⊢
      rw [List.take_succ_cons, List.map_cons, List.sum_cons, Nat.add_assoc, List.flatten_cons,
        List.getElem?_append_right (Nat.le_add_right _ _), Nat.add_sub_cancel_left, ih h]

theorem nextOf_mem {same : List Code} {last : Option Nat} {c : Code}
    (h : nextOf same last = some c) : c ∈ same := by
  have hfold : ∀ (rest : List Code) (best : Option Code), (∀ b ∈ best, b ∈ same) →
      (∀ c ∈ rest, c ∈ same) → ∀ c ∈ rest.foldl (fun best c =>
        if last.any (c.code ≤ ·) then best
        else
          match best with
          | none => some c
          | some b => if c.code < b.code then some c else best) best, c ∈ same := by
    intro rest
    induction rest with
    | nil => exact fun best hbest _ => hbest
    | cons c rest ih =>
      intro best hbest hrest
      refine ih _ (fun b hb => ?_) fun c' hc' => hrest c' (List.mem_cons_of_mem c hc')
      dsimp only at hb
      split at hb
      · exact hbest b hb
      · cases best with
        | none =>
          cases hb
          exact hrest c List.mem_cons_self
        | some b' =>
          dsimp only at hb
          split at hb
          · cases hb
            exact hrest c List.mem_cons_self
          · exact hbest b hb
  exact hfold same none (fun b hb => by cases hb) (fun c hc => hc) c h

theorem mem_of_ofLength {same : List Code} {c : Code} {turns : Nat} {last : Option Nat}
    (h : c ∈ ofLength same turns last) : c ∈ same := by
  induction turns generalizing last with
  | zero => cases h
  | succ turns ih =>
    rw [ofLength] at h
    cases hnext : nextOf same last with
    | none =>
      rw [hnext] at h
      cases h
    | some b =>
      rw [hnext] at h
      rcases List.mem_cons.mp h with rfl | h
      · exact nextOf_mem hnext
      · exact ih h

theorem mem_codeTable {c : Code} {len : Nat} (h : c ∈ inOrder.getD len []) : c ∈ codeTable := by
  rw [List.getD_eq_getElem?_getD] at h
  cases hl : inOrder[len]? with
  | none =>
    rw [hl] at h
    cases h
  | some l =>
    rw [hl, Option.getD_some] at h
    obtain ⟨_, -, rfl⟩ := List.mem_map.mp (List.mem_of_getElem? hl)
    exact (List.mem_filter.mp (mem_of_ofLength h)).1

/-! ## What the tables come to -/

/-- The codes of each length, evaluated. -/
theorem inOrder_eq : inOrder = [
    [],
    [],
    [],
    [],
    [],
    [⟨48, 0x0, 5⟩, ⟨49, 0x1, 5⟩, ⟨50, 0x2, 5⟩, ⟨97, 0x3, 5⟩, ⟨99, 0x4, 5⟩, ⟨101, 0x5, 5⟩,
      ⟨105, 0x6, 5⟩, ⟨111, 0x7, 5⟩, ⟨115, 0x8, 5⟩, ⟨116, 0x9, 5⟩],
    [⟨32, 0x14, 6⟩, ⟨37, 0x15, 6⟩, ⟨45, 0x16, 6⟩, ⟨46, 0x17, 6⟩, ⟨47, 0x18, 6⟩, ⟨51, 0x19, 6⟩,
      ⟨52, 0x1a, 6⟩, ⟨53, 0x1b, 6⟩, ⟨54, 0x1c, 6⟩, ⟨55, 0x1d, 6⟩, ⟨56, 0x1e, 6⟩, ⟨57, 0x1f, 6⟩,
      ⟨61, 0x20, 6⟩, ⟨65, 0x21, 6⟩, ⟨95, 0x22, 6⟩, ⟨98, 0x23, 6⟩, ⟨100, 0x24, 6⟩, ⟨102, 0x25, 6⟩,
      ⟨103, 0x26, 6⟩, ⟨104, 0x27, 6⟩, ⟨108, 0x28, 6⟩, ⟨109, 0x29, 6⟩, ⟨110, 0x2a, 6⟩, ⟨112, 0x2b, 6⟩,
      ⟨114, 0x2c, 6⟩, ⟨117, 0x2d, 6⟩],
    [⟨58, 0x5c, 7⟩, ⟨66, 0x5d, 7⟩, ⟨67, 0x5e, 7⟩, ⟨68, 0x5f, 7⟩, ⟨69, 0x60, 7⟩, ⟨70, 0x61, 7⟩,
      ⟨71, 0x62, 7⟩, ⟨72, 0x63, 7⟩, ⟨73, 0x64, 7⟩, ⟨74, 0x65, 7⟩, ⟨75, 0x66, 7⟩, ⟨76, 0x67, 7⟩,
      ⟨77, 0x68, 7⟩, ⟨78, 0x69, 7⟩, ⟨79, 0x6a, 7⟩, ⟨80, 0x6b, 7⟩, ⟨81, 0x6c, 7⟩, ⟨82, 0x6d, 7⟩,
      ⟨83, 0x6e, 7⟩, ⟨84, 0x6f, 7⟩, ⟨85, 0x70, 7⟩, ⟨86, 0x71, 7⟩, ⟨87, 0x72, 7⟩, ⟨89, 0x73, 7⟩,
      ⟨106, 0x74, 7⟩, ⟨107, 0x75, 7⟩, ⟨113, 0x76, 7⟩, ⟨118, 0x77, 7⟩, ⟨119, 0x78, 7⟩, ⟨120, 0x79, 7⟩,
      ⟨121, 0x7a, 7⟩, ⟨122, 0x7b, 7⟩],
    [⟨38, 0xf8, 8⟩, ⟨42, 0xf9, 8⟩, ⟨44, 0xfa, 8⟩, ⟨59, 0xfb, 8⟩, ⟨88, 0xfc, 8⟩, ⟨90, 0xfd, 8⟩],
    [],
    [⟨33, 0x3f8, 10⟩, ⟨34, 0x3f9, 10⟩, ⟨40, 0x3fa, 10⟩, ⟨41, 0x3fb, 10⟩, ⟨63, 0x3fc, 10⟩],
    [⟨39, 0x7fa, 11⟩, ⟨43, 0x7fb, 11⟩, ⟨124, 0x7fc, 11⟩],
    [⟨35, 0xffa, 12⟩, ⟨62, 0xffb, 12⟩],
    [⟨0, 0x1ff8, 13⟩, ⟨36, 0x1ff9, 13⟩, ⟨64, 0x1ffa, 13⟩, ⟨91, 0x1ffb, 13⟩, ⟨93, 0x1ffc, 13⟩, ⟨126, 0x1ffd, 13⟩],
    [⟨94, 0x3ffc, 14⟩, ⟨125, 0x3ffd, 14⟩],
    [⟨60, 0x7ffc, 15⟩, ⟨96, 0x7ffd, 15⟩, ⟨123, 0x7ffe, 15⟩],
    [],
    [],
    [],
    [⟨92, 0x7fff0, 19⟩, ⟨195, 0x7fff1, 19⟩, ⟨208, 0x7fff2, 19⟩],
    [⟨128, 0xfffe6, 20⟩, ⟨130, 0xfffe7, 20⟩, ⟨131, 0xfffe8, 20⟩, ⟨162, 0xfffe9, 20⟩, ⟨184, 0xfffea, 20⟩, ⟨194, 0xfffeb, 20⟩,
      ⟨224, 0xfffec, 20⟩, ⟨226, 0xfffed, 20⟩],
    [⟨153, 0x1fffdc, 21⟩, ⟨161, 0x1fffdd, 21⟩, ⟨167, 0x1fffde, 21⟩, ⟨172, 0x1fffdf, 21⟩, ⟨176, 0x1fffe0, 21⟩, ⟨177, 0x1fffe1, 21⟩,
      ⟨179, 0x1fffe2, 21⟩, ⟨209, 0x1fffe3, 21⟩, ⟨216, 0x1fffe4, 21⟩, ⟨217, 0x1fffe5, 21⟩, ⟨227, 0x1fffe6, 21⟩, ⟨229, 0x1fffe7, 21⟩,
      ⟨230, 0x1fffe8, 21⟩],
    [⟨129, 0x3fffd2, 22⟩, ⟨132, 0x3fffd3, 22⟩, ⟨133, 0x3fffd4, 22⟩, ⟨134, 0x3fffd5, 22⟩, ⟨136, 0x3fffd6, 22⟩, ⟨146, 0x3fffd7, 22⟩,
      ⟨154, 0x3fffd8, 22⟩, ⟨156, 0x3fffd9, 22⟩, ⟨160, 0x3fffda, 22⟩, ⟨163, 0x3fffdb, 22⟩, ⟨164, 0x3fffdc, 22⟩, ⟨169, 0x3fffdd, 22⟩,
      ⟨170, 0x3fffde, 22⟩, ⟨173, 0x3fffdf, 22⟩, ⟨178, 0x3fffe0, 22⟩, ⟨181, 0x3fffe1, 22⟩, ⟨185, 0x3fffe2, 22⟩, ⟨186, 0x3fffe3, 22⟩,
      ⟨187, 0x3fffe4, 22⟩, ⟨189, 0x3fffe5, 22⟩, ⟨190, 0x3fffe6, 22⟩, ⟨196, 0x3fffe7, 22⟩, ⟨198, 0x3fffe8, 22⟩, ⟨228, 0x3fffe9, 22⟩,
      ⟨232, 0x3fffea, 22⟩, ⟨233, 0x3fffeb, 22⟩],
    [⟨1, 0x7fffd8, 23⟩, ⟨135, 0x7fffd9, 23⟩, ⟨137, 0x7fffda, 23⟩, ⟨138, 0x7fffdb, 23⟩, ⟨139, 0x7fffdc, 23⟩, ⟨140, 0x7fffdd, 23⟩,
      ⟨141, 0x7fffde, 23⟩, ⟨143, 0x7fffdf, 23⟩, ⟨147, 0x7fffe0, 23⟩, ⟨149, 0x7fffe1, 23⟩, ⟨150, 0x7fffe2, 23⟩, ⟨151, 0x7fffe3, 23⟩,
      ⟨152, 0x7fffe4, 23⟩, ⟨155, 0x7fffe5, 23⟩, ⟨157, 0x7fffe6, 23⟩, ⟨158, 0x7fffe7, 23⟩, ⟨165, 0x7fffe8, 23⟩, ⟨166, 0x7fffe9, 23⟩,
      ⟨168, 0x7fffea, 23⟩, ⟨174, 0x7fffeb, 23⟩, ⟨175, 0x7fffec, 23⟩, ⟨180, 0x7fffed, 23⟩, ⟨182, 0x7fffee, 23⟩, ⟨183, 0x7fffef, 23⟩,
      ⟨188, 0x7ffff0, 23⟩, ⟨191, 0x7ffff1, 23⟩, ⟨197, 0x7ffff2, 23⟩, ⟨231, 0x7ffff3, 23⟩, ⟨239, 0x7ffff4, 23⟩],
    [⟨9, 0xffffea, 24⟩, ⟨142, 0xffffeb, 24⟩, ⟨144, 0xffffec, 24⟩, ⟨145, 0xffffed, 24⟩, ⟨148, 0xffffee, 24⟩, ⟨159, 0xffffef, 24⟩,
      ⟨171, 0xfffff0, 24⟩, ⟨206, 0xfffff1, 24⟩, ⟨215, 0xfffff2, 24⟩, ⟨225, 0xfffff3, 24⟩, ⟨236, 0xfffff4, 24⟩, ⟨237, 0xfffff5, 24⟩],
    [⟨199, 0x1ffffec, 25⟩, ⟨207, 0x1ffffed, 25⟩, ⟨234, 0x1ffffee, 25⟩, ⟨235, 0x1ffffef, 25⟩],
    [⟨192, 0x3ffffe0, 26⟩, ⟨193, 0x3ffffe1, 26⟩, ⟨200, 0x3ffffe2, 26⟩, ⟨201, 0x3ffffe3, 26⟩, ⟨202, 0x3ffffe4, 26⟩, ⟨205, 0x3ffffe5, 26⟩,
      ⟨210, 0x3ffffe6, 26⟩, ⟨213, 0x3ffffe7, 26⟩, ⟨218, 0x3ffffe8, 26⟩, ⟨219, 0x3ffffe9, 26⟩, ⟨238, 0x3ffffea, 26⟩, ⟨240, 0x3ffffeb, 26⟩,
      ⟨242, 0x3ffffec, 26⟩, ⟨243, 0x3ffffed, 26⟩, ⟨255, 0x3ffffee, 26⟩],
    [⟨203, 0x7ffffde, 27⟩, ⟨204, 0x7ffffdf, 27⟩, ⟨211, 0x7ffffe0, 27⟩, ⟨212, 0x7ffffe1, 27⟩, ⟨214, 0x7ffffe2, 27⟩, ⟨221, 0x7ffffe3, 27⟩,
      ⟨222, 0x7ffffe4, 27⟩, ⟨223, 0x7ffffe5, 27⟩, ⟨241, 0x7ffffe6, 27⟩, ⟨244, 0x7ffffe7, 27⟩, ⟨245, 0x7ffffe8, 27⟩, ⟨246, 0x7ffffe9, 27⟩,
      ⟨247, 0x7ffffea, 27⟩, ⟨248, 0x7ffffeb, 27⟩, ⟨250, 0x7ffffec, 27⟩, ⟨251, 0x7ffffed, 27⟩, ⟨252, 0x7ffffee, 27⟩, ⟨253, 0x7ffffef, 27⟩,
      ⟨254, 0x7fffff0, 27⟩],
    [⟨2, 0xfffffe2, 28⟩, ⟨3, 0xfffffe3, 28⟩, ⟨4, 0xfffffe4, 28⟩, ⟨5, 0xfffffe5, 28⟩, ⟨6, 0xfffffe6, 28⟩, ⟨7, 0xfffffe7, 28⟩,
      ⟨8, 0xfffffe8, 28⟩, ⟨11, 0xfffffe9, 28⟩, ⟨12, 0xfffffea, 28⟩, ⟨14, 0xfffffeb, 28⟩, ⟨15, 0xfffffec, 28⟩, ⟨16, 0xfffffed, 28⟩,
      ⟨17, 0xfffffee, 28⟩, ⟨18, 0xfffffef, 28⟩, ⟨19, 0xffffff0, 28⟩, ⟨20, 0xffffff1, 28⟩, ⟨21, 0xffffff2, 28⟩, ⟨23, 0xffffff3, 28⟩,
      ⟨24, 0xffffff4, 28⟩, ⟨25, 0xffffff5, 28⟩, ⟨26, 0xffffff6, 28⟩, ⟨27, 0xffffff7, 28⟩, ⟨28, 0xffffff8, 28⟩, ⟨29, 0xffffff9, 28⟩,
      ⟨30, 0xffffffa, 28⟩, ⟨31, 0xffffffb, 28⟩, ⟨127, 0xffffffc, 28⟩, ⟨220, 0xffffffd, 28⟩, ⟨249, 0xffffffe, 28⟩],
    [],
    [⟨10, 0x3ffffffc, 30⟩, ⟨13, 0x3ffffffd, 30⟩, ⟨22, 0x3ffffffe, 30⟩]] := by
  decide

/-- Every code has its place, and leaves room behind it. -/
theorem codeTable_places : ∀ c ∈ codeTable, (5 ≤ c.len ∧ c.len ≤ 30 ∧ c.code + 1 < 2 ^ c.len) ∧
    c ∈ inOrder.getD c.len [] ∧ c.len < inOrder.length := by
  rw [inOrder_eq]
  decide +kernel

theorem code_bounds {c : Code} (h : c ∈ codeTable) :
    5 ≤ c.len ∧ c.len ≤ 30 ∧ c.code + 1 < 2 ^ c.len :=
  (codeTable_places c h).1

theorem codeTable_sym : codeTable.map (·.sym) = (List.range 256).map UInt8.ofNat := by decide +kernel

theorem mem_inOrder {c : Code} (h : c ∈ codeTable) : c ∈ inOrder.flatten := by
  obtain ⟨-, hget, hlen⟩ := codeTable_places c h
  rw [List.getD_eq_getElem?_getD, List.getElem?_eq_getElem hlen, Option.getD_some] at hget
  exact List.mem_flatten.mpr ⟨_, List.getElem_mem hlen, hget⟩

/-! ## No code begins another -/

/-- The first bits of `c'` are the code `c`. -/
def Code.Begins (c c' : Code) : Prop := c.len ≤ c'.len ∧ c'.code >>> (c'.len - c.len) = c.code

/-- Of all strings of 30 bits, those that begin with `c` come before those that begin with `c'`. -/
def Code.Before (c c' : Code) : Prop :=
  (c.code + 1) <<< (30 - c.len) ≤ c'.code <<< (30 - c'.len)

instance (c c' : Code) : Decidable (c.Before c') := inferInstanceAs (Decidable (_ ≤ _))

theorem before_trans {a b c : Code} (hab : a.Before b) (hbc : b.Before c) : a.Before c := by
  have hpos : b.code <<< (30 - b.len) ≤ (b.code + 1) <<< (30 - b.len) := by
    rw [Nat.shiftLeft_eq, Nat.shiftLeft_eq]
    exact Nat.mul_le_mul_right _ (Nat.le_succ _)
  exact Nat.le_trans hab (Nat.le_trans hpos hbc)

theorem pairwise_before : inOrder.flatten.Pairwise Code.Before := by
  have hchain : inOrder.flatten.IsChain Code.Before := by
    rw [inOrder_eq]
    decide +kernel
  have htrans : Trans Code.Before Code.Before Code.Before := ⟨before_trans⟩
  exact List.isChain_iff_pairwise.mp hchain

def Code.Apart (c c' : Code) : Prop := c.Before c' ∨ c'.Before c

theorem not_begins_of_apart {c c' : Code} (hc : c ∈ codeTable) (hc' : c' ∈ codeTable)
    (h : c.Apart c') : ¬ c.Begins c' := by
  rintro ⟨hle, hbegins⟩
  obtain ⟨-, hlen, -⟩ := code_bounds hc
  obtain ⟨-, hlen', -⟩ := code_bounds hc'
  obtain ⟨d, hd⟩ := Nat.exists_eq_add_of_le hle
  have hpow : 2 ^ (30 - c.len) = 2 ^ d * 2 ^ (30 - c'.len) := by
    rw [← Nat.pow_add]
    congr 1
    omega
  have hdiv : c'.code / 2 ^ d = c.code := by
    rw [← hbegins, Nat.shiftRight_eq_div_pow]
    congr 2
    omega
  have hlow : c.code * 2 ^ d ≤ c'.code := hdiv ▸ Nat.div_mul_le_self ..
  have hhigh : c'.code < (c.code + 1) * 2 ^ d := by
    rw [← Nat.div_lt_iff_lt_mul (Nat.two_pow_pos d), hdiv]
    exact Nat.lt_succ_self _
  rw [Code.Apart, Code.Before, Code.Before, Nat.shiftLeft_eq, Nat.shiftLeft_eq, Nat.shiftLeft_eq,
    Nat.shiftLeft_eq, hpow, ← Nat.mul_assoc, ← Nat.mul_assoc] at h
  have hpos := Nat.two_pow_pos (30 - c'.len)
  rcases h with h | h
  · have := Nat.le_of_mul_le_mul_right h hpos
    omega
  · have := Nat.le_of_mul_le_mul_right h hpos
    omega

theorem eq_of_begins {c c' : Code} (hc : c ∈ codeTable) (hc' : c' ∈ codeTable)
    (h : c.Begins c') : c = c' := by
  by_contra hne
  have hsymm : Std.Symm Code.Apart := ⟨fun _ _ h => h.symm⟩
  have hpairwise : inOrder.flatten.Pairwise Code.Apart := pairwise_before.imp .inl
  exact not_begins_of_apart hc hc' (hpairwise.forall (mem_inOrder hc) (mem_inOrder hc') hne) h

/-! ## The walk by length -/

theorem canonical_eq : canonical = {
    first := [0, 0, 0, 0, 0, 0, 20, 92, 248, 0, 1016, 2042,
      4090, 8184, 16380, 32764, 0, 0, 0, 524272, 1048550, 2097116, 4194258, 8388568,
      16777194, 33554412, 67108832, 134217694, 268435426, 0, 1073741820]
    count := [0, 0, 0, 0, 0, 10, 26, 32, 6, 0, 5, 3, 2, 6, 2, 3,
      0, 0, 0, 3, 8, 13, 26, 29, 12, 4, 15, 19, 29, 0, 3]
    offset := [0, 0, 0, 0, 0, 0, 10, 36, 68, 74, 74, 79, 82, 84, 90, 92,
      95, 95, 95, 95, 98, 106, 119, 145, 174, 186, 190, 205, 224, 253, 253]
    symbols := [48, 49, 50, 97, 99, 101, 105, 111, 115, 116, 32, 37, 45, 46, 47, 51,
      52, 53, 54, 55, 56, 57, 61, 65, 95, 98, 100, 102, 103, 104, 108, 109,
      110, 112, 114, 117, 58, 66, 67, 68, 69, 70, 71, 72, 73, 74, 75, 76,
      77, 78, 79, 80, 81, 82, 83, 84, 85, 86, 87, 89, 106, 107, 113, 118,
      119, 120, 121, 122, 38, 42, 44, 59, 88, 90, 33, 34, 40, 41, 63, 39,
      43, 124, 35, 62, 0, 36, 64, 91, 93, 126, 94, 125, 60, 96, 123, 92,
      195, 208, 128, 130, 131, 162, 184, 194, 224, 226, 153, 161, 167, 172, 176, 177,
      179, 209, 216, 217, 227, 229, 230, 129, 132, 133, 134, 136, 146, 154, 156, 160,
      163, 164, 169, 170, 173, 178, 181, 185, 186, 187, 189, 190, 196, 198, 228, 232,
      233, 1, 135, 137, 138, 139, 140, 141, 143, 147, 149, 150, 151, 152, 155, 157,
      158, 165, 166, 168, 174, 175, 180, 182, 183, 188, 191, 197, 231, 239, 9, 142,
      144, 145, 148, 159, 171, 206, 215, 225, 236, 237, 199, 207, 234, 235, 192, 193,
      200, 201, 202, 205, 210, 213, 218, 219, 238, 240, 242, 243, 255, 203, 204, 211,
      212, 214, 221, 222, 223, 241, 244, 245, 246, 247, 248, 250, 251, 252, 253, 254,
      2, 3, 4, 5, 6, 7, 8, 11, 12, 14, 15, 16, 17, 18, 19, 20,
      21, 23, 24, 25, 26, 27, 28, 29, 30, 31, 127, 220, 249, 10, 13, 22] } := by
  rw [canonical, inOrder_eq]
  decide +kernel

/-- Whether a code of a length is one, as the walk asks it; `code -% first` wraps. -/
def Canonical.rel (k : Canonical) (len code : Nat) : Nat := (code + 2 ^ 32 - k.first.getD len 0) % 2 ^ 32

def Canonical.has (k : Canonical) (len code : Nat) : Bool :=
  k.count.getD len 0 != 0 && decide (code ≥ k.first.getD len 0) &&
    decide (k.rel len code < k.count.getD len 0)

def Canonical.symbol (k : Canonical) (len code : Nat) : Option UInt8 :=
  k.symbols[k.offset.getD len 0 + k.rel len code]?

theorem rel_eq {len code : Nat} (hcode : code < 2 ^ 32) (h : canonical.first.getD len 0 ≤ code) :
    canonical.rel len code = code - canonical.first.getD len 0 := by
  rw [Canonical.rel, show code + 2 ^ 32 - canonical.first.getD len 0 =
    code - canonical.first.getD len 0 + 2 ^ 32 by omega, Nat.add_mod_right]
  exact Nat.mod_eq_of_lt (by omega)

/-- A code of the table is found. -/
theorem has_of_mem {c : Code} (h : c ∈ codeTable) : canonical.has c.len c.code = true := by
  have hall : ∀ c ∈ codeTable, canonical.has c.len c.code = true := by
    rw [canonical_eq]
    decide +kernel
  exact hall c h

/-- The codes of one length follow each other. -/
theorem getElem?_inOrder {len rel : Nat} (hlen : len < 31)
    (hrel : rel < (inOrder.getD len []).length) :
    ∃ sym, (inOrder.getD len [])[rel]? = some ⟨sym, canonical.first.getD len 0 + rel, len⟩ := by
  have hall : ∀ len < 31, ((inOrder.getD len []).zipIdx.all fun p =>
      p.1.len == len && p.1.code == canonical.first.getD len 0 + p.2) = true := by
    rw [canonical_eq, inOrder_eq]
    decide
  have hget := List.getElem?_eq_getElem hrel
  have hcode := List.all_eq_true.mp (hall len hlen) _ (List.mk_mem_zipIdx_iff_getElem?.mpr hget)
  rw [Bool.and_eq_true_iff, beq_iff_eq, beq_iff_eq] at hcode
  refine ⟨(inOrder.getD len [])[rel].sym, hget.trans (congrArg some ?_)⟩
  exact Code.mk.injEq .. |>.mpr ⟨rfl, hcode.2, hcode.1⟩

theorem symbols_getElem? {len rel : Nat} (hlen : len < 31)
    (hrel : rel < (inOrder.getD len []).length) :
    canonical.symbols[canonical.offset.getD len 0 + rel]? =
      (inOrder.getD len [])[rel]?.map (·.sym) := by
  have hoffset : canonical.offset.getD len 0 = ((inOrder.take len).map (·.length)).sum := by
    rw [canonical, List.getD_eq_getElem?_getD, List.getElem?_map, List.getElem?_range hlen]
    rfl
  rw [hoffset, canonical, List.getElem?_map, getElem?_flatten _ hrel]

theorem count_getD (len : Nat) : canonical.count.getD len 0 = (inOrder.getD len []).length := by
  rw [canonical, List.getD_eq_getElem?_getD, List.getD_eq_getElem?_getD, List.getElem?_map]
  cases inOrder[len]? with
  | none => rfl
  | some l => rfl

/-- What is found is a code of the table, and its symbol comes with it. -/
theorem mem_of_has {len code : Nat} (hlen : len ≤ 30) (hcode : code < 2 ^ 32)
    (h : canonical.has len code = true) :
    ∃ c ∈ codeTable, c.len = len ∧ c.code = code ∧ canonical.symbol len code = some c.sym := by
  rw [Canonical.has, Bool.and_eq_true_iff, Bool.and_eq_true_iff, decide_eq_true_eq,
    decide_eq_true_eq] at h
  obtain ⟨⟨-, hfirst⟩, hrel⟩ := h
  have heq := rel_eq hcode hfirst
  rw [count_getD] at hrel
  obtain ⟨sym, hget⟩ := getElem?_inOrder (by omega) hrel
  refine ⟨_, mem_codeTable (List.mem_of_getElem? hget), rfl, ?_, ?_⟩
  · dsimp only
    omega
  · rw [Canonical.symbol, symbols_getElem? (by omega) hrel, hget]
    rfl

/-! ## The lookup -/

/-- A symbol fills the entries that begin with its code. -/
theorem fills_iff {c : Code} {i : Nat} :
    c.fills i = true ↔ c.len ≤ fastBits ∧ i >>> (fastBits - c.len) = c.code := by
  have hpos := Nat.two_pow_pos (fastBits - c.len)
  rw [Code.fills, Bool.and_eq_true_iff, Bool.and_eq_true_iff, decide_eq_true_eq, decide_eq_true_eq,
    decide_eq_true_eq, Nat.shiftLeft_eq, Nat.shiftLeft_eq, Nat.shiftRight_eq_div_pow, Nat.one_mul,
    and_assoc, and_congr_right_iff]
  intro _
  rw [Nat.div_eq_iff hpos, Nat.mul_comm c.code]
  omega

/-- At most one symbol fills an entry. -/
theorem fills_unique {c c' : Code} (hc : c ∈ codeTable) (hc' : c' ∈ codeTable) {i : Nat}
    (h : c.fills i = true) (h' : c'.fills i = true) : c = c' := by
  have hone {a b : Code} (ha : a ∈ codeTable) (hb : b ∈ codeTable) (hle : a.len ≤ b.len)
      (hfa : a.fills i = true) (hfb : b.fills i = true) : a = b := by
    obtain ⟨-, hia⟩ := fills_iff.mp hfa
    obtain ⟨hlen, hib⟩ := fills_iff.mp hfb
    refine eq_of_begins ha hb ⟨hle, ?_⟩
    rw [← hib, ← hia, ← Nat.shiftRight_add]
    congr 1
    omega
  rcases Nat.le_total c.len c'.len with hle | hle
  · exact hone hc hc' hle h h'
  · exact (hone hc' hc hle h' h).symm

theorem foldl_fills {i : Nat} {table : List Code} (e : Fast)
    (h : ∀ c ∈ table, c.fills i = false) :
    table.foldl (fun e c => if c.fills i then ⟨c.sym, 0, c.len, 0⟩ else e) e = e := by
  induction table with
  | nil => rfl
  | cons c table ih =>
    rw [List.foldl_cons, if_neg (by rw [h c List.mem_cons_self]; decide)]
    exact ih fun c' hc' => h c' (List.mem_cons_of_mem c hc')

theorem one_of_fills {c : Code} (hc : c ∈ codeTable) {i : Nat} (h : c.fills i = true) :
    one i = ⟨c.sym, 0, c.len, 0⟩ := by
  have hfold : ∀ (table : List Code) (e : Fast), (∀ c' ∈ table, c'.fills i = true → c' = c) →
      c ∈ table → table.foldl (fun e c => if c.fills i then ⟨c.sym, 0, c.len, 0⟩ else e) e =
        ⟨c.sym, 0, c.len, 0⟩ := by
    intro table
    induction table with
    | nil =>
      intro e _ hmem
      cases hmem
    | cons c' table ih =>
      intro e honly hmem
      rw [List.foldl_cons]
      by_cases hlater : c ∈ table
      · exact ih _ (fun a ha => honly a (List.mem_cons_of_mem c' ha)) hlater
      · have heq : c = c' := (List.mem_cons.mp hmem).resolve_right hlater
        subst heq
        rw [if_pos h]
        refine foldl_fills _ fun a ha => ?_
        refine Bool.eq_false_iff.mpr fun hfills => ?_
        exact hlater (honly a (List.mem_cons_of_mem c ha) hfills ▸ ha)
  exact hfold codeTable _ (fun c' hc' hfills => fills_unique hc' hc hfills h) hc

theorem one_of_none {i : Nat} (h : ∀ c ∈ codeTable, c.fills i = false) : one i = ⟨0, 0, 0, 0⟩ :=
  foldl_fills _ h

/-- What a lookup answers with: a symbol whose code comes next, or that none of twelve bits does. -/
theorem one_cases (i : Nat) :
    (∃ c ∈ codeTable, c.fills i = true ∧ one i = ⟨c.sym, 0, c.len, 0⟩) ∨
      (∀ c ∈ codeTable, c.fills i = false) ∧ one i = ⟨0, 0, 0, 0⟩ := by
  by_cases h : ∃ c ∈ codeTable, c.fills i = true
  · obtain ⟨c, hc, hfills⟩ := h
    exact .inl ⟨c, hc, hfills, one_of_fills hc hfills⟩
  · have hnone : ∀ c ∈ codeTable, c.fills i = false := fun c hc =>
      Bool.eq_false_iff.mpr fun hfills => h ⟨c, hc, hfills⟩
    exact .inr ⟨hnone, one_of_none hnone⟩

/-- The bits behind the first code of an entry. -/
def behind (i len : Nat) : Nat := (i <<< len) &&& (1 <<< fastBits - 1)

/-- What the entry at `i` says, where it says anything: one symbol, and where its code is followed by
another one within the entry, that one too. -/
theorem fast_cases (i : Nat) :
    ((∀ c ∈ codeTable, c.fills i = false) ∧ fast i = ⟨0, 0, 0, 0⟩) ∨
      ∃ c ∈ codeTable, c.fills i = true ∧ (fast i = ⟨c.sym, 0, c.len, 0⟩ ∨
        ∃ c' ∈ codeTable, c'.fills (behind i c.len) = true ∧ c.len + c'.len ≤ fastBits ∧
          fast i = ⟨c.sym, c'.sym, c.len, c.len + c'.len⟩) := by
  rcases one_cases i with ⟨c, hc, hfills, hone⟩ | ⟨hnone, hone⟩
  · refine .inr ⟨c, hc, hfills, ?_⟩
    have hlen : c.len ≠ 0 := by
      have := (code_bounds hc).1
      omega
    rw [fast, hone]
    dsimp only
    rw [if_neg hlen]
    rcases one_cases (behind i c.len) with ⟨c', hc', hfills', hone'⟩ | ⟨-, hone'⟩
    · rw [show one ((i <<< c.len) &&& (1 <<< fastBits - 1)) = _ from hone']
      dsimp only
      have hlen' : c'.len ≠ 0 := by
        have := (code_bounds hc').1
        omega
      by_cases hfits : c.len + c'.len ≤ fastBits
      · right
        refine ⟨c', hc', hfills', hfits, ?_⟩
        rw [if_neg]
        simp only [Bool.or_eq_true, decide_eq_true_eq]
        omega
      · left
        rw [if_pos]
        simp only [Bool.or_eq_true, decide_eq_true_eq]
        omega
    · rw [show one ((i <<< c.len) &&& (1 <<< fastBits - 1)) = _ from hone']
      exact .inl rfl
  · refine .inl ⟨hnone, ?_⟩
    rw [fast, hone]
    rfl

end Nilo.Hpack
