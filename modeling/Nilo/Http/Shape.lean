import Nilo.Std.Mem

/-!
# What a session may hold (`http/session.zig`)

The types the compile-time checks accept, as data, with the values of each, and the two functions
that go between a value and its bytes. `encode` writes as many bytes for every value of a type
(`length_encode`), also for a null; `decode` reads as many and no more.

A value is `Raw`: the memory of one, where an enum's number need not be one of its tags. A value of
the program is `known`; what `std.mem.zeroes` leaves need not be. The difference matters in one
place: a null is written as the zeroes of its child and read back as a value of the child, and if
that is not `known` the session is refused (`decode_encode`).
-/

namespace Nilo.Session

open Text (Bytes ascii)
open Mem

/-! ## Types -/

inductive Layout where
  | auto
  /-- That of C. -/
  | foreign
  | packed
deriving DecidableEq, Repr

mutual

inductive Ty where
  | bool
  | int (name : Bytes) (bits : Nat)
  | float (bits : Nat)
  | enum (tag : Bytes) (bits : Nat) (values : List Int) (exhaustive : Bool)
  | optional (child : Ty)
  /-- `[len]u8` -/
  | array (len : Nat)
  | struct (layout : Layout) (fields : Fields)

inductive Fields where
  | nil
  | cons (name : Bytes) (type : Ty) (rest : Fields)

end

mutual

/-- The values of a type, as memory has them. -/
def Ty.Raw : Ty → Type
  | .bool => Bool
  | .int _ bits => BitVec bits
  | .float bits => BitVec bits
  | .enum _ bits _ _ => BitVec bits
  | .optional child => Option child.Raw
  | .array len => { b : Bytes // b.length = len }
  | .struct _ fields => fields.Raw

def Fields.Raw : Fields → Type
  | .nil => Unit
  | .cons _ type rest => type.Raw × rest.Raw

end

mutual

/-- `sizeOf` -/
def Ty.sizeOf : Ty → Nat
  | .bool => 1
  | .int _ bits => bits / 8
  | .float bits => bits / 8
  | .enum _ bits _ _ => bits / 8
  | .optional child => 1 + child.sizeOf
  | .array len => len
  | .struct _ fields => fields.sizeOf

def Fields.sizeOf : Fields → Nat
  | .nil => 0
  | .cons _ type rest => type.sizeOf + rest.sizeOf

end

mutual

/-- Whether `std.mem.zeroes` is a value of the type at compile time: not of an enum with no tag of
nought. A struct laid out as in C is set byte by byte, whatever is in it. -/
def Ty.zeroable : Ty → Bool
  | .enum _ _ values exhaustive => !exhaustive || values.contains 0
  | .struct .foreign _ => true
  | .struct _ fields => fields.zeroable
  | _ => true

def Fields.zeroable : Fields → Bool
  | .nil => true
  | .cons _ type rest => type.zeroable && rest.zeroable

end

mutual

/-- Whether a type compiles as part of a session. -/
def Ty.accepted : Ty → Bool
  | .bool => true
  | .int _ bits => bits % 8 == 0
  | .float bits => bits == 32 || bits == 64
  | .enum _ bits _ _ => bits % 8 == 0
  | .optional child => child.accepted && child.zeroable
  | .array _ => true
  | .struct _ fields => fields.accepted

def Fields.accepted : Fields → Bool
  | .nil => true
  | .cons _ type rest => type.accepted && rest.accepted

end

/-! ## The shape's number -/

def decimal (n : Int) : Bytes := ascii (toString n)

mutual

/-- What `describe` hashes. -/
def Ty.describe : Ty → Bytes
  | .bool => ascii "bool"
  | .int name _ => name
  | .float bits => ascii "f" ++ decimal bits
  -- The tag values, not the names.
  | .enum tag _ values _ =>
    ascii "enum(" ++ tag ++ values.flatMap (fun v => decimal v ++ ascii ";") ++ ascii ")"
  | .optional child => ascii "?" ++ child.describe
  | .array len => ascii "[" ++ decimal len ++ ascii "]u8"
  | .struct _ fields => 123 :: fields.describe ++ [125]

def Fields.describe : Fields → Bytes
  | .nil => []
  | .cons name type rest => name ++ ascii ":" ++ type.describe ++ ascii "," ++ rest.describe

end

/-- `std.hash.Fnv1a_32` -/
def fnv1a (b : Bytes) : UInt32 :=
  b.foldl (fun h ch => (h ^^^ ch.toUInt32) * 0x01000193) 0x811c9dc5

def Ty.fingerprint (t : Ty) : UInt32 := fnv1a t.describe

/-! ## The bytes -/

mutual

/-- `std.mem.zeroes` -/
def Ty.zeroes : (t : Ty) → t.Raw
  | .bool => false
  | .int _ bits => (0 : BitVec bits)
  | .float bits => (0 : BitVec bits)
  | .enum _ bits _ _ => (0 : BitVec bits)
  | .optional _ => none
  | .array len => ⟨List.replicate len 0, List.length_replicate⟩
  | .struct _ fields => fields.zeroes

def Fields.zeroes : (fs : Fields) → fs.Raw
  | .nil => ()
  | .cons _ type rest => (type.zeroes, rest.zeroes)

end

mutual

def Ty.encode : (t : Ty) → t.Raw → Bytes
  | .bool, v => [UInt8.ofNat (Bool.toNat v)]
  | .int _ bits, v => writeLe (bits / 8) (BitVec.toNat v)
  | .float bits, v => writeLe (bits / 8) (BitVec.toNat v)
  | .enum _ bits _ _, v => writeLe (bits / 8) (BitVec.toNat v)
  -- The payload slot is written either way.
  | .optional child, none => 0 :: child.encode child.zeroes
  | .optional child, some v => 1 :: child.encode v
  | .array _, v => v.val
  | .struct _ fields, v => fields.encode v

def Fields.encode : (fs : Fields) → fs.Raw → Bytes
  | .nil, _ => []
  | .cons _ type rest, v => type.encode v.1 ++ rest.encode v.2

end

inductive Unreadable where
  | badValue
  /-- A checked build stops: past the end of the bytes. -/
  | range
deriving DecidableEq, Repr

/-- `std.mem.readInt` off the front. -/
def readBits (bits : Nat) (b : Bytes) : Except Unreadable (BitVec bits × Nat) :=
  if b.length < bits / 8 then .error .range
  else .ok (BitVec.ofNat bits (readLe (b.take (bits / 8))), bits / 8)

/-- `std.enums.fromInt` -/
def isTag {bits : Nat} (values : List Int) (exhaustive : Bool) (v : BitVec bits) : Bool :=
  !exhaustive || values.any fun tag => BitVec.ofInt bits tag == v

mutual

def Ty.decode : (t : Ty) → Bytes → Except Unreadable (t.Raw × Nat)
  | .bool, b =>
    match b with
    | [] => .error .range
    | x :: _ => .ok (x != 0, 1)
  | .int _ bits, b => readBits bits b
  | .float bits, b => readBits bits b
  | .enum _ bits values exhaustive, b =>
    match readBits bits b with
    | .error e => .error e
    | .ok got => if isTag values exhaustive got.1 then .ok got else .error .badValue
  | .optional child, b =>
    match b with
    | [] => .error .range
    | x :: rest =>
      match child.decode rest with
      | .error e => .error e
      | .ok got => .ok (if x != 0 then some got.1 else none, 1 + got.2)
  | .array len, b =>
    if h : len ≤ b.length then .ok (⟨b.take len, by simp [h]⟩, len) else .error .range
  | .struct _ fields, b => fields.decode b

def Fields.decode : (fs : Fields) → Bytes → Except Unreadable (fs.Raw × Nat)
  | .nil, _ => .ok ((), 0)
  | .cons _ type rest, b =>
    match type.decode b with
    | .error e => .error e
    | .ok got =>
      match rest.decode (b.drop got.2) with
      | .error e => .error e
      | .ok more => .ok ((got.1, more.1), got.2 + more.2)

end

mutual

/-- Whether every enum in a value has one of its tags. -/
def Ty.known : (t : Ty) → t.Raw → Bool
  | .bool, _ => true
  | .int _ _, _ => true
  | .float _, _ => true
  | .enum _ bits values exhaustive, v => @isTag bits values exhaustive v
  | .optional _, none => true
  | .optional child, some v => child.known v
  | .array _, _ => true
  | .struct _ fields, v => fields.known v

def Fields.known : (fs : Fields) → fs.Raw → Bool
  | .nil, _ => true
  | .cons _ type rest, v => type.known v.1 && rest.known v.2

end

mutual

/-- The same of what is written for a value: for a null, of the zeroes of its child. -/
def Ty.readable : (t : Ty) → t.Raw → Bool
  | .bool, _ => true
  | .int _ _, _ => true
  | .float _, _ => true
  | .enum _ bits values exhaustive, v => @isTag bits values exhaustive v
  | .optional child, none => child.readable child.zeroes
  | .optional child, some v => child.readable v
  | .array _, _ => true
  | .struct _ fields, v => fields.readable v

def Fields.readable : (fs : Fields) → fs.Raw → Bool
  | .nil, _ => true
  | .cons _ type rest, v => type.readable v.1 && rest.readable v.2

end

/-! ## As many bytes for every value -/

mutual

theorem Ty.length_encode : (t : Ty) → (v : t.Raw) → (t.encode v).length = t.sizeOf
  | .bool, _ => rfl
  | .int _ _, _ => length_writeLe _ _
  | .float _, _ => length_writeLe _ _
  | .enum _ _ _ _, _ => length_writeLe _ _
  | .optional child, none => by
    rw [Ty.encode, Ty.sizeOf, List.length_cons, child.length_encode, Nat.add_comm]
  | .optional child, some v => by
    rw [Ty.encode, Ty.sizeOf, List.length_cons, child.length_encode, Nat.add_comm]
  | .array _, v => v.property
  | .struct _ fields, v => fields.length_encode v

theorem Fields.length_encode : (fs : Fields) → (v : fs.Raw) → (fs.encode v).length = fs.sizeOf
  | .nil, _ => rfl
  | .cons _ type rest, v => by
    rw [Fields.encode, Fields.sizeOf, List.length_append, type.length_encode, rest.length_encode]

end

/-! ## As many bytes are read, and no more -/

/-- A reader of `n` bytes: it goes by them alone, and stops at a bad value or takes all of them. -/
structure Reads {α : Type} (f : Bytes → Except Unreadable (α × Nat)) (n : Nat) : Prop where
  front : ∀ b rest, b.length = n → f (b ++ rest) = f b
  whole : ∀ b, n ≤ b.length → f b = .error .badValue ∨ ∃ v, f b = .ok (v, n)

theorem Reads.front_of_le {α : Type} {f : Bytes → Except Unreadable (α × Nat)} {n : Nat}
    (h : Reads f n) {b : Bytes} (hb : n ≤ b.length) : f b = f (b.take n) := by
  have hsplit := h.front (b.take n) (b.drop n) (by simp [hb])
  rw [List.take_append_drop] at hsplit
  exact hsplit

theorem reads_bits (bits : Nat) : Reads (readBits bits) (bits / 8) where
  front b rest hb := by
    rw [readBits, readBits, if_neg (by simp; omega), if_neg (by omega), ← hb, List.take_left,
      List.take_length]
  whole b hb := by
    rw [readBits, if_neg (by omega)]
    exact .inr ⟨_, rfl⟩

mutual

theorem Ty.reads : (t : Ty) → Reads t.decode t.sizeOf
  | .bool =>
    { front := fun b rest hb => by
        obtain ⟨x, rfl⟩ := List.length_eq_one_iff.mp hb
        rfl
      whole := fun b hb => by
        match b, hb with
        | [], hb => exact absurd hb (by simp [Ty.sizeOf])
        | x :: _, _ => exact .inr ⟨x != 0, rfl⟩ }
  | .int _ bits => reads_bits bits
  | .float bits => reads_bits bits
  | .enum tag bits values exhaustive =>
    { front := fun b rest hb => by
        rw [Ty.decode, Ty.decode, (reads_bits bits).front b rest hb]
      whole := fun b hb => by
        rw [Ty.decode]
        rcases (reads_bits bits).whole b hb with hbad | ⟨v, hv⟩
        · rw [hbad]
          exact .inl rfl
        · rw [hv]
          dsimp only
          split
          · exact .inr ⟨v, rfl⟩
          · exact .inl rfl }
  | .optional child =>
    { front := fun b rest hb => by
        match b, hb with
        | [], hb =>
          rw [Ty.sizeOf, List.length_nil] at hb
          omega
        | x :: b, hb =>
          have hlen : b.length = child.sizeOf := by
            rw [Ty.sizeOf, List.length_cons] at hb
            omega
          rw [List.cons_append, Ty.decode, Ty.decode, child.reads.front b rest hlen]
      whole := fun b hb => by
        match b, hb with
        | [], hb =>
          rw [Ty.sizeOf, List.length_nil] at hb
          omega
        | x :: b, hb =>
          have hlen : child.sizeOf ≤ b.length := by
            rw [Ty.sizeOf, List.length_cons] at hb
            omega
          rw [Ty.decode]
          rcases child.reads.whole b hlen with hbad | ⟨v, hv⟩
          · rw [hbad]
            exact .inl rfl
          · rw [hv]
            exact .inr ⟨_, rfl⟩ }
  | .array len =>
    { front := fun b rest hb => by
        have hb' : b.length = len := hb
        rw [Ty.decode, Ty.decode, dif_pos (by simp; omega), dif_pos (by omega)]
        simp [← hb']
      whole := fun b hb => by
        have hb' : len ≤ b.length := hb
        rw [Ty.decode, dif_pos hb']
        exact .inr ⟨_, rfl⟩ }
  | .struct _ fields => fields.reads

theorem Fields.reads : (fs : Fields) → Reads fs.decode fs.sizeOf
  | .nil =>
    { front := fun b rest hb => rfl
      whole := fun b hb => .inr ⟨(), rfl⟩ }
  | .cons name type rest =>
    { front := fun b more hb => by
        rw [Fields.sizeOf] at hb
        rw [Fields.decode, Fields.decode, type.reads.front_of_le (b := b ++ more) (by simp; omega),
          type.reads.front_of_le (b := b) (by omega), List.take_append_of_le_length (by omega)]
        rcases type.reads.whole (b.take type.sizeOf) (by simp; omega) with hbad | ⟨v, hv⟩
        · rw [hbad]
        · rw [hv]
          dsimp only
          rw [List.drop_append_of_le_length (by omega),
            rest.reads.front (b.drop type.sizeOf) more (by simp; omega)]
      whole := fun b hb => by
        rw [Fields.sizeOf] at hb
        rw [Fields.decode]
        rcases type.reads.whole b (by omega) with hbad | ⟨v, hv⟩
        · rw [hbad]
          exact .inl rfl
        · rw [hv]
          dsimp only
          rcases rest.reads.whole (b.drop type.sizeOf) (by simp; omega) with hbad | ⟨w, hw⟩
          · rw [hbad]
            exact .inl rfl
          · rw [hw]
            exact .inr ⟨(v, w), rfl⟩ }

end

/-! ## There and back -/

theorem readBits_writeLe {bits : Nat} (h : bits % 8 = 0) (v : BitVec bits) (rest : Bytes) :
    readBits bits (writeLe (bits / 8) v.toNat ++ rest) = .ok (v, bits / 8) := by
  have hlen : (writeLe (bits / 8) v.toNat).length = bits / 8 := length_writeLe _ _
  have hpow : 256 ^ (bits / 8) = 2 ^ bits := by
    rw [show 256 = 2 ^ 8 from rfl, ← pow_mul]
    congr 1
    omega
  rw [readBits, if_neg (by simp), List.take_left' hlen, readLe_writeLe, hpow,
    Nat.mod_eq_of_lt v.isLt, BitVec.ofNat_toNat, BitVec.setWidth_eq]

mutual

/-- What is written is read back, unless an enum of what is written has no such tag. -/
theorem Ty.decode_encode : (t : Ty) → t.accepted = true → (v : t.Raw) → (rest : Bytes) →
    t.decode (t.encode v ++ rest) =
      if t.readable v then .ok (v, t.sizeOf) else .error .badValue
  | .bool, _, v, rest => by
    rw [Ty.decode.eq_def]
    cases v <;> rfl
  | .int name bits, h, v, rest => by
    rw [Ty.readable, if_pos rfl, Ty.decode, Ty.encode]
    exact readBits_writeLe (by simpa [Ty.accepted] using h) v rest
  | .float bits, h, v, rest => by
    rw [Ty.readable, if_pos rfl, Ty.decode, Ty.encode]
    refine readBits_writeLe ?_ v rest
    have h' : bits = 32 ∨ bits = 64 := by simpa [Ty.accepted] using h
    omega
  | .enum tag bits values exhaustive, h, v, rest => by
    rw [Ty.decode, Ty.encode, readBits_writeLe (by simpa [Ty.accepted] using h) v rest,
      Ty.readable]
    rfl
  | .optional child, h, none, rest => by
    rw [Ty.accepted, Bool.and_eq_true] at h
    rw [Ty.encode, List.cons_append, Ty.decode, child.decode_encode h.1, Ty.readable, Ty.sizeOf]
    by_cases hr : child.readable child.zeroes = true
    · rw [if_pos hr, if_pos hr]
      rfl
    · rw [if_neg hr, if_neg hr]
  | .optional child, h, some v, rest => by
    rw [Ty.accepted, Bool.and_eq_true] at h
    rw [Ty.encode, List.cons_append, Ty.decode, child.decode_encode h.1, Ty.readable, Ty.sizeOf]
    by_cases hr : child.readable v = true
    · rw [if_pos hr, if_pos hr]
      rfl
    · rw [if_neg hr, if_neg hr]
  | .array len, _, v, rest => by
    rw [Ty.decode, Ty.encode, Ty.readable, if_pos rfl, dif_pos (by simp [v.property])]
    have hv : (⟨(v.val ++ rest).take len, by simp [v.property]⟩ : { b : Bytes // b.length = len }) =
        v := Subtype.ext (List.take_left' v.property)
    exact congrArg (fun x => Except.ok (x, len)) hv
  | .struct _ fields, h, v, rest => fields.decode_encode h v rest

theorem Fields.decode_encode : (fs : Fields) → fs.accepted = true → (v : fs.Raw) →
    (rest : Bytes) → fs.decode (fs.encode v ++ rest) =
      if fs.readable v then .ok (v, fs.sizeOf) else .error .badValue
  | .nil, _, _, _ => rfl
  | .cons name type more, h, v, rest => by
    rw [Fields.accepted, Bool.and_eq_true] at h
    rw [Fields.encode, List.append_assoc, Fields.decode, type.decode_encode h.1, Fields.readable]
    by_cases hv : type.readable v.1 = true
    · rw [if_pos hv, hv, Bool.true_and]
      dsimp only
      rw [List.drop_left' (type.length_encode v.1), more.decode_encode h.2]
      by_cases hw : more.readable v.2 = true
      · rw [if_pos hw, if_pos hw]
        rfl
      · rw [if_neg hw, if_neg hw]
    · rw [if_neg hv, eq_false_of_ne_true hv]
      rfl

end

end Nilo.Session
