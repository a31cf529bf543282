import Nilo.Std.Text

/-!
# SHA-256 (`std.crypto.hash.sha2.Sha256`)

The hash the snapshot and the migrations name texts by, over a whole text at once: FIPS 180-4,
with a word as a `UInt32`.
-/

namespace Nilo.Sha256

open Text (Bytes)

abbrev Word := UInt32

/-- The state between two blocks. -/
structure State where
  a : Word
  b : Word
  c : Word
  d : Word
  e : Word
  f : Word
  g : Word
  h : Word
deriving DecidableEq

def initial : State :=
  ⟨0x6a09e667, 0xbb67ae85, 0x3c6ef372, 0xa54ff53a, 0x510e527f, 0x9b05688c, 0x1f83d9ab, 0x5be0cd19⟩

def constants : List Word :=
  [0x428a2f98, 0x71374491, 0xb5c0fbcf, 0xe9b5dba5, 0x3956c25b, 0x59f111f1, 0x923f82a4, 0xab1c5ed5,
   0xd807aa98, 0x12835b01, 0x243185be, 0x550c7dc3, 0x72be5d74, 0x80deb1fe, 0x9bdc06a7, 0xc19bf174,
   0xe49b69c1, 0xefbe4786, 0x0fc19dc6, 0x240ca1cc, 0x2de92c6f, 0x4a7484aa, 0x5cb0a9dc, 0x76f988da,
   0x983e5152, 0xa831c66d, 0xb00327c8, 0xbf597fc7, 0xc6e00bf3, 0xd5a79147, 0x06ca6351, 0x14292967,
   0x27b70a85, 0x2e1b2138, 0x4d2c6dfc, 0x53380d13, 0x650a7354, 0x766a0abb, 0x81c2c92e, 0x92722c85,
   0xa2bfe8a1, 0xa81a664b, 0xc24b8b70, 0xc76c51a3, 0xd192e819, 0xd6990624, 0xf40e3585, 0x106aa070,
   0x19a4c116, 0x1e376c08, 0x2748774c, 0x34b0bcb5, 0x391c0cb3, 0x4ed8aa4a, 0x5b9cca4f, 0x682e6ff3,
   0x748f82ee, 0x78a5636f, 0x84c87814, 0x8cc70208, 0x90befffa, 0xa4506ceb, 0xbef9a3f7, 0xc67178f2]

def rotr (x : Word) (n : Word) : Word := (x >>> n) ||| (x <<< (32 - n))

/-- The next word of the schedule, from the sixteen before it. -/
def extend (w : List Word) : Word :=
  let s0 := rotr (w.getD 1 0) 7 ^^^ rotr (w.getD 1 0) 18 ^^^ (w.getD 1 0 >>> 3)
  let s1 := rotr (w.getD 14 0) 17 ^^^ rotr (w.getD 14 0) 19 ^^^ (w.getD 14 0 >>> 10)
  w.getD 0 0 + s0 + w.getD 9 0 + s1

def State.round (s : State) (k w : Word) : State :=
  let s1 := rotr s.e 6 ^^^ rotr s.e 11 ^^^ rotr s.e 25
  let ch := (s.e &&& s.f) ^^^ (~~~s.e &&& s.g)
  let t1 := s.h + s1 + ch + k + w
  let s0 := rotr s.a 2 ^^^ rotr s.a 13 ^^^ rotr s.a 22
  let maj := (s.a &&& s.b) ^^^ (s.a &&& s.c) ^^^ (s.b &&& s.c)
  ⟨t1 + s0 + maj, s.a, s.b, s.c, s.d + t1, s.e, s.f, s.g⟩

/-- The rounds, over a window of the schedule: the word of this one and the fifteen after it. -/
def State.rounds (s : State) (w : List Word) : List Word → State
  | [] => s
  | k :: ks => (s.round k (w.getD 0 0)).rounds (w.drop 1 ++ [extend w]) ks

def State.add (s t : State) : State :=
  ⟨s.a + t.a, s.b + t.b, s.c + t.c, s.d + t.d, s.e + t.e, s.f + t.f, s.g + t.g, s.h + t.h⟩

def wordOf (b : Bytes) : Word := b.foldl (fun x ch => x * 256 + ch.toUInt32) 0

def bytesOf (x : Word) : Bytes :=
  [(x >>> 24).toUInt8, (x >>> 16).toUInt8, (x >>> 8).toUInt8, x.toUInt8]

/-- A block's sixteen words. -/
def wordsOf : Nat → Bytes → List Word
  | 0, _ => []
  | n + 1, b => wordOf (b.take 4) :: wordsOf n (b.drop 4)

def blocks (s : State) : Nat → Bytes → State
  | 0, _ => s
  | n + 1, b => blocks (s.add (s.rounds (wordsOf 16 b) constants)) n (b.drop 64)

/-- The text, a one bit, noughts, and its length in bits in eight bytes. -/
def padded (text : Bytes) : Bytes :=
  text ++ 0x80 :: List.replicate ((119 - text.length % 64) % 64) 0 ++
    (List.range 8).map fun i => UInt8.ofNat (text.length * 8 / 256 ^ (7 - i))

def hash (text : Bytes) : Bytes :=
  let s := blocks initial ((padded text).length / 64) (padded text)
  bytesOf s.a ++ bytesOf s.b ++ bytesOf s.c ++ bytesOf s.d ++
    bytesOf s.e ++ bytesOf s.f ++ bytesOf s.g ++ bytesOf s.h

def hexDigit (n : UInt8) : UInt8 := if n < 10 then n + 48 else n + 87

/-- `{x}` of a list of bytes. -/
def hex (b : Bytes) : Bytes := b.flatMap fun ch => [hexDigit (ch / 16), hexDigit (ch % 16)]

theorem length_hash (text : Bytes) : (hash text).length = 32 := by
  simp [hash, bytesOf]

theorem length_hex (b : Bytes) : (hex b).length = 2 * b.length := by
  induction b with
  | nil => rfl
  | cons ch rest ih =>
    have h : hex (ch :: rest) = [hexDigit (ch / 16), hexDigit (ch % 16)] ++ hex rest := rfl
    rw [h, List.length_append, ih, List.length_cons]
    simp
    omega

example : (hex (hash (Text.ascii "abc"))).take 8 = Text.ascii "ba7816bf" := by decide +kernel

end Nilo.Sha256
