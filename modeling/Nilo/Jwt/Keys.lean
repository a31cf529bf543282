import Nilo.Std.Text

/-!
# Keys and signatures (`jwt/jwks.zig`, `jwt/rs256.zig`, `es256.zig`, `es384.zig`, `eddsa.zig`)

The key decides how a token is checked: its type, and its curve for all but RSA. Which algorithm a
key answers to is told by a table, which arithmetic runs is told by a switch, and each arithmetic
asks the curve once more. `Passes` is the one statement the three have to agree on, and
`check_iff` that they do.

The arithmetic itself is `std.crypto`'s, and is a parameter here.
-/

namespace Nilo.Jwt

open Text (Bytes ascii)

structure Rsa where
  /-- The exponent, big-endian. -/
  e : Bytes
  /-- The modulus, big-endian. -/
  n : Bytes
deriving DecidableEq, Repr

structure Ec where
  crv : Bytes
  x : Bytes
  y : Bytes
deriving DecidableEq, Repr

structure Okp where
  crv : Bytes
  x : Bytes
deriving DecidableEq, Repr

/-- What the key is made of, and so which algorithm a token signed with it has to have used. -/
inductive Material where
  | rsa (key : Rsa)
  | ec (key : Ec)
  | okp (key : Okp)
deriving DecidableEq, Repr

structure Key where
  kid : Bytes
  material : Material
deriving DecidableEq, Repr

/-! ## Which algorithm a key answers to -/

structure Supported where
  kty : Bytes
  crv : Bytes
  alg : Bytes

/-- The curves that have a branch. -/
def supported : List Supported :=
  [⟨ascii "EC", ascii "P-256", ascii "ES256"⟩, ⟨ascii "EC", ascii "P-384", ascii "ES384"⟩,
    ⟨ascii "OKP", ascii "Ed25519", ascii "EdDSA"⟩]

def curveAlgorithm (kty crv : Bytes) : Bytes :=
  match supported.find? fun s => s.kty = kty ∧ s.crv = crv with
  | some s => s.alg
  | none => []

namespace Key

/-- The `alg` a token signed with this key has to say. -/
def algorithm (self : Key) : Bytes :=
  match self.material with
  | .rsa _ => ascii "RS256"
  | .ec ec => curveAlgorithm (ascii "EC") ec.crv
  | .okp okp => curveAlgorithm (ascii "OKP") okp.crv

def curveSupported (self : Key) : Bool :=
  match self.material with
  | .rsa _ => true
  | .ec _ | .okp _ => self.algorithm.length != 0

end Key

/-- The keys of one document. -/
structure Keys where
  all : List Key
deriving DecidableEq, Repr

/-- The key a token's `kid` names; a set with exactly one key answers for no `kid` at all. -/
def Keys.find (self : Keys) (kid : Option Bytes) : Option Key :=
  match kid with
  | some want => self.all.find? fun key => key.kid = want
  | none => if self.all.length = 1 then self.all[0]? else none

theorem Keys.find_mem {self : Keys} {kid : Option Bytes} {key : Key} (h : self.find kid = some key) :
    key ∈ self.all := by
  cases kid with
  | some want => exact List.mem_of_find?_eq_some h
  | none =>
    rw [Keys.find] at h
    split at h
    · exact List.mem_of_getElem? h
    · cases h

/-- Every error of `verify` but `OutOfMemory`. -/
inductive Error where
  | notAToken
  | wrongAlgorithm
  | noSuchKey
  | noExpiry
  | expired
  | notYetValid
  | wrongIssuer
  | wrongAudience
  | claimsNotReadable
  | keySizeNotSupported
  | signatureWrongLength
  | keyNotUsable
  | badSignature
  | curveNotSupported
  /-- A checked build stops: a sum is past `i64`. -/
  | overflow
deriving DecidableEq, Repr

/-! ## The arithmetic -/

inductive Curve where
  | p256
  | p384
deriving DecidableEq, Repr

/-- How `rsa.PKCS1v1_5Signature.verify` ends. -/
inductive RsaAnswer where
  | valid
  | invalidSignature
  | messageTooLong
deriving DecidableEq, Repr

/-- What `std.crypto` answers: which bytes are a key, and which signature is one of which text. -/
structure Crypto where
  /-- `rsa.PublicKey.fromBytes` -/
  rsaKey : (e n : Bytes) → Bool
  /-- `rsa.PKCS1v1_5Signature.verify` with SHA-256 -/
  rsaVerify : (signed sig e n : Bytes) → RsaAnswer
  /-- `Ecdsa.PublicKey.fromSec1` -/
  point : Curve → (sec1 : Bytes) → Bool
  /-- `Ecdsa.Signature.verify` -/
  ecdsaVerify : Curve → (signed sig sec1 : Bytes) → Bool
  /-- `Ed25519.PublicKey.fromBytes` -/
  edKey : (x : Bytes) → Bool
  /-- `Ed25519.Signature.verify` -/
  edVerify : (signed sig x : Bytes) → Bool

variable (c : Crypto)

namespace Rs256

/-- The sizes that get a branch. -/
def sizes : List Nat := [256, 384, 512]

def verify (signed sig e n : Bytes) : Except Error Unit :=
  if c.rsaKey e n then
    if sig.length ∈ sizes then
      if n.length < sig.length then .error .keyNotUsable
      else
        match c.rsaVerify signed sig e n with
        | .valid => .ok ()
        | .invalidSignature => .error .badSignature
        | .messageTooLong => .error .keyNotUsable
    -- A key with no branch, or a signature that is not the length of its key.
    else if sizes.any fun len => n.length = len ∨ n.length = len + 1 then
      .error .signatureWrongLength
    else .error .keySizeNotSupported
  else .error .keyNotUsable

end Rs256

/-- SEC1 uncompressed: `0x04`, then `x`, then `y`. -/
def sec1 (x y : Bytes) : Bytes := 4 :: x ++ y

/-- ECDSA over one curve, with a signature that is raw `r || s`. -/
def ecdsa (curve : Curve) (name : Bytes) (coordinateLen : Nat) (signed sig crv x y : Bytes) :
    Except Error Unit :=
  if crv ≠ name then .error .curveNotSupported
  else if x.length ≠ coordinateLen ∨ y.length ≠ coordinateLen then .error .keyNotUsable
  else if sig.length ≠ 2 * coordinateLen then .error .signatureWrongLength
  else if c.point curve (sec1 x y) = false then .error .keyNotUsable
  else if c.ecdsaVerify curve signed sig (sec1 x y) then .ok ()
  else .error .badSignature

def Es256.curve : Bytes := ascii "P-256"

def Es256.verify (signed sig crv x y : Bytes) : Except Error Unit :=
  ecdsa c .p256 Es256.curve 32 signed sig crv x y

def Es384.curve : Bytes := ascii "P-384"

def Es384.verify (signed sig crv x y : Bytes) : Except Error Unit :=
  ecdsa c .p384 Es384.curve 48 signed sig crv x y

def Eddsa.curve : Bytes := ascii "Ed25519"

def Eddsa.verify (signed sig crv x : Bytes) : Except Error Unit :=
  if crv ≠ Eddsa.curve then .error .curveNotSupported
  else if x.length ≠ 32 then .error .keyNotUsable
  else if sig.length ≠ 64 then .error .signatureWrongLength
  else if c.edKey x = false then .error .keyNotUsable
  else if c.edVerify signed sig x then .ok ()
  else .error .badSignature

/-- The switch of `verify`: the key's material picks the arithmetic. -/
def checkSignature (material : Material) (signed sig : Bytes) : Except Error Unit :=
  match material with
  | .rsa rsa => Rs256.verify c signed sig rsa.e rsa.n
  | .ec ec =>
    if ec.crv = Es384.curve then Es384.verify c signed sig ec.crv ec.x ec.y
    else Es256.verify c signed sig ec.crv ec.x ec.y
  | .okp okp => Eddsa.verify c signed sig okp.crv okp.x

/-! ## A signature of an algorithm, under a key -/

/-- The coordinates are a point of the curve, and the signature is one of the text under it. -/
structure EcdsaPasses (curve : Curve) (len : Nat) (signed sig x y : Bytes) : Prop where
  x_length : x.length = len
  y_length : y.length = len
  sig_length : sig.length = 2 * len
  point : c.point curve (sec1 x y) = true
  verify : c.ecdsaVerify curve signed sig (sec1 x y) = true

/-- `sig` is a signature of `signed` that the algorithm `alg` makes with this key. -/
inductive Passes (signed sig : Bytes) : (alg : Bytes) → Material → Prop where
  | rs256 {rsa : Rsa} (hkey : c.rsaKey rsa.e rsa.n = true) (hlen : sig.length ∈ Rs256.sizes)
      (hn : sig.length ≤ rsa.n.length) (hsig : c.rsaVerify signed sig rsa.e rsa.n = .valid) :
      Passes signed sig (ascii "RS256") (.rsa rsa)
  | es256 {ec : Ec} (hcrv : ec.crv = ascii "P-256")
      (hsig : EcdsaPasses c .p256 32 signed sig ec.x ec.y) :
      Passes signed sig (ascii "ES256") (.ec ec)
  | es384 {ec : Ec} (hcrv : ec.crv = ascii "P-384")
      (hsig : EcdsaPasses c .p384 48 signed sig ec.x ec.y) :
      Passes signed sig (ascii "ES384") (.ec ec)
  | eddsa {okp : Okp} (hcrv : okp.crv = ascii "Ed25519") (hx : okp.x.length = 32)
      (hlen : sig.length = 64) (hkey : c.edKey okp.x = true)
      (hsig : c.edVerify signed sig okp.x = true) :
      Passes signed sig (ascii "EdDSA") (.okp okp)

variable {c}
variable {signed sig : Bytes}

theorem rs256_iff {e n : Bytes} : Rs256.verify c signed sig e n = .ok () ↔
    c.rsaKey e n = true ∧ sig.length ∈ Rs256.sizes ∧ sig.length ≤ n.length ∧
      c.rsaVerify signed sig e n = .valid := by
  rw [Rs256.verify]
  by_cases hkey : c.rsaKey e n = true
  · rw [if_pos hkey]
    by_cases hlen : sig.length ∈ Rs256.sizes
    · rw [if_pos hlen]
      by_cases hn : n.length < sig.length
      · simp [hn, Nat.not_le_of_lt hn]
      · rw [if_neg hn]
        cases hsig : c.rsaVerify signed sig e n <;> simp [hkey, hlen, Nat.le_of_not_lt hn]
    · rw [if_neg hlen]
      split <;> simp [hlen]
  · simp [hkey]

theorem ecdsa_iff {curve : Curve} {name crv x y : Bytes} {len : Nat} :
    ecdsa c curve name len signed sig crv x y = .ok () ↔
      crv = name ∧ EcdsaPasses c curve len signed sig x y := by
  rw [ecdsa]
  constructor
  · intro h
    split_ifs at h with hcrv hxy hsig hpoint hver
    obtain ⟨hx, hy⟩ := not_or.mp hxy
    exact ⟨not_not.mp hcrv, not_not.mp hx, not_not.mp hy, not_not.mp hsig,
      eq_true_of_ne_false hpoint, hver⟩
  · rintro ⟨rfl, h⟩
    simp [h.x_length, h.y_length, h.sig_length, h.point, h.verify]

theorem eddsa_iff {crv x : Bytes} : Eddsa.verify c signed sig crv x = .ok () ↔
    crv = Eddsa.curve ∧ x.length = 32 ∧ sig.length = 64 ∧ c.edKey x = true ∧
      c.edVerify signed sig x = true := by
  rw [Eddsa.verify]
  constructor
  · intro h
    split_ifs at h with hcrv hx hsig hkey hver
    exact ⟨not_not.mp hcrv, not_not.mp hx, not_not.mp hsig,
      eq_true_of_ne_false hkey, hver⟩
  · rintro ⟨rfl, hx, hsig, hkey, hver⟩
    simp [hx, hsig, hkey, hver]

theorem curveAlgorithm_p256 : curveAlgorithm (ascii "EC") (ascii "P-256") = ascii "ES256" := by
  decide

theorem curveAlgorithm_p384 : curveAlgorithm (ascii "EC") (ascii "P-384") = ascii "ES384" := by
  decide

theorem curveAlgorithm_ed25519 :
    curveAlgorithm (ascii "OKP") (ascii "Ed25519") = ascii "EdDSA" := by
  decide

/-- What the switch runs is what the table says the key answers to. -/
theorem check_iff {key : Key} : checkSignature c key.material signed sig = .ok () ↔
    Passes c signed sig key.algorithm key.material := by
  obtain ⟨kid, material⟩ := key
  cases material with
  | rsa rsa =>
    rw [checkSignature, rs256_iff]
    refine ⟨fun ⟨hkey, hlen, hn, hsig⟩ => .rs256 hkey hlen hn hsig, fun h => ?_⟩
    cases h with
    | rs256 hkey hlen hn hsig => exact ⟨hkey, hlen, hn, hsig⟩
  | ec ec =>
    obtain ⟨crv, x, y⟩ := ec
    dsimp only [checkSignature, Key.algorithm]
    split
    · rename_i hcrv
      obtain rfl : crv = ascii "P-384" := hcrv
      rw [Es384.verify, ecdsa_iff, curveAlgorithm_p384]
      refine ⟨fun ⟨_, hsig⟩ => .es384 rfl hsig, fun h => ?_⟩
      generalize halg : ascii "ES384" = alg at h
      cases h with
      | es384 _ hsig => exact ⟨rfl, hsig⟩
      | es256 => exact absurd halg (by decide)
    · rename_i hcrv
      rw [Es256.verify, ecdsa_iff]
      constructor
      · rintro ⟨heq, hsig⟩
        obtain rfl : crv = ascii "P-256" := heq
        rw [curveAlgorithm_p256]
        exact .es256 rfl hsig
      · intro h
        generalize curveAlgorithm (ascii "EC") crv = alg at h
        cases h with
        | es384 heq => exact absurd heq hcrv
        | es256 heq hsig => exact ⟨heq, hsig⟩
  | okp okp =>
    obtain ⟨crv, x⟩ := okp
    dsimp only [checkSignature, Key.algorithm]
    rw [eddsa_iff]
    constructor
    · rintro ⟨heq, hx, hlen, hkey, hsig⟩
      obtain rfl : crv = ascii "Ed25519" := heq
      rw [curveAlgorithm_ed25519]
      exact .eddsa rfl hx hlen hkey hsig
    · intro h
      generalize curveAlgorithm (ascii "OKP") crv = alg at h
      cases h with
      | eddsa hcrv hx hlen hkey hsig => exact ⟨hcrv, hx, hlen, hkey, hsig⟩

end Nilo.Jwt
