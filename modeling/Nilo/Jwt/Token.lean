import Nilo.Jwt.Keys
import Nilo.Std.Base64
import Nilo.Std.Sha256

/-!
# Reading a signed token (`jwt/token.zig`, `jwt/b64.zig`)

`verify` in the three parts the memo divides it in: what is decided before the signature is looked
at (`front`), the signature (`checkSignature`), and the claims (`back`). With no memo it is the
three in a row. `SignedBy` and `Fits` say what a token has to be for its claims to come back, and
`signedBy_of_front` and `current_of_back` that nothing less does.

The JSON reader is `std.json`'s, and is a parameter here.
-/

namespace Nilo.Jwt

open Text (Bytes ascii)

/-! ## What is read -/

structure Header where
  alg : Option Bytes
  kid : Option Bytes
deriving DecidableEq, Repr

/-- A JSON value, as far as `aud` is asked about one. -/
inductive Value where
  | string (s : Bytes)
  | array (items : List Value)
  /-- Null, a boolean, a number or an object. -/
  | other

structure Registered where
  iss : Option Bytes
  aud : Option Value
  exp : Option Int
  nbf : Option Int

/-- `std.json.parseFromSliceLeaky`, for the two structs of `verify` and for the caller's own. -/
structure Json (Claims : Type) where
  header : Bytes → Option Header
  registered : Bytes → Option Registered
  claims : Bytes → Option Claims

/-- What one registered claim has to be. -/
inductive Expect where
  | is (want : Bytes)
  | unchecked
deriving DecidableEq, Repr

/-- `Options` without the keys and the memo, which the calls of a history share. -/
structure Options where
  issuer : Expect
  audience : Expect
  nowS : Int
  leewayS : Nat
deriving DecidableEq, Repr

def knownAlgorithms : List Bytes := [ascii "RS256", ascii "ES256", ascii "ES384", ascii "EdDSA"]

def isKnown (alg : Bytes) : Bool := knownAlgorithms.any fun name => alg = name

def audienceCarries (aud : Option Value) (want : Bytes) : Bool :=
  match aud with
  | none => false
  | some (.string s) => s = want
  | some (.array items) => items.any fun item =>
    match item with
    | .string s => s = want
    | _ => false
  | some .other => false

/-- `b64.keep`: padding is accepted, the standard alphabet is not. -/
def keep (text : Bytes) : Option Bytes :=
  let trimmed := (text.reverse.dropWhile fun ch => ch = 61).reverse
  (Base64.urlSafe.calcSize trimmed).bind fun _ => Base64.urlSafe.decode trimmed

/-! ## `verify` -/

def dot : UInt8 := 46

/-- The token at its dots. -/
structure Segments where
  header : Bytes
  payload : Bytes
  sig : Bytes
  /-- The first two, with the dot between them. -/
  signed : Bytes
deriving DecidableEq, Repr

def segments (token : Bytes) : Option Segments :=
  (token.idxOf? dot).bind fun first =>
    let rest := token.drop (first + 1)
    (rest.idxOf? dot).bind fun second =>
      let sigText := rest.drop (second + 1)
      if first = 0 ∨ second = 0 ∨ sigText.length = 0 then none
      -- A fourth segment is JWE, which this does not read.
      else if dot ∈ sigText then none
      else some ⟨token.take first, rest.take second, sigText, token.take (first + 1 + second)⟩

/-- What is settled once the signature is the next thing to look at. -/
structure Front where
  key : Key
  signed : Bytes
  sig : Bytes
  payload : Bytes
deriving DecidableEq, Repr

variable {Claims : Type} (c : Crypto) (js : Json Claims)

/-- `orelse return error` -/
def need {α : Type} (e : Error) (found : Option α) : Except Error α :=
  match found with
  | some a => .ok a
  | none => .error e

/-- `if (p) return error` -/
def refuse (p : Prop) [Decidable p] (e : Error) : Except Error Unit :=
  if p then .error e else .ok ()

def front (keys : Keys) (token : Bytes) : Except Error Front := do
  let s ← need .notAToken (segments token)
  let headerBytes ← need .notAToken (keep s.header)
  let header ← need .notAToken (js.header headerBytes)
  -- Against the names known here, and before a key is looked up.
  let alg ← need .wrongAlgorithm header.alg
  refuse (isKnown alg = false) .wrongAlgorithm
  let key ← need .noSuchKey (keys.find header.kid)
  -- A curve with no branch is named, not left to look like a mismatch.
  refuse (key.curveSupported = false) .curveNotSupported
  refuse (alg ≠ key.algorithm) .wrongAlgorithm
  let sig ← need .notAToken (keep s.sig)
  .ok ⟨key, s.signed, sig, s.payload⟩

/-- `a + b` in `i64`: the sums here overflow only upwards. -/
def sum64 (a b : Int) : Except Error Int :=
  if a + b < 2 ^ 63 then .ok (a + b) else .error .overflow

def checkExp (opts : Options) (reg : Registered) : Except Error Unit := do
  let exp ← need .noExpiry reg.exp
  let last ← sum64 exp opts.leewayS
  refuse (opts.nowS > last) .expired

def checkNbf (opts : Options) (reg : Registered) : Except Error Unit :=
  match reg.nbf with
  | none => .ok ()
  | some nbf => do
    let latest ← sum64 opts.nowS opts.leewayS
    refuse (latest < nbf) .notYetValid

def checkIssuer (opts : Options) (reg : Registered) : Except Error Unit :=
  match opts.issuer with
  | .is want => do
    let iss ← need .wrongIssuer reg.iss
    refuse (iss ≠ want) .wrongIssuer
  | .unchecked => .ok ()

def checkAudience (opts : Options) (reg : Registered) : Except Error Unit :=
  match opts.audience with
  | .is want => refuse (audienceCarries reg.aud want = false) .wrongAudience
  | .unchecked => .ok ()

/-- Past the signature the bytes are the issuer's. -/
def back (opts : Options) (payload : Bytes) : Except Error Claims := do
  let payloadBytes ← need .notAToken (keep payload)
  let reg ← need .claimsNotReadable (js.registered payloadBytes)
  checkExp opts reg
  checkNbf opts reg
  checkIssuer opts reg
  checkAudience opts reg
  need .claimsNotReadable (js.claims payloadBytes)

/-- `verify` with no memo: every signature is checked. -/
def verify (keys : Keys) (opts : Options) (token : Bytes) : Except Error Claims := do
  let f ← front js keys token
  checkSignature c f.key.material f.signed f.sig
  back js opts f.payload

/-- `Memo.digestOf` -/
def digestOf (token : Bytes) : Bytes := Sha256.hash token

/-! ## What a token has to be -/

/-- The token is three segments, its header finds the key in the set and says the algorithm the key
answers to, and its signature is one of its first two segments under that key. -/
structure SignedBy (keys : Keys) (key : Key) (token : Bytes) : Prop where
  segments : ∃ s headerBytes header sig, segments token = some s ∧
    token = s.header ++ dot :: (s.payload ++ dot :: s.sig) ∧
    keep s.header = some headerBytes ∧ js.header headerBytes = some header ∧
    header.alg = some key.algorithm ∧ keys.find header.kid = some key ∧
    keep s.sig = some sig ∧
    Passes c (s.header ++ dot :: s.payload) sig key.algorithm key.material

/-- `aud` is the audience, or a list it is in. -/
def Carries (aud : Option Value) (want : Bytes) : Prop :=
  aud = some (.string want) ∨ ∃ items, aud = some (.array items) ∧ Value.string want ∈ items

/-- The claims of the payload pass as of now. -/
structure Fits (opts : Options) (reg : Registered) : Prop where
  exp : ∃ exp, reg.exp = some exp ∧ opts.nowS ≤ exp + opts.leewayS
  nbf : ∀ nbf, reg.nbf = some nbf → nbf ≤ opts.nowS + opts.leewayS
  issuer : ∀ want, opts.issuer = .is want → reg.iss = some want
  audience : ∀ want, opts.audience = .is want → Carries reg.aud want

/-- The payload of the token is read into these claims, and passes. -/
def Current (opts : Options) (token : Bytes) (claims : Claims) : Prop :=
  ∃ s payloadBytes reg, segments token = some s ∧ keep s.payload = some payloadBytes ∧
    js.registered payloadBytes = some reg ∧ Fits opts reg ∧ js.claims payloadBytes = some claims

variable {c js}
variable {keys : Keys} {opts : Options} {token : Bytes} {reg : Registered} {f : Front}

theorem audienceCarries_iff {aud : Option Value} {want : Bytes} :
    audienceCarries aud want = true ↔ Carries aud want := by
  rw [audienceCarries.eq_def]
  cases aud with
  | none => simp [Carries]
  | some value =>
    cases value with
    | string s => simp [Carries]
    | other => simp [Carries]
    | array items =>
      simp only [Carries, Option.some.injEq, reduceCtorEq, Value.array.injEq, exists_eq_left',
        false_or, List.any_eq_true]
      constructor
      · rintro ⟨item, hitem, heq⟩
        cases item with
        | string s =>
          obtain rfl : s = want := of_decide_eq_true heq
          exact hitem
        | array _ => cases heq
        | other => cases heq
      · intro hin
        exact ⟨.string want, hin, decide_eq_true rfl⟩

/-! ## The segments -/

/-- A list at the first place an element is. -/
theorem take_idxOf? {l : Bytes} {x : UInt8} {i : Nat} (h : l.idxOf? x = some i) :
    l = l.take i ++ x :: l.drop (i + 1) ∧ i < l.length := by
  rw [List.idxOf?, List.findIdx?_eq_some_iff_getElem] at h
  obtain ⟨hi, hx, _⟩ := h
  refine ⟨?_, hi⟩
  have heq : l[i] = x := eq_of_beq hx
  rw [← heq, ← List.drop_eq_getElem_cons hi, List.take_append_drop]

theorem segments_eq {s : Segments} (h : segments token = some s) :
    token = s.header ++ dot :: (s.payload ++ dot :: s.sig) ∧
      s.signed = s.header ++ dot :: s.payload := by
  rw [segments] at h
  obtain ⟨first, hfirst, h⟩ := Option.bind_eq_some_iff.mp h
  obtain ⟨second, hsecond, h⟩ := Option.bind_eq_some_iff.mp h
  dsimp only at hsecond h
  split_ifs at h
  obtain rfl := Option.some.inj h
  dsimp only
  obtain ⟨htoken, hlt⟩ := take_idxOf? hfirst
  obtain ⟨hrest, _⟩ := take_idxOf? hsecond
  refine ⟨?_, ?_⟩
  · rw [← hrest]
    exact htoken
  · have hlen : (token.take first).length = first := by
      rw [List.length_take]
      omega
    calc token.take (first + 1 + second)
        = (token.take first ++ dot :: token.drop (first + 1)).take (first + 1 + second) :=
          congrArg _ htoken
      _ = token.take first ++ (dot :: token.drop (first + 1)).take (second + 1) := by
        rw [List.take_append, hlen, List.take_of_length_le (by omega)]
        congr 2
        omega
      _ = token.take first ++ dot :: (token.drop (first + 1)).take second := by
        rw [List.take_succ_cons]

/-! ## The three parts -/

theorem bind_ok_iff {α β : Type} {x : Except Error α} {k : α → Except Error β} {b : β} :
    (x >>= k) = .ok b ↔ ∃ a, x = .ok a ∧ k a = .ok b := by
  cases x with
  | error e => exact ⟨fun h => (by cases h), fun ⟨_, h, _⟩ => (by cases h)⟩
  | ok a => exact ⟨fun h => ⟨a, rfl, h⟩, fun ⟨_, ha, h⟩ => (by cases ha; exact h)⟩

theorem need_ok_iff {α : Type} {e : Error} {found : Option α} {a : α} :
    need e found = .ok a ↔ found = some a := by
  cases found <;> simp [need]

theorem refuse_ok_iff {p : Prop} [Decidable p] {e : Error} {u : Unit} :
    refuse p e = .ok u ↔ ¬ p := by
  by_cases h : p <;> simp [refuse, h]

theorem sum64_ok {a b s : Int} (h : sum64 a b = .ok s) : s = a + b := by
  rw [sum64] at h
  split_ifs at h
  exact (Except.ok.inj h).symm

/-- What the front settles. -/
theorem front_ok (h : front js keys token = .ok f) : ∃ s headerBytes header,
    segments token = some s ∧ keep s.header = some headerBytes ∧
      js.header headerBytes = some header ∧ header.alg = some f.key.algorithm ∧
      keys.find header.kid = some f.key ∧ keep s.sig = some f.sig ∧ f.signed = s.signed ∧
      f.payload = s.payload := by
  simp only [front, bind_ok_iff, need_ok_iff, refuse_ok_iff, exists_and_left, exists_const] at h
  obtain ⟨s, hs, headerBytes, hb, header, hh, alg, halg, _, key, hkey, _, heq, sig, hsig, hf⟩ := h
  obtain rfl := Except.ok.inj hf
  obtain rfl := not_not.mp heq
  exact ⟨s, headerBytes, header, hs, hb, hh, halg, hkey, hsig, rfl, rfl⟩

theorem signedBy_of_front (h : front js keys token = .ok f)
    (hsig : checkSignature c f.key.material f.signed f.sig = .ok ()) :
    SignedBy c js keys f.key token := by
  obtain ⟨s, headerBytes, header, hs, hb, hh, halg, hkey, hkeep, hsigned, _⟩ := front_ok h
  obtain ⟨htoken, hfirst⟩ := segments_eq hs
  refine ⟨s, headerBytes, header, f.sig, hs, htoken, hb, hh, halg, hkey, hkeep, ?_⟩
  rw [← hfirst, ← hsigned]
  exact check_iff.mp hsig

theorem checkExp_ok {u : Unit} (h : checkExp opts reg = .ok u) :
    ∃ exp, reg.exp = some exp ∧ opts.nowS ≤ exp + opts.leewayS := by
  simp only [checkExp, bind_ok_iff, need_ok_iff, refuse_ok_iff] at h
  obtain ⟨exp, hexp, last, hsum, hnow⟩ := h
  obtain rfl := sum64_ok hsum
  exact ⟨exp, hexp, Int.not_lt.mp hnow⟩

theorem checkNbf_ok {u : Unit} (h : checkNbf opts reg = .ok u) :
    ∀ nbf, reg.nbf = some nbf → nbf ≤ opts.nowS + opts.leewayS := by
  intro nbf hnbf
  rw [checkNbf, hnbf] at h
  dsimp only at h
  rw [bind_ok_iff] at h
  obtain ⟨latest, hsum, hlate⟩ := h
  obtain rfl := sum64_ok hsum
  exact Int.not_lt.mp (refuse_ok_iff.mp hlate)

theorem checkIssuer_ok {u : Unit} (h : checkIssuer opts reg = .ok u) :
    ∀ want, opts.issuer = .is want → reg.iss = some want := by
  intro want hwant
  rw [checkIssuer, hwant] at h
  dsimp only at h
  simp only [bind_ok_iff, need_ok_iff, refuse_ok_iff] at h
  obtain ⟨iss, hiss, heq⟩ := h
  rw [hiss, not_not.mp heq]

theorem checkAudience_ok {u : Unit} (h : checkAudience opts reg = .ok u) :
    ∀ want, opts.audience = .is want → Carries reg.aud want := by
  intro want hwant
  rw [checkAudience, hwant] at h
  exact audienceCarries_iff.mp (eq_true_of_ne_false (refuse_ok_iff.mp h))

/-- The claims that come back are the payload's, and pass. -/
theorem back_ok {claims : Claims} {payload : Bytes} (h : back js opts payload = .ok claims) :
    ∃ payloadBytes reg, keep payload = some payloadBytes ∧
      js.registered payloadBytes = some reg ∧ Fits opts reg ∧
      js.claims payloadBytes = some claims := by
  simp only [back, bind_ok_iff, need_ok_iff] at h
  obtain ⟨bytes, hbytes, reg, hreg, _, hexp, _, hnbf, _, hiss, _, haud, hclaims⟩ := h
  exact ⟨bytes, reg, hbytes, hreg,
    ⟨checkExp_ok hexp, checkNbf_ok hnbf, checkIssuer_ok hiss, checkAudience_ok haud⟩, hclaims⟩

theorem current_of_back {claims : Claims} (h : front js keys token = .ok f)
    (hback : back js opts f.payload = .ok claims) : Current js opts token claims := by
  obtain ⟨s, _, _, hs, _, _, _, _, _, _, hpayload⟩ := front_ok h
  obtain ⟨bytes, reg, hbytes, hreg, hfits, hclaims⟩ := back_ok hback
  rw [hpayload] at hbytes
  exact ⟨s, bytes, reg, hs, hbytes, hreg, hfits, hclaims⟩

theorem verify_of_front_error {e : Error} (h : front js keys token = .error e) :
    verify c js keys opts token = .error e := by
  rw [verify, h]
  rfl

theorem verify_of_check_error {e : Error} (h : front js keys token = .ok f)
    (hsig : checkSignature c f.key.material f.signed f.sig = .error e) :
    verify c js keys opts token = .error e := by
  rw [verify, h]
  simp only [bind, Except.bind, hsig]

theorem verify_of_check (h : front js keys token = .ok f)
    (hsig : checkSignature c f.key.material f.signed f.sig = .ok ()) :
    verify c js keys opts token = back js opts f.payload := by
  rw [verify, h]
  simp only [bind, Except.bind, hsig]

end Nilo.Jwt
