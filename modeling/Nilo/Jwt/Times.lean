import Nilo.Jwt.Gate

/-!
# The times of a token (`verify` in `jwt/token.zig`)

`exp` and `nbf` are whatever the issuer signed. `verify` adds the leeway to `exp`, in `i64`, before
it compares: for an `exp` nearer to the end of `i64` than the leeway the sum is not in `i64`, and a
token that is good for all time stops the process (`not_timed_never`). Below that the checks decide
what the whole numbers say (`verify_timed_iff`).
-/

namespace Nilo.Jwt

open Text (Bytes ascii)

/-! ## What is promised -/

/-- The errors of the checks of `exp` and `nbf`. -/
def Error.ofTime : Error → Bool
  | .noExpiry | .expired | .notYetValid | .overflow => true
  | _ => false

variable {Claims : Type}

/-- What `verify` came to is not from the time checks. -/
def PastTimes (result : Except Error Claims) : Prop := ∀ e, result = .error e → e.ofTime = false

/-- Now is in the token's time, as whole numbers. -/
def InTime (opts : Options) (exp : Int) (nbf : Option Int) : Prop :=
  opts.nowS ≤ exp + opts.leewayS ∧ ∀ t, nbf = some t → t ≤ opts.nowS + opts.leewayS

/-- The time checks decide what the whole numbers say, and no sum leaves `i64`. -/
structure Timed (opts : Options) (exp : Int) (nbf : Option Int) (result : Except Error Claims) :
    Prop where
  decides : PastTimes result ↔ InTime opts exp nbf
  whole : result ≠ .error .overflow

/-- `i64` -/
def InI64 (n : Int) : Prop := -2 ^ 63 ≤ n ∧ n < 2 ^ 63

/-! ## Errors -/

theorem bind_error_iff {α β : Type} {x : Except Error α} {k : α → Except Error β} {e : Error} :
    (x >>= k) = .error e ↔ x = .error e ∨ ∃ a, x = .ok a ∧ k a = .error e := by
  cases x with
  | error e' =>
    constructor
    · intro h
      cases h
      exact .inl rfl
    · rintro (h | ⟨a, h, -⟩)
      · cases h
        rfl
      · cases h
  | ok a =>
    constructor
    · intro h
      exact .inr ⟨a, rfl, h⟩
    · rintro (h | ⟨b, h, hk⟩)
      · cases h
      · cases h
        exact hk

theorem need_error {α : Type} {e e' : Error} {found : Option α} (h : need e found = .error e') :
    e' = e := by
  cases found with
  | none =>
    cases h
    rfl
  | some a => cases h

theorem refuse_error {p : Prop} [Decidable p] {e e' : Error} (h : refuse p e = .error e') :
    e' = e := by
  rw [refuse] at h
  split_ifs at h
  cases h
  rfl

variable {opts : Options} {reg : Registered} {e : Error}

theorem checkIssuer_error (h : checkIssuer opts reg = .error e) : e = .wrongIssuer := by
  cases hissuer : opts.issuer with
  | unchecked =>
    rw [checkIssuer, hissuer] at h
    cases h
  | is want =>
    rw [checkIssuer, hissuer] at h
    rcases bind_error_iff.mp h with h | ⟨_, _, h⟩
    · exact need_error h
    · exact refuse_error h

theorem checkAudience_error (h : checkAudience opts reg = .error e) : e = .wrongAudience := by
  cases haudience : opts.audience with
  | unchecked =>
    rw [checkAudience, haudience] at h
    cases h
  | is want =>
    rw [checkAudience, haudience] at h
    exact refuse_error h

/-- What is left of `back` behind the time checks. -/
def behindTimes (js : Json Claims) (opts : Options) (reg : Registered) (payloadBytes : Bytes) :
    Except Error Claims := do
  checkIssuer opts reg
  checkAudience opts reg
  need .claimsNotReadable (js.claims payloadBytes)

theorem pastTimes_behindTimes (js : Json Claims) (opts : Options) (reg : Registered)
    (payloadBytes : Bytes) : PastTimes (behindTimes js opts reg payloadBytes) := by
  intro e h
  rw [behindTimes] at h
  rcases bind_error_iff.mp h with h | ⟨_, _, h⟩
  · rw [checkIssuer_error h]
    rfl
  rcases bind_error_iff.mp h with h | ⟨_, _, h⟩
  · rw [checkAudience_error h]
    rfl
  · rw [need_error h]
    rfl

/-! ## The checks -/

theorem checkExp_eq {exp : Int} (hexp : reg.exp = some exp) :
    checkExp opts reg =
      if exp + opts.leewayS < 2 ^ 63 then refuse (opts.nowS > exp + opts.leewayS) .expired
      else .error .overflow := by
  rw [checkExp, hexp]
  show (sum64 exp opts.leewayS >>= fun last => refuse (opts.nowS > last) .expired) = _
  rw [sum64]
  split_ifs <;> rfl

theorem checkNbf_none (hnbf : reg.nbf = none) : checkNbf opts reg = .ok () := by
  rw [checkNbf, hnbf]

theorem checkNbf_some {t : Int} (hnbf : reg.nbf = some t)
    (hlatest : opts.nowS + opts.leewayS < 2 ^ 63) :
    checkNbf opts reg = refuse (opts.nowS + opts.leewayS < t) .notYetValid := by
  rw [checkNbf, hnbf]
  show (sum64 opts.nowS opts.leewayS >>= fun latest => refuse (latest < t) .notYetValid) = _
  rw [sum64, if_pos hlatest]
  rfl

variable {js : Json Claims} {payload payloadBytes : Bytes} {exp : Int}

theorem back_eq (hpayload : keep payload = some payloadBytes)
    (hreg : js.registered payloadBytes = some reg) :
    back js opts payload = (checkExp opts reg >>= fun _ => checkNbf opts reg >>= fun _ =>
      behindTimes js opts reg payloadBytes) := by
  rw [back, hpayload]
  show (need .claimsNotReadable (js.registered payloadBytes) >>= _) = _
  rw [hreg]
  rfl

/-- A result of the time checks, and whether now was in the token's time. -/
theorem Timed.of_refused {e : Error} (hout : ¬ InTime opts exp reg.nbf) (he : e.ofTime = true)
    (hwhole : e ≠ .overflow) : Timed opts exp reg.nbf (.error e : Except Error Claims) := by
  refine ⟨iff_of_false (fun hpast => ?_) hout, fun h => hwhole (Except.error.inj h)⟩
  rw [hpast e rfl] at he
  cases he

theorem Timed.of_past {result : Except Error Claims} (hin : InTime opts exp reg.nbf)
    (hpast : PastTimes result) : Timed opts exp reg.nbf result := by
  refine ⟨iff_of_true hpast hin, fun h => ?_⟩
  have htime := hpast .overflow h
  cases htime

theorem back_timed_iff (hpayload : keep payload = some payloadBytes)
    (hreg : js.registered payloadBytes = some reg) (hexp : reg.exp = some exp)
    (hnow : opts.nowS ≤ 2 ^ 62) (hleeway : opts.leewayS < 2 ^ 32) :
    Timed opts exp reg.nbf (back js opts payload) ↔ exp + opts.leewayS < 2 ^ 63 := by
  have hlatest : opts.nowS + opts.leewayS < 2 ^ 63 := by omega
  rw [back_eq hpayload hreg, checkExp_eq hexp]
  by_cases hsum : exp + opts.leewayS < 2 ^ 63
  · rw [if_pos hsum]
    refine iff_of_true ?_ hsum
    by_cases hexpired : opts.nowS > exp + opts.leewayS
    · rw [refuse, if_pos hexpired]
      exact .of_refused (fun hin => Int.not_lt.mpr hin.1 hexpired) rfl (by decide)
    rw [refuse, if_neg hexpired]
    show Timed opts exp reg.nbf (checkNbf opts reg >>= fun _ =>
      behindTimes js opts reg payloadBytes)
    have hpast := pastTimes_behindTimes js opts reg payloadBytes
    cases hnbf : reg.nbf with
    | none =>
      rw [checkNbf_none hnbf, ← hnbf]
      refine .of_past ⟨Int.not_lt.mp hexpired, fun t ht => ?_⟩ hpast
      rw [hnbf] at ht
      cases ht
    | some t =>
      rw [checkNbf_some hnbf hlatest, ← hnbf]
      by_cases hearly : opts.nowS + opts.leewayS < t
      · rw [refuse, if_pos hearly]
        exact .of_refused (fun hin => Int.not_lt.mpr (hin.2 t hnbf) hearly) rfl (by decide)
      · rw [refuse, if_neg hearly]
        refine .of_past ⟨Int.not_lt.mp hexpired, fun t' ht' => ?_⟩ hpast
        rw [hnbf] at ht'
        cases ht'
        exact Int.not_lt.mp hearly
  · rw [if_neg hsum]
    exact iff_of_false (fun htimed => htimed.whole rfl) hsum

/-! ## Every token -/

variable {c : Crypto} {keys : Keys} {token : Bytes} {f : Front}

/-- For a token whose signature is valid, the time checks of `verify` decide what the whole numbers
say, and no sum leaves `i64`, just when `exp` and the leeway together are in `i64`. -/
theorem verify_timed_iff (hfront : front js keys token = .ok f)
    (hsig : checkSignature c f.key.material f.signed f.sig = .ok ())
    (hpayload : keep f.payload = some payloadBytes)
    (hreg : js.registered payloadBytes = some reg) (hexp : reg.exp = some exp)
    (hnow : opts.nowS ≤ 2 ^ 62) (hleeway : opts.leewayS < 2 ^ 32) :
    Timed opts exp reg.nbf (verify c js keys opts token) ↔ exp + opts.leewayS < 2 ^ 63 := by
  rw [verify_of_check hfront hsig]
  exact back_timed_iff hpayload hreg hexp hnow hleeway

/-- A payload that never expires: `exp` is the last number of `i64`. -/
def neverPayload : Bytes := ascii "eyJleHAiOjkyMjMzNzIwMzY4NTQ3NzU4MDd9"

/-- The signature of the example's key over it. -/
def neverSignature : Bytes :=
  ascii "RoJtdxskF06WNSGG1-2HNGqv05G0N8RbP3ehIxp9_yjoySJzVnU8GJS6mCeNfU8n-YeRNy07NZZgqcg5KirFaw"

def neverToken : Bytes := exampleHeader ++ dot :: (neverPayload ++ dot :: neverSignature)

theorem neverPayload_eq : neverPayload =
    [101, 121, 74, 108, 101, 72, 65, 105, 79, 106, 107, 121, 77, 106, 77, 122, 78, 122, 73, 119, 77,
      122, 89, 52, 78, 84, 81, 51, 78, 122, 85, 52, 77, 68, 100, 57] :=
  Text.ascii_ofList _

theorem neverSignature_eq : neverSignature =
    [82, 111, 74, 116, 100, 120, 115, 107, 70, 48, 54, 87, 78, 83, 71, 71, 49, 45, 50, 72, 78, 71,
      113, 118, 48, 53, 71, 48, 78, 56, 82, 98, 80, 51, 101, 104, 73, 120, 112, 57, 95, 121, 106,
      111, 121, 83, 74, 122, 86, 110, 85, 56, 71, 74, 83, 54, 109, 67, 101, 78, 102, 85, 56, 110,
      45, 89, 101, 82, 78, 121, 48, 55, 78, 90, 90, 103, 113, 99, 103, 53, 75, 105, 114, 70, 97,
      119] :=
  Text.ascii_ofList _

/-- `std.crypto` on this token. -/
def neverCrypto : Crypto :=
  { exampleCrypto with
    ecdsaVerify := fun _ signed sig bytes => signed = exampleHeader ++ dot :: neverPayload ∧
      some sig = keep neverSignature ∧ bytes = sec1 exampleX exampleY }

def neverReg : Registered := ⟨none, none, some (2 ^ 63 - 1), none⟩

/-- `std.json` on this token. -/
def neverJson : Json Unit :=
  { exampleJson with
    registered := fun bytes => if some bytes = keep neverPayload then some neverReg else none
    claims := fun bytes => if some bytes = keep neverPayload then some () else none }

def neverFront : Front where
  key := ⟨[], .ec ⟨ascii "P-256", exampleX, exampleY⟩⟩
  signed := exampleHeader ++ dot :: neverPayload
  sig := (keep neverSignature).getD []
  payload := neverPayload

theorem neverToken_signed : front neverJson exampleKeys neverToken = .ok neverFront ∧
    checkSignature neverCrypto neverFront.key.material neverFront.signed neverFront.sig =
      .ok () := by
  obtain ⟨hx, hy, hotherX, hotherY⟩ := examplePoints_eq
  simp only [exampleKeys, hx, hy, hotherX, hotherY, neverCrypto, neverJson, exampleCrypto,
    exampleJson, neverToken, neverFront, exampleHeader_eq, neverPayload_eq, neverSignature_eq]
  decide +kernel

theorem neverToken_payload : ∃ payloadBytes, keep neverFront.payload = some payloadBytes ∧
    neverJson.registered payloadBytes = some neverReg := by
  cases hkeep : keep neverPayload with
  | none =>
    rw [neverPayload_eq] at hkeep
    exact absurd hkeep (by decide)
  | some payloadBytes => exact ⟨payloadBytes, hkeep, if_pos hkeep.symm⟩

/-- With no leeway the token is read for what it says. -/
theorem verify_timed_never : Timed ⟨.unchecked, .unchecked, 1700000000, 0⟩ (2 ^ 63 - 1) none
    (verify neverCrypto neverJson exampleKeys ⟨.unchecked, .unchecked, 1700000000, 0⟩
      neverToken) := by
  obtain ⟨hfront, hsig⟩ := neverToken_signed
  obtain ⟨payloadBytes, hpayload, hreg⟩ := neverToken_payload
  exact (verify_timed_iff hfront hsig hpayload hreg rfl (by decide) (by decide)).mpr (by decide)

/-- A second of leeway, and the sum is past `i64`. -/
theorem not_timed_never : ¬ ∀ (opts : Options) (payloadBytes : Bytes) (reg : Registered) (exp : Int),
    keep neverFront.payload = some payloadBytes → neverJson.registered payloadBytes = some reg →
    reg.exp = some exp → InI64 exp → (∀ t, reg.nbf = some t → InI64 t) → 0 ≤ opts.nowS →
    opts.nowS ≤ 2 ^ 62 → opts.leewayS < 2 ^ 32 →
    Timed opts exp reg.nbf (verify neverCrypto neverJson exampleKeys opts neverToken) := by
  intro hall
  obtain ⟨hfront, hsig⟩ := neverToken_signed
  obtain ⟨payloadBytes, hpayload, hreg⟩ := neverToken_payload
  have htimed := hall ⟨.unchecked, .unchecked, 1700000000, 1⟩ payloadBytes neverReg (2 ^ 63 - 1)
    hpayload hreg rfl ⟨by decide, by decide⟩ (fun t ht => by cases ht) (by decide) (by decide)
    (by decide)
  refine htimed.whole ?_
  rw [verify_of_check hfront hsig, back_eq hpayload hreg, checkExp_eq rfl]
  rfl

end Nilo.Jwt
