import Nilo.Http.Shape
import Nilo.Std.Base64

/-!
# Sealing a session (`http/session.zig`)

`sealFor` puts a header before the bytes of a value, encrypts them for a purpose and writes the
whole in base64; `openFor` goes back, asking one key after another and then every check in order.
The cipher is `std.crypto`'s, and is a parameter: `Cipher.Sound` is that it opens what was sealed and
nothing else.

`Holds` is what opening and sealing owe each other. It holds but for one kind of value
(`seal_holds_iff`): a null is sealed as the zeroes of what it might have been, and where those are no
value, because an enum in them has no tag of nought, the session that was sealed does not open.
-/

namespace Nilo.Session

open Text (Bytes ascii)
open Mem

/-! ## The cipher -/

/-- `XChaCha20Poly1305`: the text and its tag, and the text back. -/
structure Cipher where
  encrypt : (plain ad nonce key : Bytes) → Bytes × Bytes
  decrypt : (body tag ad nonce key : Bytes) → Option Bytes

def nonceLength : Nat := 24

def tagLength : Nat := 16

/-- It opens what was sealed with the same key, nonce and associated data, and nothing else. -/
structure Cipher.Sound (c : Cipher) : Prop where
  body_length : ∀ plain ad nonce key, (c.encrypt plain ad nonce key).1.length = plain.length
  tag_length : ∀ plain ad nonce key, (c.encrypt plain ad nonce key).2.length = tagLength
  opens : ∀ plain body tag ad nonce key, c.decrypt body tag ad nonce key = some plain ↔
    c.encrypt plain ad nonce key = (body, tag)

/-! ## Sealing and opening -/

def overhead : Nat := nonceLength + tagLength

def headerSize : Nat := 1 + 4 + 8

def Ty.plainSize (t : Ty) : Nat := headerSize + t.sizeOf

def formatVersion : UInt8 := 2

/-- The version, the shape and the moment the seal stops opening, in seconds. -/
def Ty.header (t : Ty) (expiresAt : BitVec 64) : Bytes :=
  formatVersion :: (writeLe 4 t.fingerprint.toNat ++ writeLe 8 expiresAt.toNat)

/-- A cookie's purpose. -/
def cookiePurpose : Bytes := []

def bearerPurpose : Bytes := ascii "nilo.bearer"

variable (c : Cipher)

/-- `nonce` is what `randomSecure` gave. -/
def sealFor (t : Ty) (value : t.Raw) (expiresAt : BitVec 64) (key nonce purpose : Bytes) : Bytes :=
  let closed := c.encrypt (t.header expiresAt ++ t.encode value) purpose nonce key
  Base64.standard.encode (nonce ++ closed.1 ++ closed.2)

inductive Refused where
  | rejected
  | expired
deriving DecidableEq, Repr

/-- The checks of what decrypted. -/
def Ty.unsealed (t : Ty) (plain : Bytes) (now : BitVec 64) : Except Refused t.Raw :=
  if plain.head? ≠ some formatVersion then .error .rejected
  else if readLe ((plain.drop 1).take 4) ≠ t.fingerprint.toNat then .error .rejected
  -- Read after the tag has been verified.
  else if (BitVec.ofNat 64 (readLe ((plain.drop 5).take 8))).toInt ≤ now.toInt then
    .error .expired
  else
    match t.decode (plain.drop headerSize) with
    | .error _ => .error .rejected
    | .ok got => .ok got.1

/-- The current key first, and the fallbacks only when it fails. -/
def opened (body tag purpose nonce key : Bytes) (fallbacks : List Bytes) : Option Bytes :=
  match c.decrypt body tag purpose nonce key with
  | some plain => some plain
  | none => fallbacks.findSome? fun fallback => c.decrypt body tag purpose nonce fallback

def unsealFor (t : Ty) (text key : Bytes) (fallbacks : List Bytes) (now : BitVec 64)
    (purpose : Bytes) : Except Refused t.Raw :=
  match Base64.standard.calcSize text with
  | none => .error .rejected
  | some sealedLen =>
    if sealedLen ≠ t.plainSize + overhead then .error .rejected
    else
      match Base64.standard.decode text with
      | none => .error .rejected
      | some raw =>
        let nonce := raw.take nonceLength
        let body := (raw.drop nonceLength).take t.plainSize
        let tag := (raw.drop (nonceLength + t.plainSize)).take tagLength
        match opened c body tag purpose nonce key fallbacks with
        | none => .error .rejected
        | some plain => t.unsealed plain now

def openFor (t : Ty) (text key : Bytes) (fallbacks : List Bytes) (now : BitVec 64)
    (purpose : Bytes) : Option t.Raw :=
  match unsealFor c t text key fallbacks now purpose with
  | .ok value => some value
  | .error _ => none

/-! ## What opening and sealing owe each other -/

/-- For this value, sealed with `sealer`, and these keys to open it with:

* what opens of it is the value, before it expires, and nothing after;
* every value is written in as many bytes, and as many are read;
* and whatever text opens was sealed with one of the keys, for the purpose, with the type's
  fingerprint and an expiry still to come. -/
structure Holds (t : Ty) (value : t.Raw) (expiresAt : BitVec 64) (sealer nonce key : Bytes)
    (fallbacks : List Bytes) (now : BitVec 64) (purpose : Bytes) : Prop where
  opens : openFor c t (sealFor c t value expiresAt sealer nonce purpose) key fallbacks now purpose =
    if now.toInt < expiresAt.toInt then some value else none
  written : ∀ v : t.Raw, (t.encode v).length = t.sizeOf
  read : ∀ b rest, b.length = t.sizeOf → t.decode (b ++ rest) = t.decode b ∧
    ∀ v used, t.decode b = .ok (v, used) → used = t.sizeOf
  only : ∀ text v, openFor c t text key fallbacks now purpose = some v →
    ∃ k ∈ key :: fallbacks, ∃ nonce expiry fields,
      Base64.standard.decode text = some
        (nonce ++ (c.encrypt (t.header expiry ++ fields) purpose nonce k).1 ++
          (c.encrypt (t.header expiry ++ fields) purpose nonce k).2) ∧
      now.toInt < expiry.toInt ∧ t.decode fields = .ok (v, t.sizeOf)

/-- No key of the list but the one it was sealed with opens this seal. -/
def Apart (t : Ty) (value : t.Raw) (expiresAt : BitVec 64) (sealer nonce purpose : Bytes)
    (keys : List Bytes) : Prop :=
  let closed := c.encrypt (t.header expiresAt ++ t.encode value) purpose nonce sealer
  ∀ k ∈ keys, k ≠ sealer → c.decrypt closed.1 closed.2 purpose nonce k = none

variable {c}
variable {t : Ty} {value : t.Raw} {expiresAt now : BitVec 64}
variable {sealer nonce key purpose : Bytes} {fallbacks : List Bytes}

/-! ## The header -/

theorem length_header : (t.header expiresAt).length = headerSize := by
  simp [Ty.header, headerSize]

theorem header_version (fields : Bytes) :
    (t.header expiresAt ++ fields).head? = some formatVersion := rfl

theorem header_fingerprint (fields : Bytes) :
    readLe (((t.header expiresAt ++ fields).drop 1).take 4) = t.fingerprint.toNat := by
  have hlen : (writeLe 4 t.fingerprint.toNat).length = 4 := length_writeLe _ _
  rw [Ty.header, List.cons_append, List.drop_one, List.tail_cons, List.append_assoc,
    List.take_left' hlen, readLe_writeLe, Nat.mod_eq_of_lt]
  exact t.fingerprint.toNat_lt

theorem header_expiry (fields : Bytes) :
    BitVec.ofNat 64 (readLe (((t.header expiresAt ++ fields).drop 5).take 8)) = expiresAt := by
  have hlen : (writeLe 4 t.fingerprint.toNat).length = 4 := length_writeLe _ _
  have hlen' : (writeLe 8 expiresAt.toNat).length = 8 := length_writeLe _ _
  have hdrop : (t.header expiresAt ++ fields).drop 5 = writeLe 8 expiresAt.toNat ++ fields := by
    rw [Ty.header, List.cons_append, List.append_assoc, List.drop_succ_cons, List.drop_left' hlen]
  rw [hdrop, List.take_left' hlen', readLe_writeLe, Nat.mod_eq_of_lt (by simpa using expiresAt.isLt),
    BitVec.ofNat_toNat, BitVec.setWidth_eq]

/-- The checks on a header of the type's own are its expiry and the reading of the fields. -/
theorem unsealed_header (fields : Bytes) :
    t.unsealed (t.header expiresAt ++ fields) now =
      if expiresAt.toInt ≤ now.toInt then .error .expired
      else match t.decode fields with
        | .error _ => .error .rejected
        | .ok got => .ok got.1 := by
  rw [Ty.unsealed, header_version, header_fingerprint, header_expiry,
    List.drop_left' length_header]
  simp

/-- What passes the checks begins with a header of the type's own. -/
theorem unsealed_ok {plain : Bytes} {v : t.Raw} (hlen : plain.length = t.plainSize)
    (h : t.unsealed plain now = .ok v) : ∃ expiry fields, plain = t.header expiry ++ fields ∧
      fields.length = t.sizeOf ∧ now.toInt < expiry.toInt ∧ ∃ used, t.decode fields = .ok (v, used) := by
  rw [Ty.unsealed] at h
  split_ifs at h with hversion hfingerprint hexpired
  have hversion := not_not.mp hversion
  have hfingerprint := not_not.mp hfingerprint
  refine ⟨BitVec.ofNat 64 (readLe ((plain.drop 5).take 8)), plain.drop headerSize, ?_, ?_,
    Int.not_le.mp hexpired, ?_⟩
  · have hsize : t.plainSize = 13 + t.sizeOf := rfl
    match plain, hversion with
    | x :: rest, hversion =>
      obtain rfl : x = formatVersion := Option.some.inj hversion
      rw [List.length_cons] at hlen
      have hfour : (rest.take 4).length = 4 := by simp; omega
      have height : ((rest.drop 4).take 8).length = 8 := by simp; omega
      have hfirst : writeLe 4 t.fingerprint.toNat = rest.take 4 := by
        rw [← hfingerprint, List.drop_one, List.tail_cons]
        have hback := writeLe_readLe (rest.take 4)
        rw [hfour] at hback
        exact hback
      have hsecond : writeLe 8 (BitVec.ofNat 64 (readLe ((rest.drop 4).take 8))).toNat =
          (rest.drop 4).take 8 := by
        have hlt := readLe_lt ((rest.drop 4).take 8)
        rw [height] at hlt
        rw [BitVec.toNat_ofNat, Nat.mod_eq_of_lt (by simpa using hlt)]
        have hback := writeLe_readLe ((rest.drop 4).take 8)
        rw [height] at hback
        exact hback
      rw [Ty.header, List.drop_succ_cons, hfirst, hsecond]
      change formatVersion :: rest = formatVersion :: (rest.take 4 ++ (rest.drop 4).take 8) ++
        rest.drop 12
      rw [List.cons_append, List.append_assoc]
      congr 1
      have hdrop : rest.drop 12 = (rest.drop 4).drop 8 := by rw [List.drop_drop]
      rw [hdrop, List.take_append_drop, List.take_append_drop]
  · rw [List.length_drop, hlen, Ty.plainSize]
    omega
  · cases hdecode : t.decode (plain.drop headerSize) with
    | error e =>
      rw [hdecode] at h
      cases h
    | ok got =>
      rw [hdecode] at h
      cases h
      exact ⟨got.2, rfl⟩

/-! ## The keys -/

theorem opened_mem {body tag plain : Bytes}
    (h : opened c body tag purpose nonce key fallbacks = some plain) :
    ∃ k ∈ key :: fallbacks, c.decrypt body tag purpose nonce k = some plain := by
  rw [opened] at h
  cases hkey : c.decrypt body tag purpose nonce key with
  | some found =>
    rw [hkey] at h
    cases h
    exact ⟨key, List.mem_cons_self, hkey⟩
  | none =>
    rw [hkey] at h
    obtain ⟨k, hk, hfound⟩ := List.exists_of_findSome?_eq_some h
    exact ⟨k, List.mem_cons_of_mem _ hk, hfound⟩

/-- The key a seal was made with opens it, wherever it is in the list. -/
theorem opened_sealed (hc : c.Sound) {plain : Bytes} (hin : sealer ∈ key :: fallbacks)
    (happart : ∀ k ∈ key :: fallbacks, k ≠ sealer →
      c.decrypt (c.encrypt plain purpose nonce sealer).1 (c.encrypt plain purpose nonce sealer).2
        purpose nonce k = none) :
    opened c (c.encrypt plain purpose nonce sealer).1 (c.encrypt plain purpose nonce sealer).2
      purpose nonce key fallbacks = some plain := by
  have hopens := (hc.opens plain _ _ purpose nonce sealer).mpr
    (rfl : c.encrypt plain purpose nonce sealer = (_, _))
  rw [opened]
  by_cases hkey : key = sealer
  · rw [hkey, hopens]
  · rw [happart key List.mem_cons_self hkey]
    have hrest : sealer ∈ fallbacks := by
      rcases List.mem_cons.mp hin with heq | hin
      · exact absurd heq.symm hkey
      · exact hin
    have hothers : ∀ k ∈ fallbacks, k ≠ sealer → _ := fun k hk =>
      happart k (List.mem_cons_of_mem _ hk)
    clear hin happart
    induction fallbacks with
    | nil => cases hrest
    | cons k rest ih =>
      rw [List.findSome?_cons]
      by_cases hk : k = sealer
      · rw [hk, hopens]
      · rw [hothers k List.mem_cons_self hk]
        refine ih ?_ fun k' hk' => hothers k' (List.mem_cons_of_mem _ hk')
        rcases List.mem_cons.mp hrest with heq | hin
        · exact absurd heq.symm hk
        · exact hin

/-! ## Opening what was sealed -/

theorem unsealFor_sealFor (hc : c.Sound) (hnonce : nonce.length = nonceLength)
    (hin : sealer ∈ key :: fallbacks)
    (happart : Apart c t value expiresAt sealer nonce purpose (key :: fallbacks)) :
    unsealFor c t (sealFor c t value expiresAt sealer nonce purpose) key fallbacks now purpose =
      t.unsealed (t.header expiresAt ++ t.encode value) now := by
  have hplain : (t.header expiresAt ++ t.encode value).length = t.plainSize := by
    rw [List.length_append, length_header, t.length_encode]
    rfl
  rw [sealFor]
  have hbody := hc.body_length (t.header expiresAt ++ t.encode value) purpose nonce sealer
  have htag := hc.tag_length (t.header expiresAt ++ t.encode value) purpose nonce sealer
  have hopened := opened_sealed hc hin happart
  rw [hplain] at hbody
  generalize c.encrypt (t.header expiresAt ++ t.encode value) purpose nonce sealer = closed at *
  obtain ⟨body, tag⟩ := closed
  dsimp only at hbody htag hopened ⊢
  have hraw : (nonce ++ body ++ tag).length = t.plainSize + overhead := by
    rw [List.length_append, List.length_append, hnonce, hbody, htag, overhead]
    omega
  have htake : (nonce ++ body ++ tag).take nonceLength = nonce := by
    rw [List.append_assoc, List.take_left' hnonce]
  have hmiddle : ((nonce ++ body ++ tag).drop nonceLength).take t.plainSize = body := by
    rw [List.append_assoc, List.drop_left' hnonce, List.take_left' hbody]
  have hlast : ((nonce ++ body ++ tag).drop (nonceLength + t.plainSize)).take tagLength = tag := by
    have hfront : (nonce ++ body).length = nonceLength + t.plainSize := by
      rw [List.length_append, hnonce, hbody]
    rw [List.drop_left' hfront, ← htag, List.take_length]
  rw [unsealFor, Base64.calcSize_encode Base64.standard_proper rfl,
    Base64.decode_encode Base64.standard_proper, hraw]
  simp only [ne_eq, not_true_eq_false, if_false, htake, hmiddle, hlast, hopened]

theorem openFor_sealFor (now : BitVec 64) (hc : c.Sound) (ht : t.accepted = true)
    (hnonce : nonce.length = nonceLength) (hin : sealer ∈ key :: fallbacks)
    (happart : Apart c t value expiresAt sealer nonce purpose (key :: fallbacks)) :
    openFor c t (sealFor c t value expiresAt sealer nonce purpose) key fallbacks now purpose =
      if now.toInt < expiresAt.toInt ∧ t.readable value = true then some value else none := by
  have hdecode := t.decode_encode ht value []
  rw [List.append_nil] at hdecode
  rw [openFor, unsealFor_sealFor hc hnonce hin happart, unsealed_header, hdecode]
  by_cases hexpired : expiresAt.toInt ≤ now.toInt
  · rw [if_pos hexpired, if_neg (fun h => absurd h.1 (Int.not_lt.mpr hexpired))]
  · rw [if_neg hexpired]
    by_cases hreadable : t.readable value = true
    · rw [if_pos hreadable, if_pos ⟨Int.not_le.mp hexpired, hreadable⟩]
    · rw [if_neg hreadable, if_neg (fun h => hreadable h.2)]

/-- Whatever opens was sealed. -/
theorem openFor_only (hc : c.Sound) {text : Bytes} {v : t.Raw}
    (h : openFor c t text key fallbacks now purpose = some v) :
    ∃ k ∈ key :: fallbacks, ∃ nonce expiry fields,
      Base64.standard.decode text = some
        (nonce ++ (c.encrypt (t.header expiry ++ fields) purpose nonce k).1 ++
          (c.encrypt (t.header expiry ++ fields) purpose nonce k).2) ∧
      now.toInt < expiry.toInt ∧ t.decode fields = .ok (v, t.sizeOf) := by
  rw [openFor] at h
  cases hunseal : unsealFor c t text key fallbacks now purpose with
  | error e =>
    rw [hunseal] at h
    cases h
  | ok w =>
    rw [hunseal] at h
    cases h
    rw [unsealFor] at hunseal
    cases hsize : Base64.standard.calcSize text with
    | none =>
      rw [hsize] at hunseal
      cases hunseal
    | some n =>
      simp only [hsize] at hunseal
      split at hunseal
      · cases hunseal
      · rename_i hn
        have hn := not_not.mp hn
        cases hdecode : Base64.standard.decode text with
        | none =>
          simp only [hdecode] at hunseal
          cases hunseal
        | some raw =>
          simp only [hdecode] at hunseal
          have hraw := Base64.length_decode Base64.standard_proper rfl hsize hdecode
          rw [hn] at hraw
          split at hunseal
          · cases hunseal
          · rename_i plain hopened
            obtain ⟨k, hk, hdecrypt⟩ := opened_mem hopened
            have hencrypt := (hc.opens _ _ _ _ _ _).mp hdecrypt
            have hlength := hc.body_length plain purpose (raw.take nonceLength) k
            rw [hencrypt] at hlength
            have hplain : plain.length = t.plainSize := by
              rw [← hlength, List.length_take, List.length_drop, hraw, overhead]
              omega
            obtain ⟨expiry, fields, rfl, hfields, hnow, used, hread⟩ := unsealed_ok hplain hunseal
            refine ⟨k, hk, raw.take nonceLength, expiry, fields, ?_, hnow, ?_⟩
            · rw [hencrypt]
              dsimp only
              have hlast : (raw.drop (nonceLength + t.plainSize)).take tagLength =
                  raw.drop (nonceLength + t.plainSize) := by
                refine List.take_of_length_le ?_
                rw [List.length_drop, hraw, overhead]
                omega
              rw [hlast, List.append_assoc, ← List.drop_drop, List.take_append_drop,
                List.take_append_drop]
            · rcases t.reads.whole fields hfields.ge with hbad | ⟨u, hu⟩
              · rw [hbad] at hread
                cases hread
              · rw [hu] at hread
                cases hread
                exact hu

/-! ## Every session -/

/-- Opening and sealing hold what they owe each other, for every type and value, just where the
session has expired or every enum that is written, also in the zeroes of a null, has its tag. -/
theorem seal_holds_iff (hc : c.Sound) (ht : t.accepted = true)
    (hnonce : nonce.length = nonceLength) (hin : sealer ∈ key :: fallbacks)
    (happart : Apart c t value expiresAt sealer nonce purpose (key :: fallbacks)) :
    Holds c t value expiresAt sealer nonce key fallbacks now purpose ↔
      (expiresAt.toInt ≤ now.toInt ∨ t.readable value = true) := by
  have hopen := openFor_sealFor now hc ht hnonce hin happart
  constructor
  · intro h
    by_cases hexpired : expiresAt.toInt ≤ now.toInt
    · exact .inl hexpired
    · have hnow := Int.not_le.mp hexpired
      have heq := hopen.symm.trans h.opens
      rw [if_pos hnow] at heq
      by_contra hnot
      rw [if_neg (fun hand => hnot (.inr hand.2))] at heq
      cases heq
  · intro hcond
    refine ⟨?_, t.length_encode, fun b rest hb => ⟨t.reads.front b rest hb, ?_⟩,
      fun text v h => openFor_only hc h⟩
    · rw [hopen]
      by_cases hnow : now.toInt < expiresAt.toInt
      · rw [if_pos hnow, if_pos ⟨hnow, hcond.resolve_left (Int.not_le.mpr hnow)⟩]
      · rw [if_neg hnow, if_neg (fun hand => hnow hand.1)]
    · intro v used hv
      rcases t.reads.whole b hb.ge with hbad | ⟨u, hu⟩
      · rw [hbad] at hv
        cases hv
      · rw [hu] at hv
        cases hv
        rfl

/-! ## Two sessions -/

/-- One text the cipher was given, and what it made of it. -/
structure Entry where
  plain : Bytes
  nonce : Bytes
  key : Bytes
  body : Bytes
  tag : Bytes

/-- The cipher on that text; any other is left as it is, under a tag of noughts. -/
def Entry.cipher (e : Entry) : Cipher :=
  let encrypt := fun plain ad nonce key =>
    if plain = e.plain ∧ ad = cookiePurpose ∧ nonce = e.nonce ∧ key = e.key then (e.body, e.tag)
    else (plain, List.replicate tagLength 0)
  { encrypt
    decrypt := fun body tag ad nonce key =>
      [e.plain, body].find? fun plain => encrypt plain ad nonce key = (body, tag) }

theorem Entry.sound (e : Entry) (hbody : e.body.length = e.plain.length)
    (htag : e.tag.length = tagLength) (hother : e.tag ≠ List.replicate tagLength 0) :
    e.cipher.Sound where
  body_length plain ad nonce key := by
    dsimp only [Entry.cipher]
    split
    · rename_i h
      rw [h.1]
      exact hbody
    · rfl
  tag_length plain ad nonce key := by
    dsimp only [Entry.cipher]
    split
    · exact htag
    · exact List.length_replicate
  opens plain body tag ad nonce key := by
    constructor
    · intro h
      have hfound : [e.plain, body].find?
          (fun p => decide (e.cipher.encrypt p ad nonce key = (body, tag))) = some plain := h
      have hplain := List.find?_some hfound
      exact of_decide_eq_true hplain
    · intro h
      change [e.plain, body].find? (fun p => decide (e.cipher.encrypt p ad nonce key = (body, tag))) =
        some plain
      rw [List.find?_cons]
      by_cases hfirst : e.cipher.encrypt e.plain ad nonce key = (body, tag)
      · rw [decide_eq_true hfirst]
        -- Two texts that are sealed to one are one.
        refine congrArg some ?_
        have heq := hfirst.trans h.symm
        dsimp only [Entry.cipher] at heq
        split_ifs at heq with hat hplain
        · exact hplain.1.symm
        · exact absurd (congrArg Prod.snd heq) hother
        · rename_i hplain
          exact absurd ⟨rfl, hplain.2⟩ hat
        · exact congrArg Prod.fst heq
      · rw [decide_eq_false hfirst]
        have hplain : plain ≠ e.plain := fun heq => hfirst (heq ▸ h)
        have hbody' : body = plain := by
          have hcopy := h
          dsimp only [Entry.cipher] at hcopy
          rw [if_neg (fun hat => hplain hat.1)] at hcopy
          exact (congrArg Prod.fst hcopy).symm
        dsimp only
        rw [List.find?_cons, hbody', decide_eq_true (hbody' ▸ h)]

def exampleKey : Bytes := (List.range 32).map UInt8.ofNat

def exampleNonce : Bytes := (List.range 24).map UInt8.ofNat

/-- `struct { user: u32, admin: bool }` -/
def signed : Ty :=
  .struct .auto (.cons (ascii "user") (.int (ascii "u32") 32) (.cons (ascii "admin") .bool .nil))

def signedIn : signed.Raw := ((7 : BitVec 32), true, ())

/-- The user with the number 7, sealed until 2000. -/
def signedEntry : Entry where
  plain := signed.header 2000 ++ signed.encode signedIn
  nonce := exampleNonce
  key := exampleKey
  body := [156, 245, 111, 17, 55, 2, 138, 174, 51, 68, 38, 206, 203, 85, 168, 232, 75, 70]
  tag := [180, 44, 137, 212, 93, 170, 200, 102, 215, 147, 68, 201, 175, 93, 189, 76]

theorem seal_holds_signed : signed.accepted = true ∧
    Holds signedEntry.cipher signed signedIn 2000 exampleKey exampleNonce exampleKey [] 1000
      cookiePurpose := by
  have hsound : signedEntry.cipher.Sound := signedEntry.sound (by decide) (by decide) (by decide)
  have happart : Apart signedEntry.cipher signed signedIn 2000 exampleKey exampleNonce cookiePurpose
      [exampleKey] := by
    intro k hk hne
    exact absurd (List.mem_singleton.mp hk) hne
  exact ⟨rfl, (seal_holds_iff hsound rfl (by decide) List.mem_cons_self happart).mpr
    (.inr (by decide))⟩

/-- `struct { pref: ?extern struct { theme: enum(u8) { light = 1, dark = 2 } } }` -/
def preferring : Ty :=
  .struct .auto (.cons (ascii "pref") (.optional (.struct .foreign
    (.cons (ascii "theme") (.enum (ascii "u8") 8 [1, 2] true) .nil))) .nil)

def noPreference : preferring.Raw := (none, ())

def noPreferenceEntry : Entry where
  plain := preferring.header 2000 ++ preferring.encode noPreference
  nonce := exampleNonce
  key := exampleKey
  body := [156, 74, 116, 185, 236, 2, 138, 174, 51, 68, 38, 206, 203, 82, 168]
  tag := [114, 24, 234, 231, 154, 92, 40, 171, 88, 22, 38, 88, 132, 242, 104, 162]

/-- A null is written as a theme of nought, which there is not: the session does not open. -/
theorem not_holds_noPreference : preferring.accepted = true ∧ preferring.known noPreference = true ∧
    ¬ Holds noPreferenceEntry.cipher preferring noPreference 2000 exampleKey exampleNonce
      exampleKey [] 1000 cookiePurpose := by
  refine ⟨rfl, rfl, fun h => ?_⟩
  have hsound : noPreferenceEntry.cipher.Sound :=
    noPreferenceEntry.sound (by decide) (by decide) (by decide)
  have happart : Apart noPreferenceEntry.cipher preferring noPreference 2000 exampleKey exampleNonce
      cookiePurpose [exampleKey] := by
    intro k hk hne
    exact absurd (List.mem_singleton.mp hk) hne
  have hopen := openFor_sealFor 1000 hsound rfl (by decide) List.mem_cons_self happart
  have hunread : preferring.readable noPreference = false := by decide
  rw [hunread, if_neg (fun hand => (by cases hand.2))] at hopen
  have hvalue := hopen.symm.trans h.opens
  rw [if_pos (by decide)] at hvalue
  cases hvalue

end Nilo.Session
