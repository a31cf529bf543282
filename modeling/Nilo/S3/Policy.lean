import Nilo.Std.Epoch
import Nilo.Std.Json

/-!
# A POST policy (`s3/sign.zig`)

`writePolicy` writes the conditions of an upload as compact JSON, with every text of somebody else
through `writeJsonText`. What is written is the compact text of the document that was declared
(`writePolicy_eq`), so a reader of JSON finds that and nothing more, in the space of `policySize`.
-/

namespace Nilo.S3

open Text (Bytes ascii padded between digitsOf isDigit)
open Json (Json Number stringRest prepend hexUnit encode)
open Utf8 (utf8ValidateSlice)

/-! ## A moment -/

/-- `20260817T014233Z`. -/
structure Stamp where
  text : Bytes
deriving DecidableEq

def Stamp.expirationLen : Nat := 20

/-- `Stamp.at`; none is the `unreachable` of a moment that does not fit sixteen bytes. -/
def Stamp.atSeconds (unixSeconds : Int) : Option Stamp :=
  let secs := (max unixSeconds 0).toNat
  let yearDay := Epoch.calculateYearDay (secs / Epoch.secsPerDay)
  let monthDay := yearDay.calculateMonthDay
  let time := secs % Epoch.secsPerDay
  let text := padded 4 yearDay.year ++ padded 2 monthDay.month ++ padded 2 (monthDay.dayIndex + 1) ++
    [84] ++ padded 2 (time / 3600) ++ padded 2 (time % 3600 / 60) ++ padded 2 (time % 60) ++ [90]
  if text.length = 16 then some { text } else none

def Stamp.iso (self : Stamp) : Bytes := self.text

/-- The same characters with four punctuation marks put back. -/
def Stamp.expiration (self : Stamp) : Bytes :=
  between self.text 0 4 ++ [45] ++ between self.text 4 6 ++ [45] ++ between self.text 6 8 ++ [84] ++
    between self.text 9 11 ++ [58] ++ between self.text 11 13 ++ [58] ++ between self.text 13 15 ++ [90]

/-! ## The policy -/

def algorithm : Bytes := ascii "AWS4-HMAC-SHA256"

structure Policy where
  bucket : Bytes
  key : Bytes
  /-- `key` is the start of a key. -/
  keyPrefix : Bool := false
  expiration : Bytes
  credential : Bytes
  date : Bytes
  token : Option Bytes := none
  contentType : Option Bytes := none
  maxBytes : Option UInt64 := none

/-- The punctuation of every condition. -/
def policyFrame : Nat :=
  (ascii "\x7b\"expiration\":\"\",\"conditions\":[").length + (ascii "\x7b\"bucket\":\"\"\x7d,").length +
    (ascii "[\"starts-with\",\"$key\",\"\"],").length + (ascii "\x7b\"x-amz-algorithm\":\"\"\x7d,").length +
    (ascii "\x7b\"x-amz-credential\":\"\"\x7d,").length + (ascii "\x7b\"x-amz-date\":\"\"\x7d,").length +
    (ascii "\x7b\"x-amz-security-token\":\"\"\x7d,").length +
    (ascii "[\"eq\",\"$Content-Type\",\"\"],").length + (ascii "[\"content-length-range\",0,]").length +
    (ascii "]\x7d").length

def textLen (text : Option Bytes) : Nat :=
  match text with
  | some t => t.length
  | none => 0

/-- The most bytes `writePolicy` can write. -/
def policySize (p : Policy) : Nat :=
  policyFrame + Stamp.expirationLen + algorithm.length + p.date.length + 20 +
    6 * (p.bucket.length + p.key.length + p.credential.length + textLen p.token + textLen p.contentType)

/-- `{x:0>4}`. -/
def hexPadded (n : Nat) : Bytes :=
  let digits := (Nat.toDigits 16 n).map fun ch => UInt8.ofNat ch.toNat
  List.replicate (4 - digits.length) 48 ++ digits

/-- One byte of a JSON string. -/
def jsonByte (ch : UInt8) : Bytes :=
  if ch = 34 then [92, 34]
  else if ch = 92 then [92, 92]
  else if ch ≤ 0x1f then [92, 117] ++ hexPadded ch.toNat
  else [ch]

/-- A JSON string body. -/
def writeJsonText (text : Bytes) : Bytes := text.flatMap jsonByte

def writePolicy (p : Policy) : Bytes :=
  ascii "\x7b\"expiration\":\"" ++ p.expiration ++ ascii "\",\"conditions\":[\x7b\"bucket\":\"" ++
    writeJsonText p.bucket ++ ascii "\"\x7d,[\"" ++
    (if p.keyPrefix then ascii "starts-with" else ascii "eq") ++ ascii "\",\"$key\",\"" ++
    writeJsonText p.key ++ ascii "\"],\x7b\"x-amz-algorithm\":\"" ++ algorithm ++
    ascii "\"\x7d,\x7b\"x-amz-credential\":\"" ++ writeJsonText p.credential ++
    ascii "\"\x7d,\x7b\"x-amz-date\":\"" ++ p.date ++ ascii "\"\x7d" ++
    (match p.token with
    | some t => ascii ",\x7b\"x-amz-security-token\":\"" ++ writeJsonText t ++ ascii "\"\x7d"
    | none => []) ++
    (match p.contentType with
    | some ct => ascii ",[\"eq\",\"$Content-Type\",\"" ++ writeJsonText ct ++ ascii "\"]"
    | none => []) ++
    (match p.maxBytes with
    | some max => ascii ",[\"content-length-range\",0," ++ digitsOf max.toNat ++ ascii "]"
    | none => []) ++
    ascii "]\x7d"

/-! ## What a policy declares -/

/-- A condition that names one field. -/
def equals (name : String) (value : Bytes) : Json := .object [(ascii name, .string value)]

def number (n : Nat) : Json := .number ⟨digitsOf n, Json.isNumber_digitsOf n⟩

def conditions (p : Policy) : List Json :=
  [equals "bucket" p.bucket,
    .array [.string (if p.keyPrefix then ascii "starts-with" else ascii "eq"), .string (ascii "$key"),
      .string p.key],
    equals "x-amz-algorithm" algorithm, equals "x-amz-credential" p.credential,
    equals "x-amz-date" p.date] ++
  (p.token.map (equals "x-amz-security-token")).toList ++
  (p.contentType.map fun ct => .array [.string (ascii "eq"), .string (ascii "$Content-Type"),
    .string ct]).toList ++
  (p.maxBytes.map fun max => .array [.string (ascii "content-length-range"), number 0,
    number max.toNat]).toList

def document (p : Policy) : Json :=
  .object [(ascii "expiration", .string p.expiration), (ascii "conditions", .array (conditions p))]

/-! ## A text of somebody else -/

/-- A control character as its six bytes. -/
theorem hexPadded_control (ch : UInt8) : ch ≤ 0x1f →
    hexPadded ch.toNat = [(hexPadded ch.toNat).getD 0 0, (hexPadded ch.toNat).getD 1 0,
      (hexPadded ch.toNat).getD 2 0, (hexPadded ch.toNat).getD 3 0] ∧
    hexUnit ((hexPadded ch.toNat).getD 0 0) ((hexPadded ch.toNat).getD 1 0)
      ((hexPadded ch.toNat).getD 2 0) ((hexPadded ch.toNat).getD 3 0) = some ch.toNat ∧
    encode ch.toNat = [ch] ∧ (hexPadded ch.toNat).all (· < 0x80) = true := by
  revert ch
  exact Text.forall_byte (by decide)

theorem stringRest_jsonByte (ch : UInt8) (rest : Bytes) :
    stringRest (jsonByte ch ++ rest) = prepend [ch] (stringRest rest) := by
  rw [jsonByte]
  split_ifs with hquote hback hcontrol
  · rw [hquote]
    exact Json.stringRest_escape (by decide) rfl rest
  · rw [hback]
    exact Json.stringRest_escape (by decide) rfl rest
  · obtain ⟨hhex, hunit, hencode, -⟩ := hexPadded_control ch hcontrol
    have hsmall : ch.toNat < 0xD800 ∨ 0xE000 ≤ ch.toNat := .inl (Nat.lt_trans ch.toNat_lt (by decide))
    have hread := Json.stringRest_unit hunit hsmall rest
    rw [hencode] at hread
    rw [hhex]
    exact hread
  · have hpass : ¬ ch < 0x20 := by
      rw [UInt8.lt_iff_toNat_lt]
      rw [UInt8.le_iff_toNat_le] at hcontrol
      simp only [UInt8.reduceToNat] at hcontrol ⊢
      omega
    exact Json.stringRest_plain hquote hback hpass rest

/-- A reader of the string finds the text. -/
theorem stringRest_writeJsonText (text rest : Bytes) :
    stringRest (writeJsonText text ++ 34 :: rest) = some (text, rest) := by
  induction text with
  | nil => exact Json.stringRest_quote rest
  | cons ch text ih =>
    rw [writeJsonText, List.flatMap_cons, List.append_assoc, stringRest_jsonByte, ← writeJsonText, ih]
    rfl

theorem length_jsonByte (ch : UInt8) : (jsonByte ch).length ≤ 6 := by
  revert ch
  exact Text.forall_byte (by decide)

theorem length_writeJsonText (text : Bytes) : (writeJsonText text).length ≤ 6 * text.length := by
  induction text with
  | nil => exact Nat.zero_le _
  | cons ch text ih =>
    have hch := length_jsonByte ch
    rw [writeJsonText, List.flatMap_cons, List.length_append, ← writeJsonText, List.length_cons]
    omega

/-! ## The document -/

theorem print_equals (name : String) (value : Bytes)
    (hname : writeJsonText (ascii name) = ascii name) :
    Json.print writeJsonText (equals name value) =
      123 :: 34 :: (ascii name ++ 34 :: 58 :: 34 :: (writeJsonText value ++ [34, 125])) := by
  rw [equals, Json.print, Json.printMembers, Json.quoted, Json.print, Json.quoted, hname]
  simp only [List.append_assoc, List.cons_append, List.nil_append]

theorem print_array (first second third : Json) :
    Json.print writeJsonText (.array [first, second, third]) =
      91 :: (Json.print writeJsonText first ++ 44 :: (Json.print writeJsonText second ++
        44 :: (Json.print writeJsonText third ++ [93]))) := by
  rw [Json.print, Json.printAll_flatMap]
  simp only [List.flatMap_cons, List.flatMap_nil, List.append_assoc, List.cons_append, List.nil_append]

theorem print_string (text : Bytes) :
    Json.print writeJsonText (.string text) = 34 :: (writeJsonText text ++ [34]) := by
  rw [Json.print, Json.quoted]

def optional (v : Option Json) : Bytes := v.toList.flatMap fun v => 44 :: Json.print writeJsonText v

theorem optional_token (token : Option Bytes) :
    optional (token.map (equals "x-amz-security-token")) =
      match token with
      | some t => ascii ",\x7b\"x-amz-security-token\":\"" ++ writeJsonText t ++ ascii "\"\x7d"
      | none => [] := by
  cases token with
  | none => rfl
  | some t =>
    rw [optional, Option.map_some, Option.toList_some, List.flatMap_singleton,
      print_equals _ _ (by decide)]
    rfl

theorem optional_contentType (contentType : Option Bytes) :
    optional (contentType.map fun ct => .array [.string (ascii "eq"), .string (ascii "$Content-Type"),
      .string ct]) =
      match contentType with
      | some ct => ascii ",[\"eq\",\"$Content-Type\",\"" ++ writeJsonText ct ++ ascii "\"]"
      | none => [] := by
  have hplain : writeJsonText (ascii "eq") = ascii "eq" ∧
      writeJsonText (ascii "$Content-Type") = ascii "$Content-Type" := by decide
  cases contentType with
  | none => rfl
  | some ct =>
    rw [optional, Option.map_some, Option.toList_some, List.flatMap_singleton, print_array, print_string,
      print_string, print_string, hplain.1, hplain.2]
    simp only [List.append_assoc, List.cons_append, List.nil_append]
    rfl

theorem optional_maxBytes (maxBytes : Option UInt64) :
    optional (maxBytes.map fun max => .array [.string (ascii "content-length-range"), number 0,
      number max.toNat]) =
      match maxBytes with
      | some max => ascii ",[\"content-length-range\",0," ++ digitsOf max.toNat ++ ascii "]"
      | none => [] := by
  have hplain : writeJsonText (ascii "content-length-range") = ascii "content-length-range" := by decide
  cases maxBytes with
  | none => rfl
  | some max =>
    rw [optional, Option.map_some, Option.toList_some, List.flatMap_singleton, print_array, print_string,
      hplain, number, number, Json.print, Json.print]
    rfl

/-- What is written is the compact text of the document. -/
theorem writePolicy_eq {p : Policy} (hexpiration : writeJsonText p.expiration = p.expiration)
    (hdate : writeJsonText p.date = p.date) :
    writePolicy p = Json.print writeJsonText (document p) := by
  have hnames : writeJsonText (ascii "expiration") = ascii "expiration" ∧
      writeJsonText (ascii "conditions") = ascii "conditions" ∧
      writeJsonText (ascii "$key") = ascii "$key" ∧ writeJsonText algorithm = algorithm := by decide
  have hkind : writeJsonText (if p.keyPrefix then ascii "starts-with" else ascii "eq") =
      if p.keyPrefix then ascii "starts-with" else ascii "eq" := by
    cases p.keyPrefix <;> decide
  have hall : Json.printAll writeJsonText (conditions p) =
      Json.print writeJsonText (equals "bucket" p.bucket) ++
      44 :: (Json.print writeJsonText (.array [.string (if p.keyPrefix then ascii "starts-with" else
        ascii "eq"), .string (ascii "$key"), .string p.key]) ++
      44 :: (Json.print writeJsonText (equals "x-amz-algorithm" algorithm) ++
      44 :: (Json.print writeJsonText (equals "x-amz-credential" p.credential) ++
      44 :: (Json.print writeJsonText (equals "x-amz-date" p.date) ++
        (optional (p.token.map (equals "x-amz-security-token")) ++
        (optional (p.contentType.map fun ct => .array [.string (ascii "eq"),
          .string (ascii "$Content-Type"), .string ct]) ++
        optional (p.maxBytes.map fun max => .array [.string (ascii "content-length-range"), number 0,
          number max.toNat]))))))) := by
    rw [conditions, List.cons_append, List.cons_append, List.cons_append, Json.printAll_flatMap]
    simp only [List.flatMap_append, List.flatMap_cons, List.append_assoc, List.cons_append,
      List.nil_append, optional]
  rw [document, Json.print, Json.printMembers_cons, Json.printMembers, Json.quoted, Json.quoted,
    hnames.1, hnames.2.1, print_string, hexpiration, Json.print, hall, optional_token,
    optional_contentType, optional_maxBytes, print_array, print_string, print_string, print_string, hkind,
    hnames.2.2.1, print_equals _ _ (by decide), print_equals _ _ (by decide),
    print_equals _ _ (by decide), print_equals _ _ (by decide), hnames.2.2.2, hdate, writePolicy]
  simp only [List.append_assoc, List.cons_append, List.nil_append]
  rfl

/-! ## Its length -/

theorem length_digitsOf_u64 (n : UInt64) : (digitsOf n.toNat).length ≤ 20 :=
  (Text.length_digitsOf_le (by decide)).mpr (Nat.lt_trans n.toNat_lt (by decide))

theorem length_writePolicy {p : Policy} (h : p.expiration.length = Stamp.expirationLen) :
    (writePolicy p).length ≤ policySize p := by
  have hbucket := length_writeJsonText p.bucket
  have hkey := length_writeJsonText p.key
  have hcredential := length_writeJsonText p.credential
  have hkind : (if p.keyPrefix then ascii "starts-with" else ascii "eq").length ≤ 11 := by
    cases p.keyPrefix <;> decide
  have htoken : (match p.token with
      | some t => ascii ",\x7b\"x-amz-security-token\":\"" ++ writeJsonText t ++ ascii "\"\x7d"
      | none => []).length ≤ 28 + 6 * textLen p.token := by
    cases p.token with
    | none => exact Nat.zero_le _
    | some t =>
      have ht := length_writeJsonText t
      have hlit : (ascii ",\x7b\"x-amz-security-token\":\"").length = 26 ∧ (ascii "\"\x7d").length = 2 := by
        decide
      rw [textLen, List.length_append, List.length_append, hlit.1, hlit.2]
      omega
  have htype : (match p.contentType with
      | some ct => ascii ",[\"eq\",\"$Content-Type\",\"" ++ writeJsonText ct ++ ascii "\"]"
      | none => []).length ≤ 26 + 6 * textLen p.contentType := by
    cases p.contentType with
    | none => exact Nat.zero_le _
    | some ct =>
      have hct := length_writeJsonText ct
      have hlit : (ascii ",[\"eq\",\"$Content-Type\",\"").length = 24 ∧ (ascii "\"]").length = 2 := by
        decide
      rw [textLen, List.length_append, List.length_append, hlit.1, hlit.2]
      omega
  have hmax : (match p.maxBytes with
      | some max => ascii ",[\"content-length-range\",0," ++ digitsOf max.toNat ++ ascii "]"
      | none => []).length ≤ 28 + 20 := by
    cases p.maxBytes with
    | none => exact Nat.zero_le _
    | some max =>
      have hdigits := length_digitsOf_u64 max
      have hlit : (ascii ",[\"content-length-range\",0,").length = 27 ∧ (ascii "]").length = 1 := by
        decide
      rw [List.length_append, List.length_append, hlit.1, hlit.2]
      omega
  have hframe : policyFrame = 219 := by decide
  have hlit : (ascii "\x7b\"expiration\":\"").length = 15 ∧
      (ascii "\",\"conditions\":[\x7b\"bucket\":\"").length = 27 ∧ (ascii "\"\x7d,[\"").length = 5 ∧
      (ascii "\",\"$key\",\"").length = 10 ∧ (ascii "\"],\x7b\"x-amz-algorithm\":\"").length = 23 ∧
      (ascii "\"\x7d,\x7b\"x-amz-credential\":\"").length = 24 ∧
      (ascii "\"\x7d,\x7b\"x-amz-date\":\"").length = 18 ∧ (ascii "\"\x7d").length = 2 ∧
      (ascii "]\x7d").length = 2 := by decide
  obtain ⟨h1, h2, h3, h4, h5, h6, h7, h8, h9⟩ := hlit
  rw [writePolicy, policySize, hframe, Stamp.expirationLen]
  rw [Stamp.expirationLen] at h
  simp only [List.length_append, h1, h2, h3, h4, h5, h6, h7, h8, h9, h]
  omega

/-! ## UTF-8 -/

theorem utf8_append {a b : Bytes} (ha : utf8ValidateSlice a = true) (hb : utf8ValidateSlice b = true) :
    utf8ValidateSlice (a ++ b) = true := by rw [Utf8.utf8ValidateSlice_text ha, hb]

theorem jsonByte_high (ch : UInt8) : 0x80 ≤ ch → jsonByte ch = [ch] := by
  revert ch
  exact Text.forall_byte (by decide)

theorem jsonByte_ascii (ch : UInt8) : ch < 0x80 → Utf8.isAscii (jsonByte ch) = true := by
  revert ch
  exact Text.forall_byte (by decide)

/-- The bytes of a character past ASCII pass through. -/
theorem writeJsonText_high {char : Bytes} (h : ∀ ch ∈ char, 0x80 ≤ ch) : writeJsonText char = char := by
  induction char with
  | nil => rfl
  | cons ch char ih =>
    obtain ⟨hch, hrest⟩ := List.forall_mem_cons.mp h
    rw [writeJsonText, List.flatMap_cons, jsonByte_high ch hch, ← writeJsonText, ih hrest]
    rfl

theorem utf8_writeJsonText {text : Bytes} (h : utf8ValidateSlice text = true) :
    utf8ValidateSlice (writeJsonText text) = true := by
  induction hn : text.length using Nat.strong_induction_on generalizing text with
  | _ n ih =>
    cases text with
    | nil => rfl
    | cons lead rest =>
      by_cases hlead : lead < 0x80
      · have hrest : utf8ValidateSlice rest = true := by rwa [Utf8.utf8ValidateSlice_one hlead] at h
        rw [writeJsonText, List.flatMap_cons, ← writeJsonText,
          Utf8.utf8ValidateSlice_append (jsonByte_ascii lead hlead)]
        exact ih rest.length (hn ▸ Nat.lt_succ_self _) hrest rfl
      · obtain ⟨char, after, heq, hchar⟩ := Utf8.exists_char h
        obtain ⟨first, behind, hopen, -, hbehind⟩ := Utf8.isContinuation_char hchar
        have hfirst : lead = first := by
          rw [hopen] at heq
          exact (List.cons.inj heq).1
        have hhigh : ∀ ch ∈ char, 0x80 ≤ ch := by
          rw [hopen, ← hfirst]
          refine List.forall_mem_cons.mpr ⟨UInt8.not_lt.mp hlead, fun ch hch => ?_⟩
          have hwithin := hbehind ch hch
          rw [Utf8.isContinuation, Bool.and_eq_true, decide_eq_true_eq] at hwithin
          exact hwithin.1
        rw [heq] at h hn ⊢
        rw [Utf8.utf8ValidateSlice_char hchar] at h
        rw [writeJsonText, List.flatMap_append, ← writeJsonText, ← writeJsonText,
          writeJsonText_high hhigh, Utf8.utf8ValidateSlice_char hchar]
        refine ih after.length ?_ h rfl
        rw [← hn, hopen, List.length_append, List.length_cons]
        omega

theorem utf8_ascii {text : Bytes} (h : Utf8.isAscii text = true) : utf8ValidateSlice text = true :=
  Utf8.utf8ValidateSlice_of_isAscii h

/-- The texts of somebody else are UTF-8. -/
structure Policy.Texts (p : Policy) : Prop where
  bucket : utf8ValidateSlice p.bucket = true
  key : utf8ValidateSlice p.key = true
  credential : utf8ValidateSlice p.credential = true
  token : ∀ t ∈ p.token, utf8ValidateSlice t = true
  contentType : ∀ ct ∈ p.contentType, utf8ValidateSlice ct = true

theorem utf8_writePolicy {p : Policy} (h : p.Texts) (hexpiration : Utf8.isAscii p.expiration = true)
    (hdate : Utf8.isAscii p.date = true) : utf8ValidateSlice (writePolicy p) = true := by
  have hkind : utf8ValidateSlice (if p.keyPrefix then ascii "starts-with" else ascii "eq") = true := by
    cases p.keyPrefix <;> exact utf8_ascii (by decide)
  have hdigits (n : Nat) : utf8ValidateSlice (digitsOf n) = true := by
    refine utf8_ascii (List.all_eq_true.mpr fun ch hch => decide_eq_true ?_)
    have hdigit := Text.isDigit_iff.mp (List.all_eq_true.mp (Text.all_digitsOf n) ch hch)
    rw [UInt8.lt_iff_toNat_lt]
    simp only [UInt8.reduceToNat]
    omega
  have htoken : utf8ValidateSlice (match p.token with
      | some t => ascii ",\x7b\"x-amz-security-token\":\"" ++ writeJsonText t ++ ascii "\"\x7d"
      | none => []) = true := by
    cases hsome : p.token with
    | none => rfl
    | some t =>
      exact utf8_append (utf8_append (utf8_ascii (by decide)) (utf8_writeJsonText (h.token t hsome)))
        (utf8_ascii (by decide))
  have htype : utf8ValidateSlice (match p.contentType with
      | some ct => ascii ",[\"eq\",\"$Content-Type\",\"" ++ writeJsonText ct ++ ascii "\"]"
      | none => []) = true := by
    cases hsome : p.contentType with
    | none => rfl
    | some ct =>
      exact utf8_append (utf8_append (utf8_ascii (by decide))
        (utf8_writeJsonText (h.contentType ct hsome))) (utf8_ascii (by decide))
  have hmax : utf8ValidateSlice (match p.maxBytes with
      | some max => ascii ",[\"content-length-range\",0," ++ digitsOf max.toNat ++ ascii "]"
      | none => []) = true := by
    cases p.maxBytes with
    | none => rfl
    | some max =>
      exact utf8_append (utf8_append (utf8_ascii (by decide)) (hdigits max.toNat))
        (utf8_ascii (by decide))
  have hstart : utf8ValidateSlice (ascii "\x7b\"expiration\":\"" ++ p.expiration ++
      ascii "\",\"conditions\":[\x7b\"bucket\":\"" ++ writeJsonText p.bucket ++ ascii "\"\x7d,[\"") =
        true := by
    refine utf8_append (utf8_append (utf8_append (utf8_append (utf8_ascii (by decide)) ?_)
      (utf8_ascii (by decide))) ?_) (utf8_ascii (by decide))
    · exact utf8_ascii hexpiration
    · exact utf8_writeJsonText h.bucket
  have hkey : utf8ValidateSlice (ascii "\x7b\"expiration\":\"" ++ p.expiration ++
      ascii "\",\"conditions\":[\x7b\"bucket\":\"" ++ writeJsonText p.bucket ++ ascii "\"\x7d,[\"" ++
      (if p.keyPrefix then ascii "starts-with" else ascii "eq") ++ ascii "\",\"$key\",\"" ++
      writeJsonText p.key ++ ascii "\"],\x7b\"x-amz-algorithm\":\"") = true := by
    refine utf8_append (utf8_append (utf8_append (utf8_append hstart hkind) (utf8_ascii (by decide))) ?_)
      (utf8_ascii (by decide))
    exact utf8_writeJsonText h.key
  rw [writePolicy]
  refine utf8_append (utf8_append (utf8_append (utf8_append (utf8_append (utf8_append (utf8_append
    (utf8_append (utf8_append (utf8_append hkey (utf8_ascii (by decide))) (utf8_ascii (by decide)))
      (utf8_writeJsonText h.credential)) (utf8_ascii (by decide))) (utf8_ascii hdate))
        (utf8_ascii (by decide))) htoken) htype) hmax) (utf8_ascii (by decide))

/-! ## What a stamp writes -/

/-- A digit, or one of the marks between the fields of a moment. -/
def IsMark (ch : UInt8) : Prop := isDigit ch = true ∨ ch = 84 ∨ ch = 90 ∨ ch = 45 ∨ ch = 58

instance : DecidablePred IsMark := fun ch =>
  inferInstanceAs (Decidable (isDigit ch = true ∨ ch = 84 ∨ ch = 90 ∨ ch = 45 ∨ ch = 58))

theorem mark_byte (ch : UInt8) : IsMark ch → jsonByte ch = [ch] ∧ ch < 0x80 := by
  revert ch
  exact Text.forall_byte (by decide)

/-- Marks stand as themselves. -/
theorem writeJsonText_marks {text : Bytes} (h : ∀ ch ∈ text, IsMark ch) :
    writeJsonText text = text ∧ Utf8.isAscii text = true := by
  induction text with
  | nil => exact ⟨rfl, rfl⟩
  | cons ch text ih =>
    obtain ⟨hch, hrest⟩ := List.forall_mem_cons.mp h
    obtain ⟨hbyte, hlow⟩ := mark_byte ch hch
    obtain ⟨htext, hascii⟩ := ih hrest
    rw [writeJsonText, List.flatMap_cons, hbyte, ← writeJsonText, htext]
    exact ⟨rfl, Bool.and_eq_true_iff.mpr ⟨decide_eq_true hlow, hascii⟩⟩

theorem padded_marks (k n : Nat) : ∀ ch ∈ padded k n, IsMark ch := by
  refine List.forall_mem_append.mpr ⟨fun ch hch => ?_, fun ch hch => ?_⟩
  · rw [List.eq_of_mem_replicate hch]
    exact .inl rfl
  · exact .inl (List.all_eq_true.mp (Text.all_digitsOf n) ch hch)

theorem between_marks {text : Bytes} (h : ∀ ch ∈ text, IsMark ch) (start stop : Nat) :
    ∀ ch ∈ between text start stop, IsMark ch :=
  fun ch hch => h ch (List.mem_of_mem_drop (List.mem_of_mem_take hch))

theorem mark_one {ch : UInt8} (h : ch = 84 ∨ ch = 90 ∨ ch = 45 ∨ ch = 58) : ∀ b ∈ [ch], IsMark b :=
  List.forall_mem_singleton.mpr (.inr h)

theorem Stamp.marks {unixSeconds : Int} {stamp : Stamp} (h : atSeconds unixSeconds = some stamp) :
    (∀ ch ∈ stamp.text, IsMark ch) ∧ stamp.text.length = 16 := by
  simp only [atSeconds] at h
  split_ifs at h with hlength
  cases h
  refine ⟨?_, hlength⟩
  simp only [List.forall_mem_append]
  exact ⟨⟨⟨⟨⟨⟨⟨padded_marks _ _, padded_marks _ _⟩, padded_marks _ _⟩, mark_one (.inl rfl)⟩,
    padded_marks _ _⟩, padded_marks _ _⟩, padded_marks _ _⟩, mark_one (.inr (.inl rfl))⟩

theorem Stamp.expiration_marks {stamp : Stamp} (h : ∀ ch ∈ stamp.text, IsMark ch)
    (hlength : stamp.text.length = 16) :
    (∀ ch ∈ stamp.expiration, IsMark ch) ∧ stamp.expiration.length = expirationLen := by
  have hin := between_marks h
  have hdash : ∀ ch ∈ ([45] : Bytes), IsMark ch := mark_one (.inr (.inr (.inl rfl)))
  have hcolon : ∀ ch ∈ ([58] : Bytes), IsMark ch := mark_one (.inr (.inr (.inr rfl)))
  constructor
  · simp only [expiration, List.forall_mem_append]
    exact ⟨⟨⟨⟨⟨⟨⟨⟨⟨⟨⟨hin _ _, hdash⟩, hin _ _⟩, hdash⟩, hin _ _⟩, mark_one (.inl rfl)⟩, hin _ _⟩, hcolon⟩,
      hin _ _⟩, hcolon⟩, hin _ _⟩, mark_one (.inr (.inl rfl))⟩
  · simp only [expiration, expirationLen, between, List.length_append, List.length_take, List.length_drop,
      List.length_singleton, hlength]
    decide

/-- A reader of JSON finds what the policy declares, every text byte for byte, and nothing else, and
the document has the room that is kept for it. -/
theorem policy_declares {p : Policy} {now later : Int} {stamp deadline : Stamp}
    (hnow : Stamp.atSeconds now = some stamp) (hlater : Stamp.atSeconds later = some deadline)
    (hdate : p.date = stamp.iso) (hexpiration : p.expiration = deadline.expiration) (htexts : p.Texts) :
    (writePolicy p).length ≤ policySize p ∧ Json.read (writePolicy p) = some (document p) := by
  obtain ⟨hstamp, -⟩ := Stamp.marks hnow
  obtain ⟨hdeadline, hlength⟩ := Stamp.marks hlater
  obtain ⟨hmarks, hlength'⟩ := Stamp.expiration_marks hdeadline hlength
  obtain ⟨hplain, hascii⟩ := writeJsonText_marks (hdate ▸ hstamp : ∀ ch ∈ p.date, IsMark ch)
  obtain ⟨hplain', hascii'⟩ := writeJsonText_marks (hexpiration ▸ hmarks)
  have hutf8 := utf8_writePolicy htexts hascii' hascii
  refine ⟨length_writePolicy (hexpiration ▸ hlength'), ?_⟩
  rw [writePolicy_eq hplain' hplain] at hutf8 ⊢
  exact Json.read_print stringRest_writeJsonText hutf8

/-- A key that tries to end its string. -/
def quotingPolicy : Policy :=
  { bucket := ascii "b", key := [34, 93, 10, 0xC3, 0xA9], keyPrefix := true,
    expiration := ascii "1970-01-01T00:00:00Z", credential := ascii "k/19700101",
    date := ascii "19700101T000000Z", maxBytes := some 9 }

theorem quotingPolicy_texts : quotingPolicy.Texts where
  bucket := utf8_ascii (by decide)
  key := by decide
  credential := utf8_ascii (by decide)
  token := by rintro t ⟨⟩
  contentType := by rintro ct ⟨⟩

theorem quotingPolicy_declares : (writePolicy quotingPolicy).length ≤ policySize quotingPolicy ∧
    Json.read (writePolicy quotingPolicy) = some (document quotingPolicy) := by
  have hstamp : Stamp.atSeconds 0 = some ⟨ascii "19700101T000000Z"⟩ := by decide
  exact policy_declares hstamp hstamp rfl (by decide) quotingPolicy_texts

end Nilo.S3
