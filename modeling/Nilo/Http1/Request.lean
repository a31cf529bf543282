import Nilo.Http.Scan
import Nilo.Http1.Head

/-!
# A request and what each line says of it (`Request`, `parseRequestLine`, `applyHeaderAt` in `http/http1.zig`)

What a head is read into, and what one line of it does to that: the request line gives the method,
the target and the version, and six of the fields are looked at, each by its own rules. The walk that
finds the lines is in `Http1.Lines`.
-/

namespace Nilo.Http1

open Text (Bytes ascii eqlIgnoreCase)
open Scan (lanes classOf)
open Lib (Bits.walk)

inductive ParseError where
  | badRequestLine
  | badHeader
  | unsupportedVersion
  | unsupportedTransferEncoding
  | unsupportedContentEncoding
deriving DecidableEq, Repr

/-- What a `Content-Encoding` header said, reduced to the answers there are for it. -/
inductive Encoding where
  | identity
  | gzip
  | zstd
  | other
deriving DecidableEq, Repr

/-- The last digit of a version is one of two. -/
instance neZero_two : NeZero 2 := ⟨by decide⟩

structure Request where
  method : Bytes := []
  target : Bytes := []
  authority : Bytes := []
  /-- 0 for HTTP/1.0, 1 for HTTP/1.1. -/
  minorVersion : Fin 2 := 1
  keepAlive : Bool := true
  contentLength : Nat := 0
  chunked : Bool := false
  hasContentLength : Bool := false
  contentEncoding : Encoding := .identity
  /-- Set before a head is parsed a second time. -/
  encodingDeferred : Bool := false
  hasHost : Bool := false
  upgrade : Bool := false
  expectContinue : Bool := false
deriving DecidableEq, Repr

/-! ## Names -/

/-- `tchar` (`scan.isTokenByte`, `headerNameOk`). -/
def isTokenByte (ch : UInt8) : Bool :=
  Text.isAlphanumeric ch || (ascii "!#$%&\x27*+-.^_\x60|~").contains ch

def headerNameOk (name : Bytes) : Bool := name ≠ [] && name.all isTokenByte

/-- One lane of `unusualBlock`: a letter folded, a digit, or a dash, by sums that wrap. -/
def unusualLane (ch : UInt8) : Bool :=
  !((ch ||| 0x20) - 97 ≤ 25 || ch - 48 ≤ 9 || ch == 45)

def isUnusual (ch : UInt8) : Bool := !(Text.isAlphanumeric ch || ch == 45)

/-- The positions of the bytes that are not a letter, a digit or `-`. -/
def unusualNameBytesOf (buf : Bytes) (start : Nat) : Nat :=
  if lanes ≤ buf.length then classOf unusualLane buf start else classOf isUnusual buf start

/-- The loop of `tokenAt`. Each turn but the last goes a block on. -/
def tokenBlocks (buf : Bytes) (stop : Nat) : Nat → Nat → Bool
  | 0, _ => true
  | n + 1, i =>
    if i < stop then
      let unusual := unusualNameBytesOf buf i
      let bits := if stop - i < lanes then unusual &&& (2 ^ (stop - i) - 1) else unusual
      let stray (k : Nat) : Option Unit := if buf[i + k]?.any isTokenByte then none else some ()
      (Bits.walk lanes stray bits).isNone && tokenBlocks buf stop n (i + lanes)
    else true

/-- Whether `buf[start..stop]` is a token, a block at a time. -/
def tokenAt (buf : Bytes) (start stop : Nat) : Bool :=
  if start ≥ stop then false
  else if buf.length < lanes then (Text.between buf start stop).all isTokenByte
  else tokenBlocks buf stop (stop - start) start

/-! ## The request line -/

/-- `HTTP/` DIGIT `.` DIGIT: spelled like a version, whether or not it is spoken. -/
def versionShaped : Bytes → Bool
  | [h, t, t', p, slash, major, dot, minor] =>
    [h, t, t', p, slash] = ascii "HTTP/" && Text.isDigit major && dot == 46 && Text.isDigit minor
  | _ => false

/-- unreserved, sub-delims and the `%` of pct-encoded. -/
def regNameByte (ch : UInt8) : Bool :=
  Text.isAlphanumeric ch || (ascii "-._~!$&\x27()*+,;=%").contains ch

/-- The host of an authority: an IP-literal in brackets, or a reg-name. -/
def hostOk (host : Bytes) : Bool :=
  match host with
  | [] => false
  | first :: rest =>
    if first = 91 then
      if host.length < 3 || host.getLast? ≠ some 93 then false
      else rest.dropLast.all fun ch => regNameByte ch || ch == 58
    else host.all regNameByte

/-- `host [ ":" port ]`. The port is after the last colon, unless that colon is inside the brackets. -/
def authorityOk (authority : Bytes) (portRequired : Bool) : Bool :=
  match Text.lastIndexOf 58 authority with
  | none => !portRequired && hostOk authority
  | some last =>
    if (Text.lastIndexOf 93 authority).getD 0 < last then
      (authority.drop (last + 1)).all Text.isDigit && hostOk (authority.take last)
    else !portRequired && hostOk authority

/-- The authority and the path out of an absolute-form target, or nothing for one that is not in that
form. -/
def absoluteForm (target : Bytes) : Except ParseError (Option (Bytes × Bytes)) :=
  let split (schemeLen : Nat) : Except ParseError (Option (Bytes × Bytes)) :=
    let rest := target.drop schemeLen
    let authority := rest.takeWhile fun ch => ch ≠ 47 && ch ≠ 63 && ch ≠ 35
    if authority = [] then .error .badRequestLine
    else if authority.contains 64 then .error .badRequestLine
    else if !authorityOk authority false then .error .badRequestLine
    else match rest.drop authority.length with
      | [] => .ok (some (authority, Text.between target (schemeLen - 1) schemeLen))
      | 47 :: path => .ok (some (authority, 47 :: path))
      | _ => .error .badRequestLine
  if Text.startsWithIgnoreCase target (ascii "http://") then split 7
  else if Text.startsWithIgnoreCase target (ascii "https://") then split 8
  else .ok none

/-- The version of a request line, and whether a connection it comes on is kept. -/
def versionOf (version : Bytes) : Except ParseError (Fin 2 × Bool) :=
  if version = ascii "HTTP/1.1" then .ok (1, true)
  else if version = ascii "HTTP/1.0" then .ok (0, false)
  else if versionShaped version then .error .unsupportedVersion
  else .error .badRequestLine

/-- A target in the form it arrived in. -/
def applyForm (r : Request) : Except ParseError Request :=
  if r.target.head? = some 47 then .ok r
  else
    match absoluteForm r.target with
    | .error e => .error e
    | .ok (some (authority, path)) => .ok { r with authority, target := path }
    | .ok none =>
      if r.target = ascii "*" then
        if r.method = ascii "OPTIONS" then .ok r else .error .badRequestLine
      else if r.method = ascii "CONNECT" then
        if authorityOk r.target true then .ok r else .error .badRequestLine
      else .error .badRequestLine

def parseRequestLine (line : Bytes) (r : Request) : Except ParseError Request :=
  match Text.cut 32 line with
  | (_, none) => .error .badRequestLine
  | (method, some rest) =>
    match Text.cut 32 rest with
    | (_, none) => .error .badRequestLine
    | (target, some version) =>
      if method = [] ∨ target = [] then .error .badRequestLine
      else
        match versionOf version with
        | .error e => .error e
        | .ok (minorVersion, keepAlive) =>
          if !tokenAt line 0 method.length then .error .badRequestLine
          else applyForm { r with minorVersion, keepAlive, method, target }

/-! ## A field -/

/-- The names that are looked at. -/
inductive Field where
  | host
  | expect
  | connection
  | contentLength
  | contentEncoding
  | transferEncoding
deriving DecidableEq, Repr

/-- The length of a name is looked at before the name. -/
def fieldOf (name : Bytes) : Option Field :=
  let named (text : String) (field : Field) : Option Field :=
    if eqlIgnoreCase name (ascii text) then some field else none
  match name.length with
  | 4 => named "host" .host
  | 6 => named "expect" .expect
  | 10 => named "connection" .connection
  | 14 => named "content-length" .contentLength
  | 16 => named "content-encoding" .contentEncoding
  | 17 => named "transfer-encoding" .transferEncoding
  | _ => none

/-- `keep-alive` asks for what HTTP/1.1 already does. -/
def setKeepAlive (r : Request) : Request :=
  if r.minorVersion = 0 then { r with keepAlive := true } else r

/-- Whether a list has this option. -/
def hasOption (value : Bytes) (option : String) : Bool :=
  (value.splitOn 44).any fun raw => eqlIgnoreCase (Text.trimBlanks raw) (ascii option)

/-- A `Connection` value that is a list, where `close` anywhere wins. -/
def connectionList (value : Bytes) (r : Request) : Request :=
  let r :=
    if hasOption value "close" then { r with keepAlive := false }
    else if hasOption value "keep-alive" then setKeepAlive r
    else r
  if (Text.findIgnoreCase value (ascii "upgrade")).isSome then { r with upgrade := true } else r

/-- The two values nearly every request sends, before the list is split. -/
def applyConnection (value : Bytes) (r : Request) : Request :=
  if eqlIgnoreCase value (ascii "keep-alive") then setKeepAlive r
  else if eqlIgnoreCase value (ascii "close") then { r with keepAlive := false }
  else connectionList value r

/-- A digits-only number. -/
def digitsOnly (text : Bytes) : Option Nat :=
  if text = [] ∨ ¬ text.all Text.isDigit then none else Text.parseU64 text

/-- What a `Transfer-Encoding` value says about `chunked`. -/
inductive ChunkedState where
  | lone
  | stacked
  | notLast
deriving DecidableEq, Repr

def chunkedState (value : Bytes) : ChunkedState :=
  let start := match Text.lastIndexOf 44 value with
    | some comma => comma + 1
    | none => 0
  if !eqlIgnoreCase (Text.trimBlanks (value.drop start)) (ascii "chunked") then .notLast
  else if start = 0 then .lone
  else .stacked

/-- The coding a `Content-Encoding` value names. `zstd` says whether the build reads it. -/
def codingOf (zstd : Bool) (value : Bytes) : Encoding :=
  if eqlIgnoreCase value (ascii "identity") then .identity
  else if eqlIgnoreCase value (ascii "gzip") || eqlIgnoreCase value (ascii "x-gzip") then .gzip
  else if zstd && eqlIgnoreCase value (ascii "zstd") then .zstd
  else .other

/-- What a field that is looked at does to the request. -/
def applyField (zstd : Bool) (field : Field) (value : Bytes) (r : Request) :
    Except ParseError Request :=
  match field with
  | .host =>
    if r.hasHost then .error .badHeader
    else if value.length > 0 && !authorityOk value false then .error .badHeader
    else .ok { r with hasHost := true }
  | .expect =>
    .ok (if eqlIgnoreCase value (ascii "100-continue") then { r with expectContinue := true } else r)
  | .connection => .ok (applyConnection value r)
  | .contentLength =>
    if r.chunked then .error .badHeader
    else match digitsOnly value with
      | none => .error .badHeader
      | some n =>
        if r.hasContentLength ∧ n ≠ r.contentLength then .error .badHeader
        else .ok { r with contentLength := n, hasContentLength := true }
  | .contentEncoding => .ok { r with contentEncoding := codingOf zstd value }
  | .transferEncoding =>
    if r.chunked then .error .badHeader
    else match chunkedState value with
      | .stacked => .error .unsupportedTransferEncoding
      | .notLast => .error .badHeader
      | .lone =>
        if r.hasContentLength then .error .badHeader else .ok { r with chunked := true }

def headerValue (buf : Bytes) (colon stop : Nat) : Bytes :=
  Text.trimBlanks (Text.between buf (colon + 1) stop)

/-- A line whose name ends at `colon`. `start`, `colon` and `stop` are indices into `buf`. -/
def applyHeaderAt (zstd : Bool) (buf : Bytes) (start colon stop : Nat) (r : Request) :
    Except ParseError Request :=
  match fieldOf (Text.between buf start colon) with
  | none => .ok r
  | some field => applyField zstd field (headerValue buf colon stop) r

def isBlank (ch : UInt8) : Bool := ch == 32 || ch == 9

/-- A line on its own. -/
def applyHeader (zstd : Bool) (line : Bytes) (r : Request) : Except ParseError Request :=
  if line.head?.any isBlank then .error .badHeader
  else match line.idxOf? 58 with
    | none => .error .badHeader
    | some colon =>
      if colon = 0 then .error .badHeader
      else if (line)[colon - 1]?.any isBlank then .error .badHeader
      else if !headerNameOk (line.take colon) then .error .badHeader
      else applyHeaderAt zstd line 0 colon line.length r

/-- What has to be true of a head as a whole rather than of any one line in it. -/
def finish (r : Request) : Except ParseError Request :=
  if r.minorVersion = 1 ∧ ¬ r.hasHost ∧ r.authority = [] then .error .badHeader
  else
    let r := if r.minorVersion = 0 ∧ r.chunked then { r with keepAlive := false } else r
    if r.contentEncoding = .other ∧ ¬ r.encodingDeferred ∧ (r.chunked ∨ r.contentLength > 0) then
      .error .unsupportedContentEncoding
    else .ok r

end Nilo.Http1
