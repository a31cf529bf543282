import Nilo.Http2.Frame
import Nilo.Std.Text

/-!
# A request's fields (`http/h2conn.zig`, `http/grpc.zig`)

What the connection asks of a decoded header list before it runs the call: the
one-pass `scan` of RFC 9113 §8's checks, the announced length, whether it is a
gRPC call, and the `grpc-timeout`.
-/

namespace Nilo.Http2

open Nilo.Text

/-- A header field. `static` says the name is the static table's own bytes, which the
decoder returns as they lie and the scan does not read. -/
structure Field where
  name : Bytes
  value : Bytes
  static : Bool := false
deriving DecidableEq, Repr

/-- The first field of that name. -/
def fieldOf (fields : List Field) (name : Bytes) : Option Bytes :=
  (fields.find? fun f => f.name == name).map (·.value)

/-- The names a field may have: a lowercase token. -/
def lowerToken (ch : UInt8) : Bool :=
  (97 ≤ ch && ch ≤ 122) || isDigit ch || (ascii "!#$%&'*+-.^_`|~").contains ch

/-- A value that can be written into a head as it is: no NUL and no line break. -/
def valueClean (value : Bytes) : Bool := value.all fun ch => ch != 0 && ch != 13 && ch != 10

/-- What one pass over a request's fields finds. -/
structure Scan where
  method : Option Bytes := none
  path : Option Bytes := none
  fieldsOk : Bool := true
  pseudoOk : Bool := true
  connectionOk : Bool := true
  hasLength : Bool := false
deriving DecidableEq, Repr

/-- The pseudo-headers seen so far, one bit each in the source. -/
structure Seen where
  method : Bool := false
  scheme : Bool := false
  path : Bool := false
  authority : Bool := false
deriving DecidableEq, Repr

/-- The bit a pseudo-header has, if it is one of the four. -/
inductive Pseudo where
  | method | scheme | path | authority
deriving DecidableEq, Repr

def pseudoOf (name : Bytes) : Option Pseudo :=
  if name = ascii ":method" then some .method
  else if name = ascii ":scheme" then some .scheme
  else if name = ascii ":path" then some .path
  else if name = ascii ":authority" then some .authority
  else none

def Seen.has (s : Seen) : Pseudo → Bool
  | .method => s.method
  | .scheme => s.scheme
  | .path => s.path
  | .authority => s.authority

def Seen.add (s : Seen) : Pseudo → Seen
  | .method => { s with method := true }
  | .scheme => { s with scheme := true }
  | .path => { s with path := true }
  | .authority => { s with authority := true }

/-- A field that belongs to one HTTP/1.1 connection, which HTTP/2 forbids (§8.2.2). -/
def forbidden (f : Field) : Bool :=
  (f.name == ascii "te" && !eqlIgnoreCase f.value (ascii "trailers")) ||
  [ascii "upgrade", ascii "connection", ascii "keep-alive", ascii "proxy-connection",
    ascii "transfer-encoding"].contains f.name

/-- The rest of the pass, from what it has found of the fields before. The scan stops at
the first field whose name or value cannot be written into a head. -/
def scanFrom (r : Scan) (seen : Seen) (regular : Bool) : List Field → Scan
  | [] => if seen.method && seen.scheme && seen.path then r else { r with pseudoOk := false }
  | f :: rest =>
    match f.name with
    | [] => { r with fieldsOk := false }
    | first :: tail =>
      let pseudo := first == 58
      let token := if pseudo then tail else first :: tail
      if !f.static && (!token.all lowerToken || (pseudo && tail.isEmpty)) then
        { r with fieldsOk := false }
      else if !valueClean f.value then { r with fieldsOk := false }
      else if pseudo then
        match pseudoOf f.name with
        | none => scanFrom { r with pseudoOk := false } seen regular rest
        | some bit =>
          let r := if regular || seen.has bit then { r with pseudoOk := false } else r
          let r := if bit = .method ∧ r.method = none then { r with method := some f.value } else r
          let r := if bit = .path ∧ r.path = none then { r with path := some f.value } else r
          scanFrom r (seen.add bit) regular rest
      else
        let r := if forbidden f then { r with connectionOk := false } else r
        let r := if f.name = ascii "content-length" then { r with hasLength := true } else r
        scanFrom r seen true rest

def scan (fields : List Field) : Scan := scanFrom {} {} false fields

/-- The `content-length` the client sent, if any: digits only, and every one of them the
same number. Anything else is a malformed request. -/
def announcedFrom (said : Option Nat) : List Field → Except Unit (Option Nat)
  | [] => .ok said
  | f :: rest =>
    if f.name ≠ ascii "content-length" then announcedFrom said rest
    else if f.value = [] ∨ !f.value.all isDigit then .error ()
    else match parseU64 f.value with
      | none => .error ()
      | some n =>
        match said with
        | some was => if was ≠ n then .error () else announcedFrom (some n) rest
        | none => announcedFrom (some n) rest

def announcedLength (fields : List Field) : Except Unit (Option Nat) := announcedFrom none fields

/-- `application/grpc`, or `application/grpc+` and a subtype. -/
def isGrpcContentType (value : Bytes) : Bool :=
  let media := ascii "application/grpc"
  if !startsWithIgnoreCase value media then false
  else match value.drop media.length with
    | [] => true
    | ch :: more => ch == 43 && !more.isEmpty

/-- `grpc-timeout`: at most eight digits and one unit. Saturating at `u64`, as the source. -/
def timeoutNanos (text : Bytes) : Option Nat :=
  if text.length < 2 ∨ 9 < text.length then none
  else
    let digits := text.dropLast
    if !digits.all isDigit then none
    else match text.getLast? with
      | some 72 => some (min (decimal digits * 3600000000000) (2 ^ 64 - 1))
      | some 77 => some (min (decimal digits * 60000000000) (2 ^ 64 - 1))
      | some 83 => some (min (decimal digits * 1000000000) (2 ^ 64 - 1))
      | some 109 => some (min (decimal digits * 1000000) (2 ^ 64 - 1))
      | some 117 => some (min (decimal digits * 1000) (2 ^ 64 - 1))
      | some 110 => some (decimal digits)
      | _ => none

/-- When the client stops waiting, from the moment its HEADERS frame arrived. -/
def untilNs (text : Bytes) (headersNs : Nat) : Option Nat :=
  (timeoutNanos text).map fun ns => min (headersNs + ns) (2 ^ 64 - 1)

end Nilo.Http2
