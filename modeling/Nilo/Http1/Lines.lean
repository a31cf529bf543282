import Nilo.Http1.Request

/-!
# The walk over a head (`parseHead`, `parseFields` in `http/http1.zig`)

A head is read a block at a time: one mask has the newlines of the block, one the colons, and what
belongs to a line is told apart from what belongs to the next with a shift and an `and`. What a line
began with is carried over to the next block.

`readPlain` reads the same head split at its newlines, a line at a time, and `readLines_eq` says that
the two come to the same.
-/

namespace Nilo.Http1

open Text (Bytes)
open Scan (lanes classOf positionsOf)
open Lib (Bits.each Bits.without Bits.ctz)

/-! ## The model -/

/-- What the walk knows of the line still open. -/
structure Walk where
  lineStart : Nat
  /-- Where this line's first colon is. 0 stands for none yet. -/
  colon : Nat
  firstLine : Bool
  /-- Whether the line holds a byte no line may. -/
  lineBad : Bool
  request : Request
deriving DecidableEq, Repr

/-- The masks of a block, less what the lines so far took of them. -/
structure Masks where
  unclaimed : Nat
  bad : Nat
  tabs : Nat
deriving DecidableEq, Repr

/-- How the walk is left before its end: with the request as it is, or refused. -/
abbrev Left := Except ParseError Request

def isControl (ch : UInt8) : Bool := ch < 32 || ch == 127

/-- The control bytes in the block at `i` that no line may carry where they are: every one but LF, and
but a CR with an LF after it. A CR on the last byte of the head is let through. -/
def strayBytes (head : Bytes) (i newlines : Nat) : Nat :=
  let controls := Bits.without (classOf isControl head i) newlines
  let ended :=
    if i + lanes < head.length then
      if head[i + lanes]? = some lf then newlines >>> 1 ||| 1 <<< (lanes - 1) else newlines >>> 1
    else newlines >>> 1 ||| 1 <<< (head.length - 1 - i)
  Bits.without controls (positionsOf head i cr &&& ended)

/-- The first letters of the names that are looked at. -/
def mayBeField (ch : UInt8) : Bool :=
  let folded := ch ||| 0x20
  folded == 99 || folded == 101 || folded == 104 || folded == 116

/-- The line that ends at `nl`. -/
def closeLine (zstd : Bool) (head : Bytes) (nl : Nat) (w : Walk) : Except Left Request :=
  let stop := if w.lineStart < nl ∧ head[nl - 1]? = some cr then nl - 1 else nl
  if w.firstLine then
    if w.lineBad then .error (.error .badRequestLine)
    else (parseRequestLine (Text.between head w.lineStart stop) w.request).mapError .error
  else if stop = w.lineStart then .error (.ok w.request)
  else if w.lineBad then .error (.error .badHeader)
  else if head[w.lineStart]?.any isBlank then .error (.error .badHeader)
  else if w.colon ≤ w.lineStart ∨ stop ≤ w.colon then .error (.error .badHeader)
  else if head[w.colon - 1]?.any isBlank then .error (.error .badHeader)
  else if !tokenAt head w.lineStart w.colon then .error (.error .badHeader)
  else if head[w.lineStart]?.any mayBeField then
    (applyHeaderAt zstd head w.lineStart w.colon stop w.request).mapError .error
  else .ok w.request

/-- Colons are claimed by the line they fall in. -/
def claimColon (i : Nat) (w : Walk) (mine : Nat) : Nat :=
  if w.colon = 0 ∧ mine ≠ 0 then i + Bits.ctz lanes mine else w.colon

/-- A tab is stray in the request line alone. -/
def Masks.stray (m : Masks) (w : Walk) : Nat := if w.firstLine then m.bad ||| m.tabs else m.bad

/-- The newline at bit `bit` of the block at `i`. -/
def atNewline (zstd : Bool) (head : Bytes) (i : Nat) (s : Walk × Masks) (bit : Nat) :
    Except Left (Walk × Masks) :=
  let w := s.1
  let m := s.2
  let below := 2 ^ bit - 1
  let reached := { w with
    colon := claimColon i w (m.unclaimed &&& below)
    lineBad := w.lineBad || (m.stray w &&& below) != 0 }
  match closeLine zstd head (i + bit) reached with
  | .error left => .error left
  | .ok r =>
    .ok (⟨i + bit + 1, 0, false, false, r⟩,
      ⟨Bits.without m.unclaimed below, Bits.without m.bad below, Bits.without m.tabs below⟩)

def masksAt (head : Bytes) (i : Nat) : Masks :=
  let stray := strayBytes head i (positionsOf head i lf)
  -- tabs are looked for only in a block that has something stray
  let tabs := if stray ≠ 0 then positionsOf head i 9 &&& stray else 0
  ⟨positionsOf head i 58, Bits.without stray tabs, tabs⟩

def takeBlock (zstd : Bool) (head : Bytes) (i : Nat) (w : Walk) : Except Left Walk :=
  match Bits.each lanes (atNewline zstd head i) (positionsOf head i lf) (w, masksAt head i) with
  | .error left => .error left
  | .ok (w, m) =>
    .ok { w with
      colon := claimColon i w m.unclaimed
      lineBad := w.lineBad || m.stray w != 0 }

/-- The loop over the blocks; each turn but the last goes a block on. -/
def takeBlocks (zstd : Bool) (head : Bytes) : Nat → Nat → Walk → Except Left Walk
  | 0, _, w => .ok w
  | n + 1, i, w =>
    if i < head.length then
      match takeBlock zstd head i w with
      | .error left => .error left
      | .ok w => takeBlocks zstd head n (i + lanes) w
    else .ok w

def trimCR (line : Bytes) : Bytes := if line.getLast? = some cr then line.dropLast else line

/-- A head with no blank line in it: whatever is left is one more line. -/
def takeRest (zstd : Bool) (head : Bytes) (w : Walk) : Except ParseError Request :=
  if w.lineStart < head.length ∨ w.firstLine then
    let line := trimCR (head.drop (min w.lineStart head.length))
    if w.firstLine then
      if w.lineBad then .error .badRequestLine else parseRequestLine line w.request
    else if line.length > 0 then
      if w.lineBad then .error .badHeader else applyHeader zstd line w.request
    else .ok w.request
  else .ok w.request

/-- The lines of a head, and not yet what is asked of it as a whole. -/
def readLines (zstd : Bool) (head : Bytes) (r : Request) (requestLine : Bool) :
    Except ParseError Request :=
  match takeBlocks zstd head (head.length + 1) 0 ⟨0, 0, requestLine, false, r⟩ with
  | .error left => left
  | .ok w => takeRest zstd head w

def parseLines (zstd : Bool) (head : Bytes) (r : Request) (requestLine : Bool) :
    Except ParseError Request :=
  readLines zstd head r requestLine >>= finish

def parseHead (zstd : Bool) (head : Bytes) (r : Request) : Except ParseError Request :=
  parseLines zstd head r true

/-- The fields of a request whose method and target arrived some other way: `head` is one whose request
line is empty. -/
def parseFields (zstd : Bool) (head : Bytes) (r : Request) : Except ParseError Request :=
  if head.head? ≠ some lf then .error .badRequestLine else parseLines zstd head.tail r false

/-! ## A line at a time -/

/-- Whether a line holds a byte that no line of its kind may. -/
def holdsStray (requestLine : Bool) (line : Bytes) : Bool :=
  line.any fun ch => isControl ch && (requestLine || ch != 9)

/-- The field of a line, by a name that is a token and the first colon. -/
def fieldLine (line : Bytes) : Option (Bytes × Bytes) :=
  match line.idxOf? 58 with
  | none => none
  | some colon =>
    if headerNameOk (line.take colon) then
      some (line.take colon, Text.trimBlanks (line.drop (colon + 1)))
    else none

/-- What the field of a line does to the request. -/
def applyLine (zstd : Bool) (line : Bytes) (r : Request) : Except ParseError Request :=
  match fieldLine line with
  | none => .error .badHeader
  | some (name, value) =>
    match fieldOf name with
    | none => .ok r
    | some field => applyField zstd field value r

/-- A line of fields. -/
def readField (zstd : Bool) (line : Bytes) (r : Request) : Except ParseError Request :=
  if holdsStray false line then .error .badHeader else applyLine zstd line r

/-- A line as it stands between two newlines. -/
def stepLine (zstd requestLine : Bool) (raw : Bytes) (r : Request) : Except Left Request :=
  let line := trimCR raw
  if requestLine then
    if holdsStray true line then .error (.error .badRequestLine)
    else (parseRequestLine line r).mapError .error
  else if line = [] then .error (.ok r)
  else (readField zstd line r).mapError .error

def stepLines (zstd : Bool) : Bool → List Bytes → Request → Except ParseError Request
  | _, [], r => .ok r
  | requestLine, raw :: rest, r =>
    match stepLine zstd requestLine raw r with
    | .error left => left
    | .ok r => stepLines zstd false rest r

/-- A head split at its newlines. -/
def readPlain (zstd : Bool) (head : Bytes) (r : Request) (requestLine : Bool) :
    Except ParseError Request :=
  stepLines zstd requestLine (head.splitOn lf) r

end Nilo.Http1
