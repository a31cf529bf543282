import Nilo.Std.Text

/-!
# Chunked bodies (`readChunkedBody`, `discardChunkedBody` in `http/http1.zig`)

A chunked body is a size in hex, that many bytes, and again, until a size of zero and the
trailers after it. The connection is the bytes it will still hand over, and how it ends after
them; a line has to fit the buffer it is read into. Both readers of a whole body are here; the
one that reads it in pieces is in `Http1.Body`.
-/

namespace Nilo.Http1

open Text (Bytes)

inductive ReadError where
  | badChunk
  | bodyTooLarge
  | bodyTruncated
  | streamTooLong
  | endOfStream
  | readFailed
deriving DecidableEq, Repr

/-! ## The connection -/

/-- What a read past the last byte of a connection says. -/
inductive Ending where
  | endOfStream
  | readFailed
deriving DecidableEq, Repr

def Ending.error : Ending → ReadError
  | .endOfStream => .endOfStream
  | .readFailed => .readFailed

/-- What does not change while a connection is read: the length of its buffer, and how it
ends. -/
structure Source where
  room : Nat
  ending : Ending
deriving DecidableEq, Repr

/-- `takeDelimiterInclusive('\n')`: the line has to fit the buffer. -/
def takeLine (src : Source) (wire : Bytes) : Except ReadError (Bytes × Bytes) :=
  let line := wire.takeWhile (· ≠ 10)
  if line.length < wire.length ∧ line.length < src.room then
    .ok (line ++ [10], wire.drop (line.length + 1))
  else if src.room ≤ wire.length then .error .streamTooLong
  else .error src.ending.error

/-- `readSliceAll`, and `discardAll64` for what it reads. -/
def readAll (src : Source) (n : Nat) (wire : Bytes) : Except ReadError (Bytes × Bytes) :=
  if n ≤ wire.length then .ok (wire.take n, wire.drop n) else .error src.ending.error

/-! ## Framing -/

/-- A line of chunked framing: everything before a CRLF. A bare LF is refused. -/
def takeChunkLine (src : Source) (wire : Bytes) : Except ReadError (Bytes × Bytes) :=
  match takeLine src wire with
  | .error e => .error e
  | .ok (raw, wire) =>
    if raw.length < 2 ∨ raw[raw.length - 2]? ≠ some 13 then .error .badChunk
    else .ok (raw.take (raw.length - 2), wire)

/-- `std.fmt.charToDigit(c, 16)`. -/
def charToDigit (c : UInt8) : Option Nat :=
  if 48 ≤ c ∧ c ≤ 57 then some (c.toNat - 48)
  else if 97 ≤ c ∧ c ≤ 102 then some (c.toNat - 87)
  else if 65 ≤ c ∧ c ≤ 70 then some (c.toNat - 55)
  else none

/-- One digit of a size, with the checked arithmetic of `u64`. -/
def hexDigit (n : Nat) (c : UInt8) : Option Nat :=
  match charToDigit c with
  | none => none
  | some d => if 2 ^ 64 ≤ n * 16 + d then none else some (n * 16 + d)

/-- A chunk size, strictly one hex digit or more. -/
def hexOnly (text : Bytes) : Option Nat :=
  if text = [] then none else text.foldlM hexDigit 0

/-- The size line of a chunk, with what follows a `;` left out. -/
def readChunkSize (src : Source) (wire : Bytes) : Except ReadError (Nat × Bytes) :=
  match takeChunkLine src wire with
  | .error _ => .error .badChunk
  | .ok (line, wire) =>
    let size := line.takeWhile (· ≠ 59)
    if (line.drop size.length).any fun c => (c < 0x20 && c ≠ 9) || c = 0x7f then .error .badChunk
    else match hexOnly size with
      | none => .error .badChunk
      | some n => .ok (n, wire)

/-- A chunk's data is followed by its own CRLF. -/
def endOfChunk (src : Source) (wire : Bytes) : Except ReadError Bytes :=
  match takeChunkLine src wire with
  | .error _ => .error .badChunk
  | .ok (line, wire) => if line ≠ [] then .error .badChunk else .ok wire

theorem takeLine_length {src : Source} {wire raw rest : Bytes}
    (h : takeLine src wire = .ok (raw, rest)) : rest.length < wire.length := by
  simp only [takeLine] at h
  split_ifs at h with hline
  cases h
  rw [List.length_drop]
  omega

theorem takeChunkLine_length {src : Source} {wire line rest : Bytes}
    (h : takeChunkLine src wire = .ok (line, rest)) : rest.length < wire.length := by
  unfold takeChunkLine at h
  split at h
  · cases h
  · rename_i raw wire' hline
    split_ifs at h
    cases h
    exact takeLine_length hline

theorem readChunkSize_length {src : Source} {wire rest : Bytes} {n : Nat}
    (h : readChunkSize src wire = .ok (n, rest)) : rest.length < wire.length := by
  simp only [readChunkSize] at h
  split at h
  · cases h
  · rename_i line wire' hline
    split_ifs at h
    split at h
    · cases h
    · cases h
      exact takeChunkLine_length hline

theorem endOfChunk_length {src : Source} {wire rest : Bytes}
    (h : endOfChunk src wire = .ok rest) : rest.length < wire.length := by
  unfold endOfChunk at h
  split at h
  · cases h
  · rename_i line wire' hline
    split_ifs at h
    cases h
    exact takeChunkLine_length hline

theorem readAll_length {src : Source} {wire bytes rest : Bytes} {n : Nat}
    (h : readAll src n wire = .ok (bytes, rest)) : rest.length ≤ wire.length := by
  unfold readAll at h
  split_ifs at h
  cases h
  rw [List.length_drop]
  omega

/-- How much trailer section a chunked body may carry. -/
def maxTrailerBytes : Nat := 8 * 1024

/-- Past the trailers. A client that closes straight after the last chunk has still sent a
complete body. -/
def skipTrailers (src : Source) (seen : Nat) (wire : Bytes) : Except ReadError Bytes :=
  match h : takeChunkLine src wire with
  | .error .endOfStream => .ok wire
  | .error e => .error e
  | .ok (line, rest) =>
    if line = [] then .ok rest
    else if seen + (line.length + 2) > maxTrailerBytes then .error .badChunk
    else skipTrailers src (seen + (line.length + 2)) rest
termination_by wire.length
decreasing_by exact takeChunkLine_length h

/-! ## A whole body -/

/-- How much of a chunk has to arrive before the rest of it is committed. -/
def sizedBodyStep : Nat := 4096

/-- The data of a chunk: a page first, the rest once that has arrived. -/
def readChunk (src : Source) (n : Nat) (wire : Bytes) : Except ReadError (Bytes × Bytes) :=
  let first := min n sizedBodyStep
  match readAll src first wire with
  | .error e => .error e
  | .ok (head, wire) =>
    if n > first then
      match readAll src (n - first) wire with
      | .error e => .error e
      | .ok (rest, wire) => .ok (head ++ rest, wire)
    else .ok (head, wire)

theorem readAll_of_le {src : Source} {n : Nat} {wire : Bytes} (h : n ≤ wire.length) :
    readAll src n wire = .ok (wire.take n, wire.drop n) := if_pos h

theorem readAll_of_lt {src : Source} {n : Nat} {wire : Bytes} (h : wire.length < n) :
    readAll src n wire = .error src.ending.error := if_neg (Nat.not_le_of_lt h)

/-- Two reads one after the other come to one. -/
theorem readAll_add {src : Source} {n k : Nat} {wire : Bytes} (hn : n ≤ wire.length) :
    (match readAll src k (wire.drop n) with
      | .error e => .error e
      | .ok (rest, wire') => .ok (wire.take n ++ rest, wire')) = readAll src (n + k) wire := by
  by_cases hk : n + k ≤ wire.length
  · rw [readAll_of_le hk, readAll_of_le (by rw [List.length_drop]; omega), List.drop_drop,
      List.take_add]
  · have hshort : (wire.drop n).length < k := by
      rw [List.length_drop]
      omega
    rw [readAll_of_lt hshort, readAll_of_lt (by omega)]

/-- So a chunk is read whole, whatever the first step is. -/
theorem readChunk_eq {src : Source} {n : Nat} {wire : Bytes} :
    readChunk src n wire = readAll src n wire := by
  simp only [readChunk]
  by_cases hfirst : min n sizedBodyStep ≤ wire.length
  · rw [readAll_of_le hfirst]
    by_cases hmore : n > min n sizedBodyStep
    · have hsum : min n sizedBodyStep + (n - min n sizedBodyStep) = n := by omega
      simp only [hmore, if_true]
      rw [readAll_add hfirst, hsum]
    · have hall : min n sizedBodyStep = n := by omega
      simp only [hmore, if_false]
      rw [hall, readAll_of_le (by omega)]
  · rw [readAll_of_lt (by omega), readAll_of_lt (by omega)]

/-- The loop of `readChunkedBody`, over what is held of the body so far. -/
def readChunkedFrom (src : Source) (limit : Nat) (body wire : Bytes) :
    Except ReadError (Bytes × Bytes) :=
  match h : readChunkSize src wire with
  | .error e => .error e
  | .ok (size, wire₁) =>
    if size = 0 then
      match skipTrailers src 0 wire₁ with
      | .error e => .error e
      | .ok rest => .ok (body, rest)
    else if size > limit - body.length then .error .bodyTooLarge
    else
      match hc : readChunk src size wire₁ with
      | .error e => .error e
      | .ok (chunk, wire₂) =>
        match he : endOfChunk src wire₂ with
        | .error e => .error e
        | .ok wire₃ => readChunkedFrom src limit (body ++ chunk) wire₃
termination_by wire.length
decreasing_by
  have h1 := readChunkSize_length h
  rw [readChunk_eq] at hc
  have h2 := readAll_length hc
  have h3 := endOfChunk_length he
  omega

/-- The body, and where the connection is left. -/
def readChunkedBody (src : Source) (limit : Nat) (wire : Bytes) : Except ReadError (Bytes × Bytes) :=
  readChunkedFrom src limit [] wire

/-- The loop of `discardChunkedBody`, over how much went by so far. -/
def discardChunkedFrom (src : Source) (limit seen : Nat) (wire : Bytes) : Except ReadError Bytes :=
  match h : readChunkSize src wire with
  | .error e => .error e
  | .ok (size, wire₁) =>
    if size = 0 then skipTrailers src 0 wire₁
    else if size > limit - seen then .error .bodyTooLarge
    else
      match hc : readAll src size wire₁ with
      | .error e => .error e
      | .ok (_, wire₂) =>
        match he : endOfChunk src wire₂ with
        | .error e => .error e
        | .ok wire₃ => discardChunkedFrom src limit (seen + size) wire₃
termination_by wire.length
decreasing_by
  have h1 := readChunkSize_length h
  have h2 := readAll_length hc
  have h3 := endOfChunk_length he
  omega

def discardChunkedBody (src : Source) (limit : Nat) (wire : Bytes) : Except ReadError Bytes :=
  discardChunkedFrom src limit 0 wire

/-! ## One turn of the loop -/

variable {src : Source} {limit n : Nat} {body wire rest : Bytes}

/-- What is left to do inside a chunk: its data, its CRLF, and on with the loop. -/
def finishChunk (src : Source) (limit left : Nat) (body wire : Bytes) :
    Except ReadError (Bytes × Bytes) :=
  match readAll src left wire with
  | .error e => .error e
  | .ok (chunk, wire) =>
    match endOfChunk src wire with
    | .error e => .error e
    | .ok wire => readChunkedFrom src limit (body ++ chunk) wire

/-- The end of the body: the trailers after a size of zero. -/
def finishBody (src : Source) (body wire : Bytes) : Except ReadError (Bytes × Bytes) :=
  match skipTrailers src 0 wire with
  | .error e => .error e
  | .ok rest => .ok (body, rest)

theorem readChunkedFrom_eq : readChunkedFrom src limit body wire =
    match readChunkSize src wire with
    | .error e => .error e
    | .ok (size, wire₁) =>
      if size = 0 then finishBody src body wire₁
      else if size > limit - body.length then .error .bodyTooLarge
      else finishChunk src limit size body wire₁ := by
  rw [readChunkedFrom]
  split
  · rename_i hsize
    rw [hsize]
  · rename_i size wire₁ hsize
    rw [hsize]
    simp only [finishBody, finishChunk]
    split_ifs
    · rfl
    · rfl
    · split
      · rename_i hread
        rw [readChunk_eq] at hread
        rw [hread]
      · rename_i chunk wire₂ hread
        rw [readChunk_eq] at hread
        rw [hread]
        simp only
        split
        · rename_i hend
          rw [hend]
        · rename_i hend
          rw [hend]

theorem discardChunkedFrom_eq {seen : Nat} : discardChunkedFrom src limit seen wire =
    match readChunkSize src wire with
    | .error e => .error e
    | .ok (size, wire₁) =>
      if size = 0 then skipTrailers src 0 wire₁
      else if size > limit - seen then .error .bodyTooLarge
      else
        match readAll src size wire₁ with
        | .error e => .error e
        | .ok (_, wire₂) =>
          match endOfChunk src wire₂ with
          | .error e => .error e
          | .ok wire₃ => discardChunkedFrom src limit (seen + size) wire₃ := by
  rw [discardChunkedFrom]
  split
  · rename_i hsize
    rw [hsize]
  · rename_i size wire₁ hsize
    rw [hsize]
    simp only
    split_ifs
    · rfl
    · rfl
    · split
      · rename_i hread
        rw [hread]
      · rename_i chunk wire₂ hread
        rw [hread]
        simp only
        split
        · rename_i hend
          rw [hend]
        · rename_i hend
          rw [hend]

theorem readAll_bytes {bytes : Bytes} (h : readAll src n wire = .ok (bytes, rest)) :
    bytes.length = n ∧ wire = bytes ++ rest := by
  unfold readAll at h
  split_ifs at h with hn
  cases h
  exact ⟨by rw [List.length_take]; omega, (List.take_append_drop n wire).symm⟩

/-- Discarding goes through the same turns as reading, and ends where it does. -/
theorem discardChunkedFrom_read (src : Source) (limit : Nat) (body wire : Bytes) :
    discardChunkedFrom src limit body.length wire =
      (readChunkedFrom src limit body wire).map Prod.snd := by
  induction hlen : wire.length using Nat.strong_induction_on generalizing body wire with
  | _ k ih =>
    subst hlen
    rw [discardChunkedFrom_eq, readChunkedFrom_eq]
    cases hsize : readChunkSize src wire with
    | error e => rfl
    | ok p =>
      obtain ⟨size, wire₁⟩ := p
      simp only
      split_ifs
      · unfold finishBody
        cases skipTrailers src 0 wire₁ <;> rfl
      · rfl
      · unfold finishChunk
        cases hread : readAll src size wire₁ with
        | error e => rfl
        | ok q =>
          obtain ⟨chunk, wire₂⟩ := q
          simp only
          cases hend : endOfChunk src wire₂ with
          | error e => rfl
          | ok wire₃ =>
            have h1 := readChunkSize_length hsize
            have h2 := readAll_length hread
            have h3 := endOfChunk_length hend
            have hnext := ih wire₃.length (by omega) (body ++ chunk) wire₃ rfl
            rw [List.length_append, (readAll_bytes hread).1] at hnext
            exact hnext

/-! ## The grammar -/

/-- These bytes are whole chunks of data, up to here. -/
inductive Chunks (src : Source) : (wire body rest : Bytes) → Prop
  | nil (wire : Bytes) : Chunks src wire [] wire
  | cons {wire wire₁ wire₂ wire₃ rest chunk body : Bytes} {size : Nat} :
    readChunkSize src wire = .ok (size, wire₁) → size ≠ 0 →
    readAll src size wire₁ = .ok (chunk, wire₂) → endOfChunk src wire₂ = .ok wire₃ →
    Chunks src wire₃ body rest → Chunks src wire (chunk ++ body) rest

theorem readChunkSize_error {e : ReadError} (h : readChunkSize src wire = .error e) :
    e = .badChunk := by
  simp only [readChunkSize] at h
  split at h
  · cases h
    rfl
  · split_ifs at h
    · cases h
      rfl
    · split at h <;> cases h
      rfl

theorem endOfChunk_error {e : ReadError} (h : endOfChunk src wire = .error e) : e = .badChunk := by
  unfold endOfChunk at h
  split at h
  · cases h
    rfl
  · split_ifs at h
    cases h
    rfl

theorem readAll_error {e : ReadError} (h : readAll src n wire = .error e) :
    e = src.ending.error := by
  unfold readAll at h
  split_ifs at h
  cases h
  rfl

theorem ending_ne_tooLarge {ending : Ending} : ending.error ≠ .bodyTooLarge := by
  cases ending <;> decide

theorem takeChunkLine_ne_tooLarge : takeChunkLine src wire ≠ .error .bodyTooLarge := by
  simp only [takeChunkLine, takeLine]
  intro h
  split at h
  · rename_i hline
    split_ifs at hline
    · cases hline
      cases h
    · cases hline
      cases hend : src.ending <;> rw [hend] at h <;> cases h
  · split_ifs at h
    cases h

theorem skipTrailers_eq {seen : Nat} : skipTrailers src seen wire =
    match takeChunkLine src wire with
    | .error .endOfStream => .ok wire
    | .error e => .error e
    | .ok (line, rest) =>
      if line = [] then .ok rest
      else if seen + (line.length + 2) > maxTrailerBytes then .error .badChunk
      else skipTrailers src (seen + (line.length + 2)) rest := by
  rw [skipTrailers]
  split
  · rename_i h
    rw [h]
  · rename_i e hne h
    rw [h]
    cases e <;> first | rfl | exact absurd rfl hne
  · rename_i line rest h
    rw [h]

theorem skipTrailers_ne_tooLarge (src : Source) (seen : Nat) (wire : Bytes) :
    skipTrailers src seen wire ≠ .error .bodyTooLarge := by
  induction hlen : wire.length using Nat.strong_induction_on generalizing seen wire with
  | _ k ih =>
    subst hlen
    rw [skipTrailers_eq]
    cases hline : takeChunkLine src wire with
    | error e =>
      intro h
      cases e <;> cases h
      exact takeChunkLine_ne_tooLarge hline
    | ok p =>
      obtain ⟨line, rest⟩ := p
      simp only
      split_ifs
      · simp
      · simp
      · exact ih rest.length (takeChunkLine_length hline) _ rest rfl

/-- What a loop that has come this far ends in, by what is on the wire: the data of whole
chunks and then the trailers, or a size that takes the body past the limit. -/
structure Accepts (src : Source) (limit : Nat) (wire body rest : Bytes) : Prop where
  within : body.length ≤ limit
  framed : ∃ wire₁ wire₂, Chunks src wire body wire₁ ∧
    readChunkSize src wire₁ = .ok (0, wire₂) ∧ skipTrailers src 0 wire₂ = .ok rest

/-- Some chunk's size takes the decoded length past the limit. -/
def Passes (src : Source) (limit : Nat) (wire : Bytes) : Prop :=
  ∃ body wire₁ size wire₂, Chunks src wire body wire₁ ∧ body.length ≤ limit ∧
    readChunkSize src wire₁ = .ok (size, wire₂) ∧ limit < body.length + size

/-- Going on through whole chunks. -/
theorem readChunkedFrom_chunks {held more : Bytes} (h : Chunks src wire more rest)
    (hle : (held ++ more).length ≤ limit) :
    readChunkedFrom src limit held wire = readChunkedFrom src limit (held ++ more) rest := by
  induction h generalizing held with
  | nil wire => rw [List.append_nil]
  | @cons wire wire₁ wire₂ wire₃ rest chunk body size hsize hne hread hend _ ih =>
    have hlen := (readAll_bytes hread).1
    simp only [List.length_append] at hle
    rw [readChunkedFrom_eq, hsize]
    simp only [hne, if_false, finishChunk, hread, hend]
    rw [if_neg (by omega), ih (by simp only [List.length_append]; omega), List.append_assoc]

/-- The loop ends in one of three ways, and which is written on the wire. -/
theorem readChunkedFrom_cases (src : Source) (limit : Nat) (held wire : Bytes)
    (hheld : held.length ≤ limit) :
    ∃ more wire₁, Chunks src wire more wire₁ ∧ (held ++ more).length ≤ limit ∧
      ((∃ wire₂ rest, readChunkSize src wire₁ = .ok (0, wire₂) ∧ skipTrailers src 0 wire₂ = .ok rest ∧
          readChunkedFrom src limit held wire = .ok (held ++ more, rest)) ∨
        (∃ size wire₂, readChunkSize src wire₁ = .ok (size, wire₂) ∧
          limit < (held ++ more).length + size ∧
          readChunkedFrom src limit held wire = .error .bodyTooLarge) ∨
        ∃ e, e ≠ .bodyTooLarge ∧ readChunkedFrom src limit held wire = .error e) := by
  induction hlen : wire.length using Nat.strong_induction_on generalizing held wire with
  | _ k ih =>
    subst hlen
    rw [readChunkedFrom_eq]
    have hnil : (held ++ []).length ≤ limit := by simpa using hheld
    cases hsize : readChunkSize src wire with
    | error e =>
      refine ⟨[], wire, .nil wire, hnil, .inr (.inr ⟨e, ?_, rfl⟩)⟩
      rw [readChunkSize_error hsize]
      decide
    | ok p =>
      obtain ⟨size, wire₁⟩ := p
      simp only
      split_ifs with hzero hover
      · subst hzero
        refine ⟨[], wire, .nil wire, hnil, ?_⟩
        unfold finishBody
        cases hskip : skipTrailers src 0 wire₁ with
        | error e =>
          refine .inr (.inr ⟨e, ?_, rfl⟩)
          rintro rfl
          exact skipTrailers_ne_tooLarge _ _ _ hskip
        | ok rest => exact .inl ⟨wire₁, rest, hsize, hskip, by simp⟩
      · refine ⟨[], wire, .nil wire, hnil, .inr (.inl ⟨size, wire₁, hsize, ?_, rfl⟩)⟩
        simp only [List.append_nil]
        omega
      · unfold finishChunk
        cases hread : readAll src size wire₁ with
        | error e =>
          refine ⟨[], wire, .nil wire, hnil, .inr (.inr ⟨e, ?_, rfl⟩)⟩
          rw [readAll_error hread]
          exact ending_ne_tooLarge
        | ok q =>
          obtain ⟨chunk, wire₂⟩ := q
          have hchunk := (readAll_bytes hread).1
          simp only
          cases hend : endOfChunk src wire₂ with
          | error e =>
            refine ⟨[], wire, .nil wire, hnil, .inr (.inr ⟨e, ?_, rfl⟩)⟩
            rw [endOfChunk_error hend]
            decide
          | ok wire₃ =>
            have h1 := readChunkSize_length hsize
            have h2 := readAll_length hread
            have h3 := endOfChunk_length hend
            have hnext : (held ++ chunk).length ≤ limit := by
              rw [List.length_append]
              omega
            obtain ⟨more, wire₄, hmore, hle, hrest⟩ :=
              ih wire₃.length (by omega) (held ++ chunk) wire₃ hnext rfl
            refine ⟨chunk ++ more, wire₄, .cons hsize hzero hread hend hmore, ?_, ?_⟩
            · rw [← List.append_assoc]
              exact hle
            · rw [← List.append_assoc]
              exact hrest

/-- A body is accepted when it is well framed and no longer than the limit. -/
theorem readChunkedBody_ok : readChunkedBody src limit wire = .ok (body, rest) ↔
    Accepts src limit wire body rest := by
  constructor
  · intro h
    obtain ⟨more, wire₁, hmore, hle, hcase⟩ :=
      readChunkedFrom_cases src limit [] wire (Nat.zero_le _)
    rw [readChunkedBody] at h
    rcases hcase with ⟨wire₂, rest', hsize, hskip, heq⟩ | ⟨size, wire₂, -, -, heq⟩ | ⟨e, -, heq⟩
    · rw [h] at heq
      cases heq
      exact ⟨hle, wire₁, wire₂, hmore, hsize, hskip⟩
    · rw [h] at heq
      cases heq
    · rw [h] at heq
      cases heq
  · rintro ⟨hle, wire₁, wire₂, hmore, hsize, hskip⟩
    rw [readChunkedBody, readChunkedFrom_chunks hmore (by simpa using hle), readChunkedFrom_eq, hsize]
    simp only [if_true, finishBody, hskip, List.nil_append]

/-- And refused as too large exactly when its decoded length passes the limit. -/
theorem readChunkedBody_tooLarge : readChunkedBody src limit wire = .error .bodyTooLarge ↔
    Passes src limit wire := by
  constructor
  · intro h
    obtain ⟨more, wire₁, hmore, hle, hcase⟩ :=
      readChunkedFrom_cases src limit [] wire (Nat.zero_le _)
    rw [readChunkedBody] at h
    rcases hcase with ⟨wire₂, rest', -, -, heq⟩ | ⟨size, wire₂, hsize, hlt, -⟩ | ⟨e, hne, heq⟩
    · rw [h] at heq
      cases heq
    · exact ⟨more, wire₁, size, wire₂, hmore, hle, hsize, hlt⟩
    · rw [h] at heq
      cases heq
      exact absurd rfl hne
  · rintro ⟨body, wire₁, size, wire₂, hmore, hle, hsize, hlt⟩
    rw [readChunkedBody, readChunkedFrom_chunks hmore (by simpa using hle), readChunkedFrom_eq, hsize]
    simp only [List.nil_append]
    rw [if_neg (by omega), if_pos (by omega)]

/-! ## Where the connection is left -/

def crlf : Bytes := [13, 10]

/-- A line break is in the bytes when they go on past those before the first. -/
theorem line_split : ∀ {wire : Bytes}, (wire.takeWhile (· ≠ 10)).length < wire.length →
    wire = wire.takeWhile (· ≠ 10) ++ 10 :: wire.drop ((wire.takeWhile (· ≠ 10)).length + 1)
  | [], h => by simp at h
  | c :: wire, h => by
    by_cases hc : c = 10
    · subst hc
      simp
    · simp only [List.takeWhile_cons, ne_eq, hc, not_false_eq_true, decide_true, if_true,
        List.length_cons, Nat.add_lt_add_iff_right] at h ⊢
      conv_lhs => rw [line_split h]
      simp

theorem no_line : ∀ {wire : Bytes}, ¬ (wire.takeWhile (· ≠ 10)).length < wire.length → 10 ∉ wire
  | [], _ => by simp
  | c :: wire, h => by
    by_cases hc : c = 10
    · subst hc
      simp at h
    · simp only [List.takeWhile_cons, ne_eq, hc, not_false_eq_true, decide_true, if_true,
        List.length_cons, Nat.add_lt_add_iff_right] at h
      have := no_line h
      simp only [List.mem_cons, not_or]
      exact ⟨fun h => hc h.symm, this⟩

/-- A line read whole that has a CR before its break is what comes before both. -/
theorem chop_cr {l : Bytes} (hlen : ¬ (l ++ [10]).length < 2)
    (hcr : (l ++ [10])[(l ++ [10]).length - 2]? = some 13) :
    l = (l ++ [10]).take ((l ++ [10]).length - 2) ++ [13] := by
  rcases List.eq_nil_or_concat l with rfl | ⟨pre, c, rfl⟩
  · simp at hlen
  · have hat : (pre.concat c ++ [10]).length - 2 = pre.length := by simp
    rw [hat, List.concat_eq_append, List.append_assoc, List.getElem?_append_right (Nat.le_refl _)] at hcr
    have hc : c = 13 := by simpa using hcr
    rw [hat, List.concat_eq_append, List.append_assoc, List.take_left', hc]
    rfl

theorem takeChunkLine_eq {line : Bytes} (h : takeChunkLine src wire = .ok (line, rest)) :
    wire = line ++ crlf ++ rest := by
  simp only [takeChunkLine, takeLine] at h
  split at h
  · cases h
  · rename_i raw wire' hline
    split_ifs at hline with hroom
    cases hline
    split_ifs at h with hcr
    cases h
    rw [not_or, not_not] at hcr
    have hchop := chop_cr hcr.1 hcr.2
    generalize hl : wire.takeWhile (· ≠ 10) = l at hroom hchop ⊢
    have hwire : wire = l ++ 10 :: wire.drop (l.length + 1) := by
      have := line_split (hl ▸ hroom.1)
      rwa [hl] at this
    exact calc wire = l ++ 10 :: wire.drop (l.length + 1) := hwire
      _ = ((l ++ [10]).take ((l ++ [10]).length - 2) ++ [13]) ++ 10 :: wire.drop (l.length + 1) := by
        rw [← hchop]
      _ = (l ++ [10]).take ((l ++ [10]).length - 2) ++ crlf ++ wire.drop (l.length + 1) := by
        simp only [crlf, List.append_assoc, List.cons_append, List.nil_append]

/-- A connection that ended had no line left. -/
theorem takeChunkLine_ended (h : takeChunkLine src wire = .error .endOfStream) :
    src.ending = .endOfStream ∧ 10 ∉ wire := by
  simp only [takeChunkLine, takeLine] at h
  split at h
  · rename_i e hline
    cases h
    split_ifs at hline with hroom hlong
    · cases hline
    · have hend : src.ending = .endOfStream := by
        cases hsrc : src.ending with
        | endOfStream => rfl
        | readFailed =>
          rw [hsrc] at hline
          cases hline
      refine ⟨hend, no_line ?_⟩
      omega
  · split_ifs at h
    cases h

/-- The trailers: lines that are not blank, then a blank one, or the end of the connection. -/
theorem skipTrailers_left (src : Source) (seen : Nat) (wire rest : Bytes)
    (h : skipTrailers src seen wire = .ok rest) :
    ∃ lines : List Bytes, (∀ line ∈ lines, line ≠ []) ∧
      (wire = lines.flatMap (· ++ crlf) ++ crlf ++ rest ∨
        src.ending = .endOfStream ∧ 10 ∉ rest ∧ wire = lines.flatMap (· ++ crlf) ++ rest) := by
  induction hlen : wire.length using Nat.strong_induction_on generalizing seen wire with
  | _ k ih =>
    subst hlen
    rw [skipTrailers_eq] at h
    cases hline : takeChunkLine src wire with
    | error e =>
      rw [hline] at h
      have he : e = .endOfStream := by cases e <;> first | rfl | cases h
      subst he
      cases h
      obtain ⟨hend, hno⟩ := takeChunkLine_ended hline
      exact ⟨[], by simp, .inr ⟨hend, hno, rfl⟩⟩
    | ok p =>
      obtain ⟨line, wire₁⟩ := p
      rw [hline] at h
      have hwire := takeChunkLine_eq hline
      simp only at h
      split_ifs at h with hblank hlong
      · cases h
        subst hblank
        exact ⟨[], by simp, .inl (by simpa using hwire)⟩
      · obtain ⟨lines, hlines, hrest⟩ :=
          ih wire₁.length (takeChunkLine_length hline) _ wire₁ h rfl
        refine ⟨line :: lines, ?_, ?_⟩
        · intro l hl
          rcases List.mem_cons.1 hl with rfl | hl
          · exact hblank
          · exact hlines l hl
        · rcases hrest with hrest | ⟨hend, hno, hrest⟩
          · refine .inl ?_
            conv_lhs => rw [hwire, hrest]
            simp
          · refine .inr ⟨hend, hno, ?_⟩
            conv_lhs => rw [hwire, hrest]
            simp

end Nilo.Http1
