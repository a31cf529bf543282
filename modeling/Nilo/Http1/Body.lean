import Nilo.Http1.Chunked

/-!
# Reading a body in pieces (`Body`, `Progress` in `http/body.zig`)

`Body` hands a body out as the caller asks for it, through the same framing as the readers of
a whole one, and counts what went by in a `u64`. A read asks for so many bytes and the
connection hands over as many as it has ready; throwing bytes away goes the same way. The
results compare whole runs of reads with `readChunkedBody` and `discardChunkedBody`.

The count is added to the size of a chunk before it is compared with the limit, so it wraps
for a size the client chooses near `2 ^ 64`; `Modest` is that it does not.
-/

namespace Nilo.Http1

open Text (Bytes)

/-! ## The model -/

/-- How far through a body the reader has got. -/
inductive State where
  /-- Bytes still to come in a `Content-Length` body. -/
  | sized (left : Nat)
  /-- Bytes still to come in the chunk being read. -/
  | chunk (left : Nat)
  /-- The next thing on the wire is a size line. -/
  | between
  | done
  /-- The connection is at an unknown byte. -/
  | broken
  /-- The connection ended with bytes still owed. -/
  | cut
deriving DecidableEq, Repr

/-- A body and the connection it is read from. -/
structure Body where
  wire : Bytes
  state : State
  seen : Nat
  maxBytes : Nat
deriving DecidableEq, Repr

namespace Body

/-- A chunked body before its first read. -/
def start (wire : Bytes) (maxBytes : Nat) : Body := ⟨wire, .between, 0, maxBytes⟩

def breakOff (b : Body) : Body := { b with state := .broken }

/-- The `between` turn of `runLength`. The count is a `u64`, and wraps. -/
def nextChunk (src : Source) (b : Body) : Option Nat × Body :=
  match readChunkSize src b.wire with
  | .error _ => (none, b.breakOff)
  | .ok (size, wire) =>
    if size = 0 then
      match skipTrailers src 0 wire with
      | .error _ => (none, b.breakOff)
      | .ok wire => (some 0, { b with wire := wire, state := .done })
    else
      let sum := (b.seen + size) % 2 ^ 64
      if sum > b.maxBytes then (none, { b with wire := wire, seen := sum, state := .broken })
      else (some size, { b with wire := wire, state := .chunk size })

/-- How many bytes may be taken straight from the connection, past the framing; zero once the
body is over. -/
def runLength (src : Source) (b : Body) : Option Nat × Body :=
  match b.state with
  | .sized left => (some left, b)
  | .chunk left =>
    if left > 0 then (some left, b)
    else match endOfChunk src b.wire with
      | .error _ => (none, b.breakOff)
      | .ok wire => nextChunk src { b with wire := wire, state := .between }
  | .between => nextChunk src b
  | .done => (some 0, b)
  | .broken | .cut => (none, b)

/-- What a failed read was. -/
def explain (b : Body) : ReadError :=
  match b.state with
  | .cut => .bodyTruncated
  | .broken => if b.seen > b.maxBytes then .bodyTooLarge else .badChunk
  | _ => .readFailed

def advance (b : Body) (n : Nat) : Body :=
  { b with
    seen := b.seen + n
    state := match b.state with
      | .sized left => if left - n = 0 then .done else .sized (left - n)
      | .chunk left => .chunk (left - n)
      | state => state }

/-- One read: how much is asked for, and how much of it the connection has ready. -/
structure Ask where
  limit : Nat
  ready : Nat
deriving DecidableEq, Repr

/-- What a read gives. -/
inductive Got where
  | bytes (part : Bytes)
  | nothing
  | failed (e : ReadError)
deriving DecidableEq, Repr

/-- `pullWire`, and `discardFn` for what it throws away. -/
def pull (src : Source) (ask : Ask) (b : Body) : Got × Body :=
  match runLength src b with
  | (none, b) => (.failed b.explain, b)
  | (some run, b) =>
    if run = 0 then (.nothing, b)
    else
      let n := min (min ask.limit run) ask.ready
      if n ≠ 0 ∧ b.wire = [] then
        match src.ending with
        | .endOfStream => (.failed .bodyTruncated, { b with state := .cut })
        | .readFailed => (.failed b.explain, b)
      else
        let n := min n b.wire.length
        (.bytes (b.wire.take n), { b with wire := b.wire.drop n }.advance n)

/-- Where a run of reads has come to. -/
inductive Reading where
  | going (out : Bytes) (b : Body)
  | ended (out : Bytes) (b : Body)
  | failed (e : ReadError)
deriving DecidableEq, Repr

/-- Reads one after the other, until there are no more bytes or one fails. -/
def readOn (src : Source) : List Ask → Bytes → Body → Reading
  | [], out, b => .going out b
  | ask :: asks, out, b =>
    match pull src ask b with
    | (.bytes part, b) => readOn src asks (out ++ part) b
    | (.nothing, b) => .ended out b
    | (.failed e, _) => .failed e

/-! ## Sizes that do not wrap the count -/

variable {src : Source} {limit n : Nat} {wire out : Bytes} {b : Body}

/-- From here on, with `n` bytes behind, no size line reached takes the count past a `u64`. -/
def ModestFrom (src : Source) (limit n : Nat) (wire : Bytes) : Prop :=
  ∀ body wire₁ size wire₂, Chunks src wire body wire₁ → n + body.length ≤ limit →
    readChunkSize src wire₁ = .ok (size, wire₂) → n + body.length + size < 2 ^ 64

/-- No size line of the body, added to what was decoded before it, goes past a `u64`. -/
def Modest (src : Source) (limit : Nat) (wire : Bytes) : Prop := ModestFrom src limit 0 wire

theorem ModestFrom.size (h : ModestFrom src limit n wire) (hn : n ≤ limit) {size : Nat}
    {rest : Bytes} (hsize : readChunkSize src wire = .ok (size, rest)) : n + size < 2 ^ 64 :=
  h [] wire size rest (.nil wire) hn hsize

theorem ModestFrom.next (h : ModestFrom src limit n wire) {size : Nat}
    {wire₁ wire₂ wire₃ chunk : Bytes} (hsize : readChunkSize src wire = .ok (size, wire₁))
    (hne : size ≠ 0) (hread : readAll src size wire₁ = .ok (chunk, wire₂))
    (hend : endOfChunk src wire₂ = .ok wire₃) : ModestFrom src limit (n + size) wire₃ := by
  intro body wire₄ size' wire₅ hchunks hle hsize'
  have hlen := (readAll_bytes hread).1
  have := h (chunk ++ body) wire₄ size' wire₅ (.cons hsize hne hread hend hchunks)
    (by rw [List.length_append]; omega) hsize'
  rw [List.length_append] at this
  omega

/-! ## What is left of a body -/

/-- What `readChunkedBody` would come to from here, with these bytes handed out. -/
def left (src : Source) (b : Body) (out : Bytes) : Except ReadError (Bytes × Bytes) :=
  match b.state with
  | .between => readChunkedFrom src b.maxBytes out b.wire
  | .chunk n => finishChunk src b.maxBytes n out b.wire
  | .done => .ok (out, b.wire)
  | .sized _ | .broken | .cut => .error b.explain

/-- A body part way through, with these bytes handed out. -/
structure Fits (src : Source) (b : Body) (out : Bytes) : Prop where
  seen : b.seen = out.length
  within : out.length ≤ b.maxBytes
  max : b.maxBytes < 2 ^ 64
  state : match b.state with
    | .between => ModestFrom src b.maxBytes out.length b.wire
    | .chunk n => out.length + n ≤ b.maxBytes ∧
        ∀ chunk wire₁ wire₂, readAll src n b.wire = .ok (chunk, wire₁) →
          endOfChunk src wire₁ = .ok wire₂ → ModestFrom src b.maxBytes (out.length + n) wire₂
    | .done => True
    | .sized _ | .broken | .cut => False

/-- Two readers fail alike: as too large both or neither. -/
def FailsAs (e : ReadError) (r : Except ReadError (Bytes × Bytes)) : Prop :=
  ∃ e', r = .error e' ∧ (e = .bodyTooLarge ↔ e' = .bodyTooLarge)

/-- What `runLength` finds, against what is left of the body. -/
def Runs (src : Source) (b : Body) (out : Bytes) : Option Nat × Body → Prop
  | (none, b') => FailsAs b'.explain (left src b out)
  | (some 0, b') => left src b out = .ok (out, b'.wire)
  | (some (n + 1), b') => b'.state = .chunk (n + 1) ∧ Fits src b' out ∧
      left src b' out = left src b out ∧ b'.wire.length ≤ b.wire.length

/-- It goes on from a body that has as much left. -/
theorem Runs.of {b' : Body} {r : Option Nat × Body} (h : Runs src b' out r)
    (hleft : left src b' out = left src b out) (hlen : b'.wire.length ≤ b.wire.length) :
    Runs src b out r := by
  obtain ⟨run, b₁⟩ := r
  match run, h with
  | none, h =>
    simp only [Runs, hleft] at h
    exact h
  | some 0, h =>
    simp only [Runs, hleft] at h
    exact h
  | some (k + 1), h =>
    simp only [Runs, hleft] at h
    exact ⟨h.1, h.2.1, h.2.2.1, Nat.le_trans h.2.2.2 hlen⟩

theorem explain_broken (h : b.seen ≤ b.maxBytes) : b.breakOff.explain = .badChunk := by
  have hnot : ¬ b.seen > b.maxBytes := by omega
  exact if_neg hnot

theorem nextChunk_runs (h : Fits src b out) (hb : b.state = .between) :
    Runs src b out (nextChunk src b) := by
  have hmodest : ModestFrom src b.maxBytes out.length b.wire := by
    have := h.state
    rw [hb] at this
    exact this
  have hleft : left src b out = readChunkedFrom src b.maxBytes out b.wire := by
    unfold left
    rw [hb]
  have hseen : b.seen ≤ b.maxBytes := by
    rw [h.seen]
    exact h.within
  rw [readChunkedFrom_eq] at hleft
  unfold nextChunk
  cases hsize : readChunkSize src b.wire with
  | error e =>
    rw [hsize] at hleft
    refine ⟨e, hleft, ?_⟩
    rw [explain_broken hseen, readChunkSize_error hsize]
  | ok p =>
    obtain ⟨size, wire⟩ := p
    rw [hsize] at hleft
    simp only at hleft ⊢
    have hnowrap := hmodest.size h.within hsize
    have hsum : (b.seen + size) % 2 ^ 64 = out.length + size := by
      rw [h.seen, Nat.mod_eq_of_lt hnowrap]
    by_cases hzero : size = 0
    · subst hzero
      simp only [if_true, finishBody] at hleft ⊢
      cases hskip : skipTrailers src 0 wire with
      | error e =>
        rw [hskip] at hleft
        refine ⟨e, hleft, ?_⟩
        rw [explain_broken hseen]
        refine iff_of_false (by decide) ?_
        rintro rfl
        exact skipTrailers_ne_tooLarge _ _ _ hskip
      | ok rest =>
        rw [hskip] at hleft
        exact hleft
    · simp only [hzero, if_false, hsum] at hleft ⊢
      by_cases hpast : out.length + size > b.maxBytes
      · rw [if_pos (by omega)] at hleft
        rw [if_pos hpast]
        refine ⟨.bodyTooLarge, hleft, ?_⟩
        refine iff_of_true ?_ rfl
        simp only [explain]
        rw [if_pos hpast]
      · rw [if_neg (by omega)] at hleft
        rw [if_neg hpast]
        obtain ⟨k, rfl⟩ := Nat.exists_eq_succ_of_ne_zero hzero
        refine ⟨rfl, ⟨h.seen, h.within, h.max, ?_, ?_⟩, ?_, ?_⟩
        · simp only
          omega
        · intro chunk wire₁ wire₂ hread hend
          exact hmodest.next hsize hzero hread hend
        · rw [hleft]
          rfl
        · exact Nat.le_of_lt (readChunkSize_length hsize)

theorem runLength_runs (h : Fits src b out) : Runs src b out (runLength src b) := by
  have hstate := h.state
  unfold runLength
  cases hb : b.state with
  | sized n =>
    rw [hb] at hstate
    exact hstate.elim
  | broken =>
    rw [hb] at hstate
    exact hstate.elim
  | cut =>
    rw [hb] at hstate
    exact hstate.elim
  | done => simp only [Runs, left, hb]
  | between => exact nextChunk_runs h hb
  | chunk n =>
    rw [hb] at hstate
    cases n with
    | succ k => exact ⟨hb, h, rfl, Nat.le_refl _⟩
    | zero =>
      have hread : readAll src 0 b.wire = .ok ([], b.wire) := by simp [readAll]
      have hleft : left src b out = finishChunk src b.maxBytes 0 out b.wire := by
        unfold left
        rw [hb]
      simp only [finishChunk, hread, List.append_nil] at hleft
      simp only [gt_iff_lt, Nat.lt_irrefl, if_false]
      cases hend : endOfChunk src b.wire with
      | error e =>
        rw [hend] at hleft
        refine ⟨e, hleft, ?_⟩
        rw [explain_broken (by rw [h.seen]; exact h.within), endOfChunk_error hend]
      | ok wire =>
        rw [hend] at hleft
        have hnext : Fits src { b with wire := wire, state := .between } out :=
          ⟨h.seen, h.within, h.max, hstate.2 [] b.wire wire hread hend⟩
        have hruns := nextChunk_runs hnext rfl
        have hsame : left src { b with wire := wire, state := .between } out = left src b out := by
          rw [hleft]
          rfl
        exact hruns.of hsame (Nat.le_of_lt (endOfChunk_length hend))

/-! ## Reads -/

/-- Bytes taken from a chunk are taken from what is left of it. -/
theorem readAll_after {k : Nat} (hk : k ≤ n) (hw : k ≤ wire.length) {chunk rest : Bytes}
    (h : readAll src (n - k) (wire.drop k) = .ok (chunk, rest)) :
    readAll src n wire = .ok (wire.take k ++ chunk, rest) := by
  have hadd := @readAll_add src k (n - k) wire hw
  rw [show k + (n - k) = n by omega, h] at hadd
  exact hadd.symm

theorem finishChunk_after {k : Nat} (hk : k ≤ n) (hw : k ≤ wire.length) :
    finishChunk src limit (n - k) (out ++ wire.take k) (wire.drop k) =
      finishChunk src limit n out wire := by
  have hadd := @readAll_add src k (n - k) wire hw
  rw [show k + (n - k) = n by omega] at hadd
  unfold finishChunk
  rw [← hadd]
  cases readAll src (n - k) (wire.drop k) with
  | error e => rfl
  | ok p => simp only [List.append_assoc]

/-- What a read gives, against what is left of the body. -/
def Pulls (src : Source) (ask : Ask) (b : Body) (out : Bytes) : Got × Body → Prop
  | (.bytes part, b') => Fits src b' (out ++ part) ∧ left src b' (out ++ part) = left src b out ∧
      part.length + b'.wire.length ≤ b.wire.length ∧
      (0 < ask.limit → 0 < ask.ready → 0 < part.length)
  | (.nothing, b') => left src b out = .ok (out, b'.wire)
  | (.failed e, _) => FailsAs e (left src b out)

theorem pull_chunk {k : Nat} (h : Fits src b out) (hb : b.state = .chunk n)
    (hk : k ≤ n) (hw : k ≤ b.wire.length) :
    Fits src ({ b with wire := b.wire.drop k }.advance k) (out ++ b.wire.take k) ∧
      left src ({ b with wire := b.wire.drop k }.advance k) (out ++ b.wire.take k) =
        left src b out := by
  have hstate := h.state
  rw [hb] at hstate
  have hlen : (b.wire.take k).length = k := by
    rw [List.length_take]
    omega
  have hadv : ({ b with wire := b.wire.drop k }.advance k).state = .chunk (n - k) := by
    simp only [advance, hb]
  refine ⟨⟨?_, ?_, h.max, ?_⟩, ?_⟩
  · simp only [advance, h.seen, List.length_append, hlen]
  · simp only [advance, List.length_append, hlen]
    omega
  · rw [hadv]
    refine ⟨?_, ?_⟩
    · simp only [advance, List.length_append, hlen]
      omega
    · intro chunk wire₁ wire₂ hread hend
      have := hstate.2 _ wire₁ wire₂ (readAll_after hk hw hread) hend
      simp only [List.length_append, hlen]
      rw [show out.length + k + (n - k) = out.length + n by omega]
      exact this
  · have hafter : left src b out = finishChunk src b.maxBytes n out b.wire := by
      unfold left
      rw [hb]
    rw [hafter, ← finishChunk_after hk hw]
    unfold left
    rw [hadv]
    rfl

theorem pull_pulls (ask : Ask) (h : Fits src b out) : Pulls src ask b out (pull src ask b) := by
  have hruns := runLength_runs h
  unfold pull
  generalize runLength src b = r at hruns
  obtain ⟨run, b'⟩ := r
  match run, hruns with
  | none, hruns => exact hruns
  | some 0, hruns => exact hruns
  | some (k + 1), ⟨hb', hfits, hleft, hlen⟩ =>
    simp only [Nat.add_eq_zero_iff, Nat.one_ne_zero, and_false, if_false]
    split_ifs with hempty
    · -- the connection ended inside the chunk
      have hread : readAll src (k + 1) b'.wire = .error src.ending.error := by
        refine readAll_of_lt ?_
        rw [hempty.2]
        exact Nat.succ_pos k
      have hfails : left src b out = .error src.ending.error := by
        rw [← hleft]
        unfold left
        rw [hb']
        simp only [finishChunk, hread]
      cases hend : src.ending with
      | endOfStream =>
        rw [hend] at hfails
        exact ⟨_, hfails, by decide⟩
      | readFailed =>
        rw [hend] at hfails
        refine ⟨_, hfails, ?_⟩
        simp only [explain, hb', Ending.error]
    · have hpull := pull_chunk hfits hb'
        (k := min (min (min ask.limit (k + 1)) ask.ready) b'.wire.length) (by omega) (by omega)
      refine ⟨hpull.1, hpull.2.trans hleft, ?_, ?_⟩
      · simp only [List.length_take, advance, List.length_drop]
        omega
      · intro hlimit hready
        have hwire : b'.wire ≠ [] := fun he => hempty ⟨by omega, he⟩
        have := List.length_pos_of_ne_nil hwire
        rw [List.length_take]
        omega

/-- What a run of reads comes to, against what is left of the body. -/
def Reads (src : Source) (asks : List Ask) (b : Body) (out : Bytes) : Reading → Prop
  | .going out' b' => Fits src b' out' ∧ left src b' out' = left src b out ∧
      out'.length + b'.wire.length ≤ out.length + b.wire.length ∧
      ((∀ ask ∈ asks, 0 < ask.limit ∧ 0 < ask.ready) → out.length + asks.length ≤ out'.length)
  | .ended out' b' => left src b out = .ok (out', b'.wire)
  | .failed e => FailsAs e (left src b out)

theorem readOn_reads : ∀ {asks : List Ask} {out : Bytes} {b : Body}, Fits src b out →
    Reads src asks b out (readOn src asks out b)
  | [], out, b, h => ⟨h, rfl, Nat.le_refl _, fun _ => Nat.le_refl _⟩
  | ask :: asks, out, b, h => by
    have hpull := pull_pulls ask h
    unfold readOn
    generalize pull src ask b = r at hpull
    obtain ⟨got, b'⟩ := r
    cases got with
    | nothing => exact hpull
    | failed e => exact hpull
    | bytes part =>
      obtain ⟨hfits, hleft, hlen, hmore⟩ := hpull
      have ih : Reads src asks b' (out ++ part) (readOn src asks (out ++ part) b') :=
        readOn_reads hfits
      simp only
      generalize readOn src asks (out ++ part) b' = r at ih
      cases r with
      | ended out' b'' =>
        simp only [Reads, hleft] at ih
        exact ih
      | failed e =>
        simp only [Reads, hleft] at ih
        exact ih
      | going out' b'' =>
        obtain ⟨hfits', hleft', hlen', hmore'⟩ := ih
        rw [List.length_append] at hlen' hmore'
        refine ⟨hfits', hleft'.trans hleft, by omega, ?_⟩
        intro hasks
        have hpart := hmore (hasks ask List.mem_cons_self).1 (hasks ask List.mem_cons_self).2
        have hrest := hmore' fun a ha => hasks a (List.mem_cons_of_mem _ ha)
        rw [List.length_cons]
        omega

/-- What is handed out is the beginning of the body. -/
theorem left_prefix {body rest : Bytes} (h : Fits src b out) (hleft : left src b out = .ok (body, rest)) :
    out <+: body := by
  have hloop : ∀ {held wire : Bytes}, held.length ≤ b.maxBytes →
      readChunkedFrom src b.maxBytes held wire = .ok (body, rest) → held <+: body := by
    intro held wire hheld heq
    obtain ⟨more, wire₁, -, -, hcase⟩ := readChunkedFrom_cases src b.maxBytes held wire hheld
    rcases hcase with ⟨_, _, -, -, hok⟩ | ⟨_, _, -, -, herr⟩ | ⟨e, -, herr⟩
    · rw [heq] at hok
      cases hok
      exact ⟨more, rfl⟩
    · rw [heq] at herr
      cases herr
    · rw [heq] at herr
      cases herr
  have hstate := h.state
  unfold left at hleft
  cases hb : b.state with
  | between =>
    rw [hb] at hleft
    exact hloop h.within hleft
  | chunk n =>
    rw [hb] at hleft hstate
    simp only [finishChunk] at hleft
    split at hleft
    · cases hleft
    · rename_i chunk wire₁ hread
      split at hleft
      · cases hleft
      · have hlen := (readAll_bytes hread).1
        have := hloop (by rw [List.length_append]; omega) hleft
        exact (List.prefix_append out chunk).trans this
  | done =>
    rw [hb] at hleft
    cases hleft
    exact List.prefix_refl _
  | sized n =>
    rw [hb] at hleft
    cases hleft
  | broken =>
    rw [hb] at hleft
    cases hleft
  | cut =>
    rw [hb] at hleft
    cases hleft

/-! ## The three readers -/

theorem fits_start (hlimit : limit < 2 ^ 64) (h : Modest src limit wire) :
    Fits src (start wire limit) [] :=
  ⟨rfl, Nat.zero_le _, hlimit, h⟩

/-- The trailer section is past: after its blank line, or where the connection ended in it. -/
def PastTrailers (src : Source) (wire rest : Bytes) : Prop :=
  ∃ lines : List Bytes, (∀ line ∈ lines, line ≠ []) ∧
    (wire = lines.flatMap (· ++ crlf) ++ crlf ++ rest ∨
      src.ending = .endOfStream ∧ 10 ∉ rest ∧ wire = lines.flatMap (· ++ crlf) ++ rest)

/-- The three readers of a chunked body agree, unless a size wraps the count of the one that
reads in pieces: discarding ends as reading does; reads of whatever sizes hand out the
beginning of the body, end where it ends and with all of it, or fail as it fails, and are not
without end; it is too large exactly when its decoded length passes the limit; and once it is
read the connection is past its trailers. -/
theorem chunked_agree (src : Source) {limit : Nat} (hlimit : limit < 2 ^ 64) (wire : Bytes)
    (hmodest : Modest src limit wire) :
    discardChunkedBody src limit wire = (readChunkedBody src limit wire).map Prod.snd ∧
    (∀ asks, match readOn src asks [] (start wire limit) with
      | .going out _ =>
        (∀ body rest, readChunkedBody src limit wire = .ok (body, rest) → out <+: body) ∧
          ((∀ ask ∈ asks, 0 < ask.limit ∧ 0 < ask.ready) → asks.length ≤ wire.length)
      | .ended out b => readChunkedBody src limit wire = .ok (out, b.wire)
      | .failed e => ∃ e', readChunkedBody src limit wire = .error e' ∧
          (e = .bodyTooLarge ↔ e' = .bodyTooLarge)) ∧
    (readChunkedBody src limit wire = .error .bodyTooLarge ↔ Passes src limit wire) ∧
    (∀ body rest, readChunkedBody src limit wire = .ok (body, rest) →
      ∃ wire₁ wire₂, Chunks src wire body wire₁ ∧ readChunkSize src wire₁ = .ok (0, wire₂) ∧
        PastTrailers src wire₂ rest) := by
  refine ⟨discardChunkedFrom_read src limit [] wire, ?_, readChunkedBody_tooLarge, ?_⟩
  · intro asks
    have hreads : Reads src asks (start wire limit) [] (readOn src asks [] (start wire limit)) :=
      readOn_reads (fits_start hlimit hmodest)
    generalize readOn src asks [] (start wire limit) = r at hreads
    cases r with
    | ended out b => exact hreads
    | failed e => exact hreads
    | going out b =>
      obtain ⟨hfits, hleft, hlen, hmore⟩ := hreads
      refine ⟨?_, ?_⟩
      · intro body rest hok
        exact left_prefix hfits (hleft.trans hok)
      · intro hasks
        have := hmore hasks
        simp only [List.length_nil, start] at hlen this
        omega
  · intro body rest hok
    obtain ⟨-, wire₁, wire₂, hchunks, hsize, hskip⟩ := readChunkedBody_ok.1 hok
    exact ⟨wire₁, wire₂, hchunks, hsize, skipTrailers_left src 0 wire₂ rest hskip⟩

/-- A buffer of a page, on a connection that closes after its bytes. -/
def page : Source := ⟨4096, .endOfStream⟩

/-- One byte, and then a size that wraps the count to nothing. -/
def wrapping : Bytes := Text.ascii "1\r\na\r\nffffffffffffffff\r\nbc"

theorem wrapping_passes : Passes page 1 wrapping := by
  refine ⟨[97], Text.ascii "ffffffffffffffff\r\nbc", 2 ^ 64 - 1, Text.ascii "bc", ?_, by decide, rfl, by decide⟩
  exact .cons (rfl : readChunkSize page wrapping = .ok (1, _)) (by decide)
    (rfl : readAll page 1 _ = .ok ([97], _)) (rfl : endOfChunk page _ = .ok _) (.nil _)

/-- Reading it whole refuses it as too large, reading it in pieces hands out three bytes of a
limit of one; and a body is accepted that no blank line ends. -/
theorem chunked_disagree :
    readChunkedBody page 1 wrapping = .error .bodyTooLarge ∧
    (∃ b, readOn page [⟨8, 8⟩, ⟨8, 8⟩] [] (start wrapping 1) = .going (Text.ascii "abc") b) ∧
    readChunkedBody page 1 (Text.ascii "0\r\n") = .ok ([], []) := by
  refine ⟨readChunkedBody_tooLarge.2 wrapping_passes, ⟨_, rfl⟩, ?_⟩
  refine readChunkedBody_ok.2 ⟨Nat.zero_le _, Text.ascii "0\r\n", [], .nil _, rfl, ?_⟩
  rw [skipTrailers_eq]
  rfl

/-- Reading a size line by line says whether the sizes are modest. -/
theorem ModestFrom.of_size {size : Nat} {wire₁ : Bytes}
    (hsize : readChunkSize src wire = .ok (size, wire₁)) (hlt : n + size < 2 ^ 64)
    (hnext : size ≠ 0 → ∀ chunk wire₂ wire₃, readAll src size wire₁ = .ok (chunk, wire₂) →
      endOfChunk src wire₂ = .ok wire₃ → ModestFrom src limit (n + size) wire₃) :
    ModestFrom src limit n wire := by
  intro body wire₄ size' wire₅ hchunks hle hsize'
  cases hchunks with
  | nil =>
    rw [hsize] at hsize'
    cases hsize'
    exact hlt
  | @cons _ wire₁' wire₂ wire₃ _ chunk body size₁ hsize₁ hne hread hend hrest =>
    rw [hsize] at hsize₁
    cases hsize₁
    have hlen := (readAll_bytes hread).1
    rw [List.length_append] at hle ⊢
    have := hnext hne chunk wire₂ wire₃ hread hend body wire₄ size' wire₅ hrest (by omega) hsize'
    omega

/-- A chunk, a trailer, and the next request. -/
def hello : Bytes := Text.ascii "5;x=y\r\nhello\r\n0\r\nA: b\r\n\r\nGET"

theorem hello_modest : Modest page 5 hello := by
  refine .of_size (rfl : readChunkSize page hello = .ok (5, _)) (by decide) ?_
  intro _ chunk wire₂ wire₃ hread hend
  cases hread
  cases hend
  refine .of_size (rfl : readChunkSize page _ = .ok (0, _)) (by decide) ?_
  intro hne
  exact absurd rfl hne

/-- Four reads of it, the last of which finds the end, and where that leaves the connection. -/
theorem chunked_agree_hello :
    ∃ b, readOn page [⟨2, 8⟩, ⟨8, 1⟩, ⟨8, 8⟩, ⟨8, 8⟩] [] (start hello 5) =
        .ended (Text.ascii "hello") b ∧
      readChunkedBody page 5 hello = .ok (Text.ascii "hello", b.wire) := by
  -- the reads before the last are inside the chunk
  have hread : readOn page [⟨2, 8⟩, ⟨8, 1⟩, ⟨8, 8⟩, ⟨8, 8⟩] [] (start hello 5) =
      readOn page [⟨8, 8⟩] (Text.ascii "hello")
        ⟨Text.ascii "\r\n0\r\nA: b\r\n\r\nGET", .chunk 0, 5, 5⟩ := rfl
  have hskip : skipTrailers page 0 (Text.ascii "A: b\r\n\r\nGET") = .ok (Text.ascii "GET") := by
    rw [skipTrailers_eq]
    show skipTrailers page 6 (Text.ascii "\r\nGET") = _
    rw [skipTrailers_eq]
    rfl
  have hend : endOfChunk page (Text.ascii "\r\n0\r\nA: b\r\n\r\nGET") =
      .ok (Text.ascii "0\r\nA: b\r\n\r\nGET") := rfl
  have hsize : readChunkSize page (Text.ascii "0\r\nA: b\r\n\r\nGET") =
      .ok (0, Text.ascii "A: b\r\n\r\nGET") := rfl
  have hb : readOn page [⟨2, 8⟩, ⟨8, 1⟩, ⟨8, 8⟩, ⟨8, 8⟩] [] (start hello 5) =
      .ended (Text.ascii "hello") ⟨Text.ascii "GET", .done, 5, 5⟩ := by
    rw [hread]
    simp only [readOn, pull, runLength, nextChunk, hend, hsize, hskip, gt_iff_lt, Nat.lt_irrefl,
      if_true, if_false]
  have hagree := (chunked_agree page (by decide) hello hello_modest).2.1 [⟨2, 8⟩, ⟨8, 1⟩, ⟨8, 8⟩, ⟨8, 8⟩]
  rw [hb] at hagree
  exact ⟨_, hb, hagree⟩

/-! ## The total -/

/-- The next thing `runLength` does is read the size line that starts here. -/
def AtLine (src : Source) (b : Body) (line : Bytes) : Prop :=
  b.state = .between ∧ b.wire = line ∨
    b.state = .chunk 0 ∧ endOfChunk src b.wire = .ok line

theorem AtLine.runLength_eq {line : Bytes} (h : AtLine src b line) :
    runLength src b = nextChunk src { b with wire := line, state := .between } := by
  unfold runLength
  rcases h with ⟨hstate, hwire⟩ | ⟨hstate, hend⟩
  · rw [hstate]
    simp only
    rw [← hwire, ← hstate]
  · rw [hstate]
    simp only [gt_iff_lt, Nat.lt_irrefl, if_false, hend]

theorem AtLine.modest {line : Bytes} (h : AtLine src b line) (hfits : Fits src b out) :
    ModestFrom src b.maxBytes out.length line := by
  have hstate := hfits.state
  rcases h with ⟨hbetween, hwire⟩ | ⟨hchunk, hend⟩
  · rw [hbetween, hwire] at hstate
    exact hstate
  · rw [hchunk] at hstate
    exact hstate.2 [] b.wire line (by simp [readAll]) hend

/-- A read that finds a chunk within the limit and asks for all of it is given all of it. -/
theorem AtLine.pull_whole {line wire₁ wire₂ chunk : Bytes} {size : Nat} (h : AtLine src b line)
    (hsize : readChunkSize src line = .ok (size, wire₁)) (hne : size ≠ 0)
    (hread : readAll src size wire₁ = .ok (chunk, wire₂)) (hle : b.seen + size ≤ b.maxBytes)
    (hmax : b.maxBytes < 2 ^ 64) :
    pull src ⟨size, size⟩ b =
      (.bytes chunk, ⟨wire₂, .chunk 0, b.seen + size, b.maxBytes⟩) := by
  have hsum : (b.seen + size) % 2 ^ 64 = b.seen + size := Nat.mod_eq_of_lt (by omega)
  have hrun : runLength src b = (some size, { b with wire := wire₁, state := .chunk size }) := by
    rw [h.runLength_eq]
    unfold nextChunk
    simp only [hsize, hne, if_false, hsum]
    rw [if_neg (by omega)]
  have hlen : size ≤ wire₁.length := by
    by_contra hlt
    rw [readAll_of_lt (by omega)] at hread
    cases hread
  rw [readAll_of_le hlen] at hread
  cases hread
  unfold pull
  rw [hrun]
  have hwire : wire₁ ≠ [] := by
    rintro rfl
    exact hne (Nat.le_zero.mp hlen)
  simp only [hne, if_false, hwire, and_false, Nat.min_self, Nat.min_eq_left hlen, advance,
    Nat.sub_self]

theorem nextChunk_maxBytes (src : Source) (b : Body) :
    (nextChunk src b).2.maxBytes = b.maxBytes := by
  unfold nextChunk
  split
  · rfl
  · split
    · split <;> rfl
    · simp only
      split <;> rfl

theorem runLength_maxBytes (src : Source) (b : Body) :
    (runLength src b).2.maxBytes = b.maxBytes := by
  unfold runLength
  split
  · rfl
  · split
    · rfl
    · split
      · rfl
      · exact nextChunk_maxBytes src _
  · exact nextChunk_maxBytes src b
  all_goals rfl

theorem pull_maxBytes (src : Source) (ask : Ask) (b : Body) :
    (pull src ask b).2.maxBytes = b.maxBytes := by
  have hrun := runLength_maxBytes src b
  unfold pull
  generalize runLength src b = r at hrun
  obtain ⟨run, b'⟩ := r
  cases run with
  | none => exact hrun
  | some run =>
    simp only
    split
    · exact hrun
    · split
      · split <;> exact hrun
      · exact hrun

theorem readOn_maxBytes {asks : List Ask} {out out' : Bytes} {b b' : Body}
    (h : readOn src asks out b = .going out' b') : b'.maxBytes = b.maxBytes := by
  induction asks generalizing out b with
  | nil =>
    cases h
    rfl
  | cons ask asks ih =>
    have hpull := pull_maxBytes src ask b
    unfold readOn at h
    generalize pull src ask b = r at h hpull
    obtain ⟨got, b₁⟩ := r
    cases got with
    | bytes part => exact (ih h).trans hpull
    | nothing => cases h
    | failed e => cases h

/-- Reads of a chunk at a time come to every size line behind chunks that stay within the
limit. -/
theorem readOn_line {line body rest : Bytes} (h : Chunks src line body rest) :
    ∀ {b : Body} (out : Bytes), AtLine src b line → b.seen + body.length ≤ b.maxBytes →
      b.maxBytes < 2 ^ 64 →
      ∃ asks b', readOn src asks out b = .going (out ++ body) b' ∧ AtLine src b' rest ∧
        b'.seen = b.seen + body.length ∧ b'.maxBytes = b.maxBytes := by
  induction h with
  | nil wire =>
    intro b out hat _ _
    refine ⟨[], b, ?_, hat, rfl, rfl⟩
    rw [List.append_nil]
    rfl
  | @cons _ wire₁ wire₂ wire₃ _ chunk body size hsize hne hread hend _ ih =>
    intro b out hat hle hmax
    have hlen := (readAll_bytes hread).1
    rw [List.length_append] at hle
    have hpull := hat.pull_whole hsize hne hread (by omega) hmax
    obtain ⟨asks, b', hreads, hat', hseen, hmax'⟩ :=
      ih (b := ⟨wire₂, .chunk 0, b.seen + size, b.maxBytes⟩) (out ++ chunk)
        (.inr ⟨rfl, hend⟩) (by simp only; omega) hmax
    refine ⟨⟨size, size⟩ :: asks, b', ?_, hat', ?_, hmax'⟩
    · rw [← List.append_assoc, ← hreads]
      simp only [readOn, hpull]
    · simp only at hseen
      rw [hseen, List.length_append]
      omega

/-- Whatever reads came before, the count with the size of the chunk found next does not
overflow, and a chunk that takes the body past the limit is refused as too large with none of
its bytes handed out: exactly when no size line of the body, behind `n` bytes of chunks that
are within the limit, announces `2 ^ 64 - n` or more. -/
theorem total_fits (src : Source) {limit : Nat} (hlimit : limit < 2 ^ 64) (wire : Bytes) :
    (∀ asks out b line size rest,
      readOn src asks [] (start wire limit) = .going out b → AtLine src b line →
      readChunkSize src line = .ok (size, rest) → size ≠ 0 →
      b.seen + size < 2 ^ 64 ∧
        (out.length + size > limit → ∀ ask, ∃ b', pull src ask b = (.failed .bodyTooLarge, b'))) ↔
    Modest src limit wire := by
  constructor
  · intro h body line size rest hchunks hle hsize
    rw [Nat.zero_add] at hle ⊢
    by_cases hzero : size = 0
    · omega
    · obtain ⟨asks, b, hreads, hat, hseen, -⟩ :=
        readOn_line hchunks (b := start wire limit) [] (.inl ⟨rfl, rfl⟩)
          (by simpa only [start, Nat.zero_add] using hle) hlimit
      have hsum := (h asks _ b line size rest hreads hat hsize hzero).1
      rw [hseen] at hsum
      simpa only [start, Nat.zero_add] using hsum
  · intro hmodest asks out b line size rest hgoing hat hsize hne
    have hreads : Reads src asks (start wire limit) [] (readOn src asks [] (start wire limit)) :=
      readOn_reads (fits_start hlimit hmodest)
    rw [hgoing] at hreads
    obtain ⟨hfits, -⟩ := hreads
    have hmax : b.maxBytes = limit := readOn_maxBytes hgoing
    have hsum := (hat.modest hfits).size hfits.within hsize
    rw [← hfits.seen] at hsum
    refine ⟨hsum, ?_⟩
    intro hpast ask
    rw [← hfits.seen, ← hmax] at hpast
    have hrun : runLength src b =
        (none, { b with wire := rest, seen := b.seen + size, state := .broken }) := by
      rw [hat.runLength_eq]
      unfold nextChunk
      simp only [hsize, hne, if_false, Nat.mod_eq_of_lt hsum]
      rw [if_pos hpast]
    refine ⟨{ b with wire := rest, seen := b.seen + size, state := .broken }, ?_⟩
    unfold pull
    rw [hrun]
    simp only [explain]
    rw [if_pos hpast]

/-- After one byte of a limit of one, the size of `wrapping` overflows the count, and the next
read is given its bytes. -/
theorem total_overflows :
    ∃ b line rest, readOn page [⟨8, 8⟩] [] (start wrapping 1) = .going (Text.ascii "a") b ∧
      AtLine page b line ∧ readChunkSize page line = .ok (2 ^ 64 - 1, rest) ∧
      b.seen + (2 ^ 64 - 1) = 2 ^ 64 ∧
      ∃ b', pull page ⟨8, 8⟩ b = (.bytes (Text.ascii "bc"), b') :=
  ⟨_, _, _, rfl, .inr ⟨rfl, rfl⟩, rfl, rfl, _, rfl⟩

theorem hello_modest_short : Modest page 4 hello := by
  have hsize : readChunkSize page hello =
      .ok (5, Text.ascii "hello\r\n0\r\nA: b\r\n\r\nGET") := rfl
  refine .of_size hsize (by decide) ?_
  intro _ chunk wire₂ wire₃ _ _ body wire₄ size wire₅ _ hle _
  omega

/-- Five bytes, of a limit of four. -/
theorem total_fits_hello :
    (start hello 4).seen + 5 < 2 ^ 64 ∧
      ∃ b', pull page ⟨8, 8⟩ (start hello 4) = (.failed .bodyTooLarge, b') := by
  have h := (total_fits page (by decide : 4 < 2 ^ 64) hello).2 hello_modest_short [] []
    (start hello 4) hello 5 (Text.ascii "hello\r\n0\r\nA: b\r\n\r\nGET") rfl (.inl ⟨rfl, rfl⟩) rfl
    (by decide)
  exact ⟨h.1, h.2 (by decide) ⟨8, 8⟩⟩

end Body

end Nilo.Http1
