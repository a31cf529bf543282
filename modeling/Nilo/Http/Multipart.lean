import Nilo.Lib.Hits
import Nilo.Std.Text

/-!
# A multipart form (`http/form.zig`)

A body is cut at its boundary lines. Behind each stand the headers of a part, a blank line and the
contents, up to the next boundary; the line break in front of a boundary belongs to the boundary. The
headers say what a part is called and whether it is a file.
-/

namespace Nilo.Multipart

open Text (Bytes ascii utf8 between cut lastIndexOf trimBlanks eqlIgnoreCase)
open Lib (firstHit)
open Lib.Bits (firstIn)

def lf : UInt8 := 10
def cr : UInt8 := 13
def dash : UInt8 := 45
def quote : UInt8 := 34

/-- One file of a form. -/
structure Part where
  name : Bytes
  filename : Bytes
  contentType : Bytes
  bytes : Bytes
deriving DecidableEq, Repr

/-- A form taken apart: the text fields by name and value, and the files. -/
structure Fields where
  text : List (Bytes × Bytes)
  files : List Part
deriving DecidableEq, Repr

/-- Why a form is answered with a 400. -/
inductive Refusal where
  | noBoundary
  | noBlankLine
  | notClosed
  | onlyFilenameStar (name : Bytes)
  | tooManyParts
deriving DecidableEq, Repr

/-- The most parts one form may hold. -/
def maxParts : Nat := 256

def Refusal.message : Refusal → Bytes
  | .noBoundary => ascii ("this form says it is multipart, but its body does not begin with the " ++
      "boundary the Content-Type named")
  | .noBlankLine => ascii ("a part of this multipart form has no blank line between its headers " ++
      "and its contents")
  | .notClosed => ascii ("a part of this multipart form is not closed by the boundary the " ++
      "Content-Type named")
  | .onlyFilenameStar name => ascii "the \"" ++ name ++ utf8 ("\" part of this form names its " ++
      "file only with `filename*`, and nilo reads `filename` — send both, as a browser does")
  | .tooManyParts => ascii "this form has more parts than nilo reads from one, which is 256"

/-! ## Where the parts are -/

/-- `std.mem.indexOfScalarPos`. -/
def indexOfScalarPos (body : Bytes) (start : Nat) (ch : UInt8) : Option Nat :=
  firstIn (fun i => body.getD i 0 = ch) start body.length

/-- Where the next boundary is, counting from `start`: matched only at the start of a line. -/
def indexOfBoundary (body : Bytes) (start : Nat) (dashed : Bytes) : Option Nat :=
  firstHit (fun i => dashed.isPrefixOf (body.drop i))
    (fun found => if 0 < found ∧ body.getD (found - 1) 0 = lf then some found else none)
    body.length body.length start

/-- The loop of `countBoundaries`. -/
def countFrom (body dashed : Bytes) : Nat → Nat → Nat
  | 0, _ => 0
  | n + 1, start =>
    match indexOfBoundary body start dashed with
    | none => 0
    | some found => countFrom body dashed n (found + dashed.length) + 1

def countBoundaries (body dashed : Bytes) : Nat := countFrom body dashed (body.length + 1) 0

structure PartHead where
  headEnd : Nat
  dataStart : Nat
deriving DecidableEq, Repr

/-- What `endOfPartHead` makes of one line feed. -/
def headAt (body : Bytes) (start feed : Nat) : Option PartHead :=
  if feed + 1 < body.length ∧ body.getD (feed + 1) 0 = lf then some ⟨feed, feed + 2⟩
  else if start < feed ∧ body.getD (feed - 1) 0 = cr ∧ feed + 2 < body.length ∧
      body.getD (feed + 1) 0 = cr ∧ body.getD (feed + 2) 0 = lf then some ⟨feed - 1, feed + 3⟩
  else none

/-- The blank line between a part's headers and its contents. -/
def endOfPartHead (body : Bytes) (start : Nat) : Option PartHead :=
  firstHit (fun i => body.getD i 0 = lf) (headAt body start) body.length body.length start

/-! ## What a part is called -/

/-- A line without the carriage return at its end. -/
def withoutCr (raw : Bytes) : Bytes := if raw.getLast? = some cr then raw.dropLast else raw

/-- The value of one header inside a part's own little head. -/
def headerIn (head name : Bytes) : Option Bytes :=
  (head.splitOn lf).findSome? fun raw =>
    match cut 58 (withoutCr raw) with
    | (_, none) => none
    | (before, some after) =>
      if eqlIgnoreCase (trimBlanks before) name then some (trimBlanks after) else none

/-- The name of the parameter whose `=` was just found. -/
def beforeParameter (text : Bytes) : Bytes :=
  match lastIndexOf 59 text with
  | none => text
  | some i => text.drop (i + 1)

/-- The loop of `parameterOf`, for at most `n` parameters. -/
def parameterFrom (key : Bytes) : Nat → Bytes → Option Bytes
  | 0, _ => none
  | n + 1, rest =>
    match cut 61 rest with
    | (_, none) => none
    | (before, some value) =>
      let name := trimBlanks (beforeParameter before)
      if value.head? = some quote then
        match cut quote value.tail with
        | (_, none) => none
        | (inner, some after) =>
          if eqlIgnoreCase name key then some inner else parameterFrom key n after
      else
        let (plain, more) := cut 59 value
        if eqlIgnoreCase name key then some (trimBlanks plain)
        else
          match more with
          | none => none
          | some after => parameterFrom key n after

/-- One `; key=value` parameter out of a header value. -/
def parameterOf (headerValue key : Bytes) : Option Bytes :=
  parameterFrom key (headerValue.length + 1) headerValue

/-- What a part is to the form. -/
inductive Kept where
  | text (name value : Bytes)
  | file (part : Part)
deriving DecidableEq, Repr

/-- A part by its headers: refused, stepped over, or kept. -/
def readPart (head data : Bytes) : Except Refusal (Option Kept) :=
  match headerIn head (ascii "content-disposition") with
  | none => .ok none
  | some disposition =>
    match parameterOf disposition (ascii "name") with
    | none => .ok none
    | some name =>
      match parameterOf disposition (ascii "filename") with
      | none =>
        if (parameterOf disposition (ascii "filename*")).isSome then .error (.onlyFilenameStar name)
        else .ok (some (.text name data))
      | some filename =>
        -- What a browser sends for a file input with nothing chosen.
        if filename.length = 0 ∧ data.length = 0 then .ok none
        else
          .ok (some (.file
            { name, filename, bytes := data
              contentType := (headerIn head (ascii "content-type")).getD
                (ascii "application/octet-stream") }))

/-! ## The parts of a form -/

/-- A part in its body: its head, its contents, and the boundary behind it. -/
structure Span where
  headStart : Nat
  headEnd : Nat
  dataStart : Nat
  dataEnd : Nat
  next : Nat
deriving DecidableEq, Repr

def Span.head (self : Span) (body : Bytes) : Bytes := between body self.headStart self.headEnd

def Span.data (self : Span) (body : Bytes) : Bytes := between body self.dataStart self.dataEnd

inductive Framed where
  | done
  | refused (why : Refusal)
  | part (span : Span)
deriving DecidableEq, Repr

/-- Where the contents end: the line break in front of a boundary is the boundary's. -/
def dataEndOf (body : Bytes) (dataStart next : Nat) : Nat :=
  let stop := if next > dataStart then next - 1 else next
  if stop > dataStart ∧ body.getD (stop - 1) 0 = cr then stop - 1 else stop

/-- What stands behind the boundary that ends at `i`. -/
def frame (body dashed : Bytes) (i : Nat) : Framed :=
  if i + 2 ≤ body.length ∧ body.getD i 0 = dash ∧ body.getD (i + 1) 0 = dash then .done
  else
    match indexOfScalarPos body i lf with
    | none => .done
    | some lineEnd =>
      match endOfPartHead body (lineEnd + 1) with
      | none => .refused .noBlankLine
      | some head =>
        match indexOfBoundary body head.dataStart dashed with
        | none => .refused .notClosed
        | some next =>
          .part
            { headStart := lineEnd + 1
              headEnd := head.headEnd
              dataStart := head.dataStart
              dataEnd := dataEndOf body head.dataStart next
              next := next }

/-- Where the loop of `parseMultipart` is, and what it has found. -/
structure State where
  i : Nat
  fields : Fields
deriving DecidableEq, Repr

inductive Turn where
  | done
  | refused (why : Refusal)
  | on (st : State)
deriving DecidableEq, Repr

/-- A part into the arrays, which have room for `room` each. -/
def Fields.keep (self : Fields) (room : Nat) : Kept → Except Refusal Fields
  | .file part =>
    if self.files.length = room then .error .tooManyParts
    else .ok { self with files := self.files ++ [part] }
  | .text name value =>
    if self.text.length = room then .error .tooManyParts
    else .ok { self with text := self.text ++ [(name, value)] }

/-- One turn of the loop. -/
def turn (body dashed : Bytes) (room : Nat) (st : State) : Turn :=
  match frame body dashed st.i with
  | .done => .done
  | .refused why => .refused why
  | .part span =>
    let i := span.next + dashed.length
    match readPart (span.head body) (span.data body) with
    | .error why => .refused why
    | .ok none => .on { st with i }
    | .ok (some kept) =>
      match st.fields.keep room kept with
      | .error why => .refused why
      | .ok fields => .on { i, fields }

/-- The loop, for at most `n` turns. -/
def run (body dashed : Bytes) (room : Nat) : Nat → State → Except Refusal Fields
  | 0, st => .ok st.fields
  | n + 1, st =>
    match turn body dashed room st with
    | .done => .ok st.fields
    | .refused why => .error why
    | .on st' => run body dashed room n st'

def dashedOf (boundary : Bytes) : Bytes := [dash, dash] ++ boundary

/-- Behind the first boundary. -/
def firstOf (body dashed : Bytes) : Option Nat :=
  if dashed.isPrefixOf body then some dashed.length
  else (indexOfBoundary body 0 dashed).map fun found => found + dashed.length

def roomOf (body dashed : Bytes) : Nat := min (countBoundaries body dashed + 1) maxParts

def parseMultipart (boundary body : Bytes) : Except Refusal Fields :=
  let dashed := dashedOf boundary
  match firstOf body dashed with
  | none => .error .noBoundary
  | some i => run body dashed (roomOf body dashed) (body.length + 1) { i, fields := ⟨[], []⟩ }

/-! ## Room for the parts -/

section Room

variable {body dashed : Bytes} {start start' n m room total found : Nat} {st st' : State}
  {fields : Fields}

/-- A boundary line begins here. -/
def boundaryAt (body dashed : Bytes) (i : Nat) : Bool :=
  dashed.isPrefixOf (body.drop i) && decide (0 < i ∧ body.getD (i - 1) 0 = lf)

theorem indexOfBoundary_eq :
    indexOfBoundary body start dashed = firstIn (boundaryAt body dashed) start body.length := by
  have hhit : Lib.hitAt (fun i => dashed.isPrefixOf (body.drop i))
      (fun found => if 0 < found ∧ body.getD (found - 1) 0 = lf then some found else none) =
        boundaryAt body dashed := by
    funext i
    rw [Lib.hitAt, boundaryAt]
    split_ifs with hline
    · rw [decide_eq_true hline, Option.isSome_some]
    · rw [decide_eq_false hline, Option.isSome_none]
  rw [indexOfBoundary, Lib.firstHit_eq (Nat.le_add_left _ _), hhit]
  cases hfirst : firstIn (boundaryAt body dashed) start body.length with
  | none => rfl
  | some i =>
    have hline := (Lib.Bits.firstIn_some.mp hfirst).1
    rw [boundaryAt, Bool.and_eq_true, decide_eq_true_iff] at hline
    exact if_pos hline.2

theorem countFrom_succ : countFrom body dashed (n + 1) start =
    match indexOfBoundary body start dashed with
    | none => 0
    | some found => countFrom body dashed n (found + dashed.length) + 1 := rfl

/-- Counting from the first boundary on finds no fewer than from a later place. -/
theorem countFrom_le (hle : start ≤ start') (hnm : n ≤ m) :
    countFrom body dashed n start' ≤ countFrom body dashed m start := by
  induction n generalizing m start start' with
  | zero => exact Nat.zero_le _
  | succ n ih =>
    obtain ⟨m, rfl⟩ := Nat.exists_eq_add_of_le hnm
    rw [Nat.add_right_comm, countFrom_succ, countFrom_succ]
    cases hlater : indexOfBoundary body start' dashed with
    | none => exact Nat.zero_le _
    | some found' =>
      rw [indexOfBoundary_eq] at hlater
      obtain ⟨hhit, hge, hlt, -⟩ := Lib.Bits.firstIn_some.mp hlater
      cases hfirst : indexOfBoundary body start dashed with
      | none =>
        rw [indexOfBoundary_eq, Lib.Bits.firstIn_none] at hfirst
        have hmiss := hfirst found' (Nat.le_trans hle hge) hlt
        rw [hhit] at hmiss
        cases hmiss
      | some found =>
        rw [indexOfBoundary_eq] at hfirst
        obtain ⟨-, -, -, hbefore⟩ := Lib.Bits.firstIn_some.mp hfirst
        have hfound : found ≤ found' := by
          by_contra hno
          have hmiss := hbefore found' (Nat.le_trans hle hge) (Nat.lt_of_not_le hno)
          rw [hhit] at hmiss
          cases hmiss
        exact Nat.succ_le_succ (ih (Nat.add_le_add_right hfound _) (Nat.le_add_right _ _))

theorem countFrom_boundary (hle : start ≤ start')
    (h : indexOfBoundary body start' dashed = some found) :
    countFrom body dashed n (found + dashed.length) + 1 ≤ countFrom body dashed (n + 1) start := by
  have hlater : countFrom body dashed (n + 1) start' ≤ countFrom body dashed (n + 1) start :=
    countFrom_le hle (Nat.le_refl _)
  rwa [countFrom_succ, h] at hlater

def Fields.size (self : Fields) : Nat := self.text.length + self.files.length

/-- What is kept of a body is in it, and no array holds more than it has room for. -/
structure Fields.Within (fields : Fields) (body : Bytes) (room : Nat) : Prop where
  text : ∀ p, p ∈ fields.text → p.2 <:+: body
  files : ∀ p, p ∈ fields.files → p.bytes <:+: body
  textRoom : fields.text.length ≤ room
  filesRoom : fields.files.length ≤ room

theorem between_infix (body : Bytes) (start stop : Nat) : between body start stop <:+: body :=
  (List.take_prefix _ _).isInfix.trans (List.drop_suffix _ _).isInfix

theorem le_dataStart {head : PartHead} (h : endOfPartHead body start = some head) :
    start ≤ head.dataStart := by
  rw [endOfPartHead, Lib.firstHit_eq (Nat.le_add_left _ _)] at h
  obtain ⟨feed, hfeed, hhead⟩ := Option.bind_eq_some_iff.mp h
  have hle := (Lib.Bits.firstIn_some.mp hfeed).2.1
  rw [headAt] at hhead
  split_ifs at hhead
  · cases hhead
    exact Nat.le_add_right_of_le hle
  · cases hhead
    exact Nat.le_add_right_of_le hle

/-- A part that is stepped behind ends at a boundary behind where the turn began. -/
theorem frame_cases (body dashed : Bytes) (i : Nat) :
    frame body dashed i = .done ∨
      (∃ why, frame body dashed i = .refused why ∧ why ≠ .tooManyParts) ∨
      ∃ span place, frame body dashed i = .part span ∧ i ≤ place ∧
        indexOfBoundary body place dashed = some span.next := by
  rw [frame]
  split_ifs
  · exact .inl rfl
  · cases hline : indexOfScalarPos body i lf with
    | none => exact .inl rfl
    | some lineEnd =>
      dsimp only
      cases hhead : endOfPartHead body (lineEnd + 1) with
      | none => exact .inr (.inl ⟨_, rfl, by decide⟩)
      | some head =>
        dsimp only
        cases hnext : indexOfBoundary body head.dataStart dashed with
        | none => exact .inr (.inl ⟨_, rfl, by decide⟩)
        | some next =>
          have hle := (Lib.Bits.firstIn_some.mp hline).2.1
          have hbehind := le_dataStart hhead
          exact .inr (.inr ⟨_, head.dataStart, rfl, by omega, hnext⟩)

/-- The contents of a part. -/
def Kept.data : Kept → Bytes
  | .text _ value => value
  | .file part => part.bytes

theorem readPart_cases {head data : Bytes} :
    readPart head data = .ok none ∨ (∃ name, readPart head data = .error (.onlyFilenameStar name)) ∨
      ∃ kept, readPart head data = .ok (some kept) ∧ kept.data = data := by
  rw [readPart]
  cases headerIn head (ascii "content-disposition") with
  | none => exact .inl rfl
  | some disposition =>
    dsimp only
    cases parameterOf disposition (ascii "name") with
    | none => exact .inl rfl
    | some name =>
      dsimp only
      cases parameterOf disposition (ascii "filename") with
      | none =>
        dsimp only
        split_ifs
        · exact .inr (.inl ⟨name, rfl⟩)
        · exact .inr (.inr ⟨_, rfl, rfl⟩)
      | some filename =>
        dsimp only
        split_ifs
        · exact .inl rfl
        · exact .inr (.inr ⟨_, rfl, rfl⟩)

theorem keep_cases {kept : Kept} (h : fields.Within body room) (hdata : kept.data <:+: body) :
    (fields.keep room kept = .error .tooManyParts ∧ room ≤ fields.size) ∨
      ∃ fields', fields.keep room kept = .ok fields' ∧ fields'.Within body room ∧
        fields'.size = fields.size + 1 := by
  have htext := h.textRoom
  have hfiles := h.filesRoom
  cases kept with
  | text name value =>
    rw [Fields.keep]
    split_ifs with hfull
    · exact .inl ⟨rfl, by rw [Fields.size]; omega⟩
    · refine .inr ⟨_, rfl, ⟨?_, h.files, ?_, hfiles⟩, ?_⟩
      · intro p hp
        rcases List.mem_append.mp hp with hp | hp
        · exact h.text p hp
        · rw [List.mem_singleton.mp hp]
          exact hdata
      · simp only [List.length_append, List.length_singleton]
        omega
      · simp only [Fields.size, List.length_append, List.length_singleton]
        omega
  | file part =>
    rw [Fields.keep]
    split_ifs with hfull
    · exact .inl ⟨rfl, by rw [Fields.size]; omega⟩
    · refine .inr ⟨_, rfl, ⟨h.text, ?_, htext, ?_⟩, ?_⟩
      · intro p hp
        rcases List.mem_append.mp hp with hp | hp
        · exact h.files p hp
        · rw [List.mem_singleton.mp hp]
          exact hdata
      · simp only [List.length_append, List.length_singleton]
        omega
      · simp only [Fields.size, List.length_append, List.length_singleton]
        omega

/-- A turn takes at least one of the boundaries that were counted from where it began. -/
theorem turn_cases (hwithin : st.fields.Within body room) (n : Nat) :
    turn body dashed room st = .done ∨
      (∃ why, turn body dashed room st = .refused why ∧ (why = .tooManyParts →
        room ≤ st.fields.size ∧ 0 < countFrom body dashed (n + 1) st.i)) ∨
      ∃ st', turn body dashed room st = .on st' ∧ st'.fields.Within body room ∧
        st'.fields.size + countFrom body dashed n st'.i ≤
          st.fields.size + countFrom body dashed (n + 1) st.i := by
  rw [turn]
  rcases frame_cases body dashed st.i with hframe | ⟨why, hframe, hwhy⟩ |
    ⟨span, place, hframe, hle, hnext⟩
  · rw [hframe]
    exact .inl rfl
  · rw [hframe]
    exact .inr (.inl ⟨why, rfl, fun hno => absurd hno hwhy⟩)
  · rw [hframe]
    have hcount := countFrom_boundary (n := n) hle hnext
    have hdata : span.data body <:+: body := between_infix body _ _
    dsimp only
    rcases @readPart_cases (span.head body) (span.data body) with hread | ⟨name, hread⟩ |
      ⟨kept, hread, hkept⟩
    · rw [hread]
      exact .inr (.inr ⟨_, rfl, hwithin, by dsimp only; omega⟩)
    · rw [hread]
      exact .inr (.inl ⟨_, rfl, fun hwhy => by cases hwhy⟩)
    · rw [hread]
      rcases keep_cases hwithin (hkept ▸ hdata) with ⟨hkeep, hfull⟩ | ⟨fields', hkeep, hfields, hsize⟩
      · dsimp only
        rw [hkeep]
        exact .inr (.inl ⟨_, rfl, fun _ => ⟨hfull, by omega⟩⟩)
      · dsimp only
        rw [hkeep]
        exact .inr (.inr ⟨_, rfl, hfields, by dsimp only; omega⟩)

/-- The loop keeps no more parts than boundaries were counted, and runs out of room only when there
are more of them than it has room for. -/
theorem within_of_run (hwithin : st.fields.Within body room)
    (hcount : st.fields.size + countFrom body dashed n st.i ≤ total) :
    (run body dashed room n st = .error .tooManyParts → room < total) ∧
      ∀ fields, run body dashed room n st = .ok fields →
        fields.Within body room ∧ fields.size ≤ total := by
  induction n generalizing st with
  | zero =>
    refine ⟨fun hno => (by cases hno), fun fields hok => ?_⟩
    cases hok
    exact ⟨hwithin, by omega⟩
  | succ n ih =>
    rw [run]
    rcases turn_cases hwithin n with hturn | ⟨why, hturn, hfull⟩ | ⟨st', hturn, hwithin', hcount'⟩
    · rw [hturn]
      refine ⟨fun hno => (by cases hno), fun fields hok => ?_⟩
      cases hok
      exact ⟨hwithin, by omega⟩
    · rw [hturn]
      refine ⟨fun hno => ?_, fun fields hok => (by cases hok)⟩
      cases hno
      obtain ⟨hroom, hpos⟩ := hfull rfl
      omega
    · rw [hturn]
      exact ih hwithin' (by omega)

/-- A form is refused for its parts only when it has more boundary lines than parts are read, for the
arrays were made for as many as were counted; and what is kept of an accepted one is no more than
that, every value and every file a slice of the body. -/
theorem parseMultipart_within (boundary body : Bytes) :
    (parseMultipart boundary body = .error .tooManyParts →
        maxParts < countBoundaries body (dashedOf boundary)) ∧
      ∀ fields, parseMultipart boundary body = .ok fields →
        fields.Within body maxParts ∧ fields.size ≤ countBoundaries body (dashedOf boundary) := by
  rw [parseMultipart]
  cases hfirst : firstOf body (dashedOf boundary) with
  | none => exact ⟨fun hno => (by cases hno), fun fields hok => (by cases hok)⟩
  | some i =>
    let st : State := ⟨i, ⟨[], []⟩⟩
    have hempty : st.fields.Within body (roomOf body (dashedOf boundary)) :=
      ⟨fun p hp => absurd hp List.not_mem_nil, fun p hp => absurd hp List.not_mem_nil,
        Nat.zero_le _, Nat.zero_le _⟩
    have hcount : st.fields.size + countFrom body (dashedOf boundary) (body.length + 1) st.i ≤
        countBoundaries body (dashedOf boundary) :=
      (Nat.zero_add _).trans_le (countFrom_le (Nat.zero_le i) (Nat.le_refl _))
    obtain ⟨hrefused, hok⟩ := within_of_run hempty hcount
    refine ⟨fun hno => ?_, fun fields hfields => ?_⟩
    · have hroom := hrefused hno
      rw [roomOf] at hroom
      omega
    · obtain ⟨hwithin, hsize⟩ := hok fields hfields
      have hle : roomOf body (dashedOf boundary) ≤ maxParts := Nat.min_le_right _ _
      exact ⟨⟨hwithin.text, hwithin.files, hwithin.textRoom.trans hle, hwithin.filesRoom.trans hle⟩,
        hsize⟩

end Room
end Nilo.Multipart
