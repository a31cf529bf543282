import Nilo.Std.Decimal
import Nilo.Std.EventStream

/-!
# Event streams (`http/stream.zig`)

`send`, `comment` and `retry` of `Events`, as the bytes each adds to the stream. The data and the
comments are split where the reader of the stream ends a line, so no line of theirs is a field of its
own: what is read back is what was sent (`read_written`).
-/

namespace Nilo.Events

open Text (Bytes ascii digitsOf isDigit decimal)
open EventStream (Reader Message OneLine toLf lines)

structure Event where
  name : Bytes := []
  id : Bytes := []
  data : Bytes

/-! ## Lines -/

/-- The lines of a text that are still to come. -/
structure Lines where
  rest : Bytes
  done : Bool := false

/-- The loop of `next`, with what it has passed of its line. -/
def Lines.scan (line : Bytes) : Bytes → Bytes × Lines
  | [] => (line, { rest := [], done := true })
  | ch :: rest =>
    if ch ≠ 10 ∧ ch ≠ 13 then scan (line ++ [ch]) rest
    else if ch = 13 ∧ rest.head? = some 10 then (line, { rest := rest.tail })
    else (line, { rest })

def Lines.next (self : Lines) : Option (Bytes × Lines) :=
  if self.done then none else some (scan [] self.rest)

theorem Lines.scan_length (line rest : Bytes) :
    (scan line rest).2 = { rest := [], done := true } ∨
      (scan line rest).2.rest.length < rest.length := by
  induction rest generalizing line with
  | nil => exact .inl rfl
  | cons ch rest ih =>
    rw [scan]
    split_ifs
    · exact (ih _).imp_right fun hlt => Nat.lt_succ_of_lt hlt
    · right
      dsimp only
      rw [List.length_tail, List.length_cons]
      omega
    · exact .inr (Nat.lt_succ_self _)

/-- `while (lines.next()) |line|`. -/
def Lines.all (self : Lines) : List Bytes :=
  match h : self.next with
  | none => []
  | some (line, after) => line :: after.all
termination_by (if self.done then 0 else 1) + self.rest.length
decreasing_by
  rw [next] at h
  split_ifs at h with hdone
  have hafter : (scan [] self.rest).2 = after := congrArg Prod.snd (Option.some.inj h)
  have hlength := scan_length [] self.rest
  rw [hafter] at hlength
  rw [if_neg hdone]
  rcases hlength with rfl | hlt
  · exact Nat.lt_add_right _ Nat.zero_lt_one
  · split_ifs <;> omega

theorem Lines.all_eq (self : Lines) : self.all =
    match self.next with
    | none => []
    | some (line, after) => line :: after.all := by
  rw [all]
  split <;> rename_i h <;> rw [h]

/-- A line ends in front of a break, which is not part of what follows, or with the text. -/
theorem Lines.scan_cases (line rest : Bytes) :
    ∃ text, OneLine text ∧ (scan line rest).1 = line ++ text ∧
      ((rest = text ∧ (scan line rest).2 = { rest := [], done := true }) ∨
        ∃ after, (scan line rest).2 = { rest := after } ∧ after.length < rest.length ∧
          toLf rest = text ++ 10 :: toLf after) := by
  induction rest generalizing line with
  | nil => exact ⟨[], List.forall_mem_nil _, (List.append_nil line).symm, .inl ⟨rfl, rfl⟩⟩
  | cons ch rest ih =>
    rw [scan]
    by_cases hch : ch ≠ 10 ∧ ch ≠ 13
    · obtain ⟨text, htext, hline, hrest⟩ := ih (line ++ [ch])
      rw [if_pos hch]
      refine ⟨ch :: text, List.forall_mem_cons.mpr ⟨hch, htext⟩, by rw [hline, List.append_assoc]; rfl, ?_⟩
      rcases hrest with ⟨rfl, hdone⟩ | ⟨after, hafter, hlt, hlf⟩
      · exact .inl ⟨rfl, hdone⟩
      · refine .inr ⟨after, hafter, Nat.lt_succ_of_lt hlt, ?_⟩
        rw [EventStream.toLf_other hch.2, hlf]
        rfl
    · rw [if_neg hch]
      refine ⟨[], List.forall_mem_nil _, ?_, .inr ?_⟩
      · rw [List.append_nil]
        split_ifs <;> rfl
      · by_cases hpair : ch = 13 ∧ rest.head? = some 10
        · obtain ⟨rfl, hhead⟩ := hpair
          cases rest with
          | nil => cases hhead
          | cons lf rest =>
            cases hhead
            rw [if_pos ⟨rfl, rfl⟩]
            exact ⟨rest, rfl, Nat.lt_succ_of_lt (Nat.lt_succ_self _), rfl⟩
        · rw [if_neg hpair]
          refine ⟨rest, rfl, Nat.lt_succ_self _, ?_⟩
          by_cases hcr : ch = 13
          · subst hcr
            exact EventStream.toLf_cr fun hhead => hpair ⟨rfl, hhead⟩
          · obtain rfl : ch = 10 := by
              by_contra hlf
              exact hch ⟨hlf, hcr⟩
            exact EventStream.toLf_other (by decide) rest

/-- The lines of a text are those its reader finds. -/
theorem Lines.all_spec (text : Bytes) :
    (∀ line ∈ ({ rest := text } : Lines).all, OneLine line) ∧
      ({ rest := text } : Lines).all.flatMap (· ++ [10]) = toLf text ++ [10] := by
  induction hn : text.length using Nat.strong_induction_on generalizing text with
  | _ n ih =>
    obtain ⟨line, hline, hfirst, hrest⟩ := scan_cases [] text
    rw [List.nil_append] at hfirst
    have hall : ({ rest := text } : Lines).all = line :: (scan [] text).2.all := by
      rw [all_eq, next, if_neg Bool.false_ne_true, ← hfirst]
    rw [hall, List.flatMap_cons]
    rcases hrest with ⟨rfl, hdone⟩ | ⟨after, hafter, hlt, hlf⟩
    · have hnone : ({ rest := [], done := true } : Lines).all = [] := by
        rw [all_eq, next, if_pos rfl]
      rw [hdone, hnone, EventStream.toLf_oneLine hline]
      exact ⟨List.forall_mem_singleton.mpr hline, List.append_nil _⟩
    · obtain ⟨hlines, hjoined⟩ := ih after.length (hn ▸ hlt) after rfl
      rw [hafter, hjoined, hlf]
      refine ⟨List.forall_mem_cons.mpr ⟨hline, hlines⟩, ?_⟩
      simp only [List.append_assoc, List.cons_append, List.nil_append]

/-! ## Writing -/

/-- A field of one line; none is `error.EventFieldBreaksLine`. -/
def oneLine (field : Bytes) : Bool := !field.any fun ch => ch == 13 || ch == 10

/-- `data:` for every line of `text`. -/
def writeData (text : Bytes) : Bytes :=
  if text.length = 0 then ascii "data:\n"
  else ({ rest := text } : Lines).all.flatMap fun line => ascii "data: " ++ line ++ [10]

def writeEvent (event : Event) : Bytes :=
  (if event.name.length > 0 then ascii "event: " ++ event.name ++ [10] else []) ++
    (if event.id.length > 0 then ascii "id: " ++ event.id ++ [10] else []) ++
    writeData event.data ++ [10]

/-- What `send` adds to the stream; none is an error, with nothing written. -/
def send (event : Event) : Option Bytes :=
  if !oneLine event.name then none
  else if !oneLine event.id then none
  else some (writeEvent event)

def comment (text : Bytes) : Bytes :=
  (({ rest := text } : Lines).all.flatMap fun line => ascii ": " ++ line ++ [10]) ++ [10]

def retry (millis : Nat) : Bytes := ascii "retry: " ++ digitsOf millis ++ ascii "\n\n"

/-- A call on an open stream. -/
inductive Call where
  | send (event : Event)
  | comment (text : Bytes)
  | retry (millis : Nat)

def Call.written : Call → Bytes
  | .send event => (Events.send event).getD []
  | .comment text => Events.comment text
  | .retry millis => Events.retry millis

/-! ## What a reader is told -/

/-- The id a listener is shown: the last one given, and an id with a NUL is none. -/
def idAfter (last id : Bytes) : Bytes := if id = [] ∨ 0 ∈ id then last else id

def typeOf (name : Bytes) : Bytes := if name = [] then ascii "message" else name

def messages (last : Bytes) : List Event → List Message
  | [] => []
  | event :: events =>
    ⟨typeOf event.name, toLf event.data, idAfter last event.id⟩ ::
      messages (idAfter last event.id) events

/-- The events that are sent. -/
def accepted (calls : List Call) : List Event :=
  calls.filterMap fun
    | .send event => if (send event).isSome then some event else none
    | _ => none

def retries (calls : List Call) : List Nat :=
  calls.filterMap fun
    | .retry millis => some millis
    | _ => none

/-! ## Line by line -/

theorem oneLine_iff {field : Bytes} : oneLine field = true ↔ OneLine field := by
  rw [oneLine, OneLine, Bool.not_eq_true', List.any_eq_false]
  refine forall₂_congr fun ch _ => ?_
  simp only [Bool.or_eq_true, beq_iff_eq, not_or]
  exact And.comm

/-- The lines of a field, if it is there. -/
def fieldLines (start field : Bytes) : List Bytes := if field = [] then [] else [start ++ field]

def dataLines (data : Bytes) : List Bytes :=
  if data = [] then [ascii "data:"] else ({ rest := data } : Lines).all.map (ascii "data: " ++ ·)

def eventLines (event : Event) : List Bytes :=
  fieldLines (ascii "event: ") event.name ++ fieldLines (ascii "id: ") event.id ++
    dataLines event.data ++ [[]]

theorem fieldLines_flatMap (start field : Bytes) : (fieldLines start field).flatMap (· ++ [10]) =
    if field.length > 0 then start ++ field ++ [10] else [] := by
  rw [fieldLines]
  cases field with
  | nil => rfl
  | cons ch field =>
    rw [if_neg (List.cons_ne_nil ch field), if_pos (show (ch :: field).length > 0 from Nat.succ_pos _)]
    exact List.append_nil _

theorem dataLines_flatMap (data : Bytes) : (dataLines data).flatMap (· ++ [10]) = writeData data := by
  rw [dataLines, writeData]
  cases data with
  | nil => decide
  | cons ch data =>
    rw [if_neg (List.cons_ne_nil ch data), if_neg (show ¬ (ch :: data).length = 0 from Nat.succ_ne_zero _),
      List.flatMap_map]

theorem eventLines_flatMap (event : Event) :
    (eventLines event).flatMap (· ++ [10]) = writeEvent event := by
  rw [eventLines, writeEvent, List.flatMap_append, List.flatMap_append, List.flatMap_append,
    fieldLines_flatMap, fieldLines_flatMap, dataLines_flatMap]
  rfl

/-- A line of the stream, with nothing that a decoder would take for a byte order mark. -/
def Whole (line : Bytes) : Prop := OneLine line ∧ line.head? ≠ some 0xEF

theorem whole_append {start field : Bytes} (hstart : start ≠ []) (h : Whole start)
    (h' : OneLine field) : Whole (start ++ field) := by
  obtain ⟨hone, hhead⟩ := h
  refine ⟨List.forall_mem_append.mpr ⟨hone, h'⟩, ?_⟩
  cases start with
  | nil => exact absurd rfl hstart
  | cons ch start => exact hhead

theorem fieldLines_whole (start : Bytes) {field : Bytes} (hstart : start ≠ []) (h : Whole start)
    (h' : OneLine field) : ∀ line ∈ fieldLines start field, Whole line := by
  rw [fieldLines]
  split_ifs
  · exact List.forall_mem_nil _
  · exact List.forall_mem_singleton.mpr (whole_append hstart h h')

theorem dataLines_whole (data : Bytes) : ∀ line ∈ dataLines data, Whole line := by
  rw [dataLines]
  split_ifs
  · exact List.forall_mem_singleton.mpr ⟨by decide, by decide⟩
  · refine List.forall_mem_map.mpr fun line hline => ?_
    exact whole_append (by decide) ⟨by decide, by decide⟩ ((Lines.all_spec data).1 line hline)

theorem whole_nil : ∀ line ∈ ([[]] : List Bytes), Whole line :=
  List.forall_mem_singleton.mpr ⟨by decide, by decide⟩

theorem eventLines_whole {event : Event} (hname : OneLine event.name) (hid : OneLine event.id) :
    ∀ line ∈ eventLines event, Whole line := by
  have hname' := fieldLines_whole (ascii "event: ") (by decide) ⟨by decide, by decide⟩ hname
  have hid' := fieldLines_whole (ascii "id: ") (by decide) ⟨by decide, by decide⟩ hid
  exact List.forall_mem_append.mpr ⟨List.forall_mem_append.mpr ⟨List.forall_mem_append.mpr
    ⟨hname', hid'⟩, dataLines_whole event.data⟩, whole_nil⟩

/-! ## A call -/

/-- Nothing is left in the buffers of an event. -/
def Idle (r : Reader) : Prop := r.data = [] ∧ r.type = []

/-- What a call tells a reader. -/
def hear (r : Reader) : Call → Reader
  | .send event =>
    if (send event).isSome then
      { r with
        lastId := idAfter r.lastId event.id
        dispatched := r.dispatched ++
          [⟨typeOf event.name, toLf event.data, idAfter r.lastId event.id⟩] }
    else r
  | .comment _ => r
  | .retry millis => { r with retry := some millis }

theorem hear_idle {r : Reader} (h : Idle r) (call : Call) : Idle (hear r call) := by
  cases call with
  | send event =>
    rw [hear]
    split_ifs <;> exact h
  | comment text => exact h
  | retry millis => exact h

theorem foldl_name (r : Reader) (hr : r.type = []) (name : Bytes) :
    (fieldLines (ascii "event: ") name).foldl Reader.line r = { r with type := name } := by
  rw [fieldLines]
  split_ifs with hname
  · rw [List.foldl_nil, hname, ← hr]
  · exact Reader.line_field (show ascii "event" ≠ [] by decide) (by decide) (32 :: name)

theorem foldl_id (r : Reader) (id : Bytes) :
    (fieldLines (ascii "id: ") id).foldl Reader.line r = { r with lastId := idAfter r.lastId id } := by
  rw [fieldLines, idAfter]
  by_cases hnone : id = []
  · rw [if_pos hnone, if_pos (.inl hnone)]
    rfl
  · have hline := Reader.line_field (r := r) (show ascii "id" ≠ [] by decide) (by decide) (32 :: id)
    rw [if_neg hnone]
    refine hline.trans ?_
    by_cases hnul : 0 ∈ id
    · rw [if_pos (.inr hnul)]
      exact if_pos hnul
    · rw [if_neg (not_or.mpr ⟨hnone, hnul⟩)]
      exact if_neg hnul

theorem foldl_dataLines (r : Reader) (hr : r.data = []) (data : Bytes) :
    (dataLines data).foldl Reader.line r = { r with data := toLf data ++ [10] } := by
  rw [dataLines]
  split_ifs with hnone
  · rw [hnone]
    refine (Reader.line_field (show ascii "data" ≠ [] by decide) (by decide) []).trans ?_
    exact congrArg (fun data => { r with data }) (congrArg (· ++ [] ++ [10]) hr)
  · rw [Reader.foldl_data, hr, (Lines.all_spec data).2]
    rfl

theorem foldl_eventLines {r : Reader} (h : Idle r) {event : Event} (hsend : (send event).isSome) :
    (eventLines event).foldl Reader.line r = hear r (.send event) := by
  obtain ⟨data, type, lastId, known, dispatched⟩ := r
  obtain ⟨rfl, rfl⟩ := h
  rw [eventLines, List.foldl_append, List.foldl_append, List.foldl_append, foldl_name _ rfl, foldl_id,
    foldl_dataLines _ rfl, List.foldl_cons, List.foldl_nil, Reader.line, if_pos rfl, Reader.dispatch,
    if_neg (by simp), hear, if_pos hsend]
  dsimp only
  rw [List.getLast?_concat, if_pos rfl, List.dropLast_concat]
  rfl

/-- A field of `retry`. -/
theorem line_retry (r : Reader) (millis : Nat) :
    r.line (ascii "retry: " ++ digitsOf millis) = { r with retry := some millis } := by
  have hline := Reader.line_field (r := r) (show ascii "retry" ≠ [] by decide) (by decide)
    (32 :: digitsOf millis)
  refine hline.trans ((if_pos (Text.all_digitsOf millis)).trans ?_)
  exact congrArg (fun n => { r with retry := some n }) (Text.decimal_digitsOf millis)

theorem Reader.line_nil {r : Reader} (h : Idle r) : r.line [] = r := by
  obtain ⟨data, type, lastId, known, dispatched⟩ := r
  obtain ⟨rfl, rfl⟩ := h
  rfl

theorem digitsOf_oneLine (n : Nat) : OneLine (digitsOf n) := by
  intro ch hch
  have hdigit := Text.isDigit_iff.mp (List.all_eq_true.mp (Text.all_digitsOf n) ch hch)
  constructor <;> rintro rfl <;> simp only [UInt8.reduceToNat] at hdigit <;> omega

/-- The lines of a call, and what the reader makes of them. -/
theorem written_lines {r : Reader} (h : Idle r) (call : Call) :
    ∃ texts : List Bytes, (∀ text ∈ texts, Whole text) ∧ call.written = texts.flatMap (· ++ [10]) ∧
      texts.foldl Reader.line r = hear r call := by
  cases call with
  | send event =>
    by_cases hok : oneLine event.name = true ∧ oneLine event.id = true
    · obtain ⟨hname, hid⟩ := hok
      have hsend : send event = some (writeEvent event) := by
        rw [send, hname, hid]
        rfl
      refine ⟨eventLines event, eventLines_whole (oneLine_iff.mp hname) (oneLine_iff.mp hid), ?_,
        foldl_eventLines h (by rw [hsend]; rfl)⟩
      rw [Call.written, hsend, eventLines_flatMap]
      rfl
    · have hsend : send event = none := by
        rw [send]
        cases hname : oneLine event.name with
        | false => rfl
        | true =>
          rw [Bool.eq_false_iff.mpr fun hid => hok ⟨hname, hid⟩]
          rfl
      rw [Call.written, hear, hsend]
      exact ⟨[], List.forall_mem_nil _, rfl, rfl⟩
  | comment text =>
    refine ⟨({ rest := text } : Lines).all.map (ascii ": " ++ ·) ++ [[]], ?_, ?_, ?_⟩
    · refine List.forall_mem_append.mpr ⟨List.forall_mem_map.mpr fun line hline => ?_, whole_nil⟩
      exact whole_append (by decide) ⟨by decide, by decide⟩ ((Lines.all_spec text).1 line hline)
    · rw [List.flatMap_append, List.flatMap_map]
      rfl
    · rw [List.foldl_append, Reader.foldl_comments]
      exact Reader.line_nil h
  | retry millis =>
    refine ⟨[ascii "retry: " ++ digitsOf millis, []], ?_, ?_, ?_⟩
    · refine List.forall_mem_cons.mpr ⟨?_, whole_nil⟩
      exact whole_append (by decide) ⟨by decide, by decide⟩ (digitsOf_oneLine millis)
    · rw [Call.written, retry]
      simp only [List.flatMap_cons, List.flatMap_nil, List.append_assoc]
      rfl
    · rw [List.foldl_cons, line_retry]
      exact Reader.line_nil h

/-- What is read is what was called. -/
theorem foldl_calls {r : Reader} (h : Idle r) (calls : List Call) :
    (lines [] (calls.flatMap Call.written)).foldl Reader.line r = calls.foldl hear r := by
  induction calls generalizing r with
  | nil => rfl
  | cons call calls ih =>
    obtain ⟨texts, htexts, hwritten, hheard⟩ := written_lines h call
    rw [List.flatMap_cons, hwritten, EventStream.lines_flatMap fun text ht => (htexts text ht).1,
      List.foldl_append, hheard, ih (hear_idle h call), List.foldl_cons]

theorem head_calls (calls : List Call) : (calls.flatMap Call.written).head? ≠ some 0xEF := by
  induction calls with
  | nil => exact Option.some_ne_none _ ∘ Eq.symm
  | cons call calls ih =>
    obtain ⟨texts, htexts, hwritten, -⟩ := written_lines (r := {}) ⟨rfl, rfl⟩ call
    rw [List.flatMap_cons, hwritten]
    cases texts with
    | nil => exact ih
    | cons text texts =>
      obtain ⟨-, hhead⟩ := htexts text List.mem_cons_self
      cases text with
      | nil => exact fun h => by cases h
      | cons ch text => exact hhead

theorem read_calls (calls : List Call) :
    EventStream.read (calls.flatMap Call.written) = calls.foldl hear {} := by
  rw [EventStream.read, EventStream.withoutMark_of_head (head_calls calls), foldl_calls ⟨rfl, rfl⟩]

/-! ## All that is told -/

theorem foldl_hear (r : Reader) (calls : List Call) :
    (calls.foldl hear r).dispatched = r.dispatched ++ messages r.lastId (accepted calls) ∧
      (calls.foldl hear r).retry = (retries calls).getLast?.or r.retry := by
  induction calls generalizing r with
  | nil => exact ⟨(List.append_nil _).symm, rfl⟩
  | cons call calls ih =>
    obtain ⟨hdispatched, hretry⟩ := ih (hear r call)
    rw [List.foldl_cons, hdispatched, hretry]
    cases call with
    | send event =>
      cases hsend : (send event).isSome with
      | false =>
        have hskip : accepted (.send event :: calls) = accepted calls :=
          List.filterMap_cons_none (by dsimp only; rw [hsend]; rfl)
        rw [hskip, hear, hsend]
        exact ⟨rfl, rfl⟩
      | true =>
        have htake : accepted (.send event :: calls) = event :: accepted calls :=
          List.filterMap_cons_some (by dsimp only; rw [hsend]; rfl)
        rw [htake, hear, hsend]
        exact ⟨List.append_assoc _ _ _, rfl⟩
    | comment text => exact ⟨rfl, rfl⟩
    | retry millis =>
      refine ⟨rfl, ?_⟩
      have htake : retries (.retry millis :: calls) = millis :: retries calls := rfl
      rw [htake, List.getLast?_cons]
      cases (retries calls).getLast? <;> rfl

/-- A reader of the stream is told of the events that were sent, in order, each with its name, its
data in lines that end in LF and the last id, and of no other; only `retry` sets the time to wait. -/
theorem read_written (calls : List Call) :
    (EventStream.read (calls.flatMap Call.written)).dispatched = messages [] (accepted calls) ∧
      (EventStream.read (calls.flatMap Call.written)).retry = (retries calls).getLast? := by
  have htold := foldl_hear {} calls
  rw [read_calls]
  exact ⟨htold.1, htold.2.trans (Option.or_none ..)⟩

/-- An event that leaves its id off is shown with the id before it. -/
theorem not_read_as_sent : ¬ ∀ events : List Event, (∀ e ∈ events, (send e).isSome ∧ 0 ∉ e.id) →
    (EventStream.read ((events.map Call.send).flatMap Call.written)).dispatched =
      events.map fun e => ⟨e.name, toLf e.data, e.id⟩ := by
  intro h
  have hread := h [⟨ascii "tick", ascii "1", []⟩, ⟨ascii "tick", [], []⟩] (by decide)
  rw [read_calls, (foldl_hear _ _).1] at hread
  revert hread
  decide

end Nilo.Events
