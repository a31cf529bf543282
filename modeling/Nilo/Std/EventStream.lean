import Nilo.Std.Text

/-!
# Reading an event stream (the WHATWG grammar)

How a browser reads `text/event-stream`: a line ends at CRLF, at LF and at a lone CR, a field sets a
buffer, and an empty line dispatches what the buffers hold. The bytes that steer it are ASCII, so it is
stated over bytes.
-/

namespace Nilo.EventStream

open Text (Bytes ascii decimal isDigit cut)

/-- The lines of a stream, with what is read of the first. An unfinished line is none. -/
def lines (line : Bytes) : Bytes → List Bytes
  | [] => []
  | 10 :: rest => line :: lines [] rest
  | 13 :: 10 :: rest => line :: lines [] rest
  | 13 :: rest => line :: lines [] rest
  | ch :: rest => lines (line ++ [ch]) rest

/-- A text with each of its line breaks made an LF. -/
def toLf : Bytes → Bytes
  | [] => []
  | 13 :: 10 :: rest => 10 :: toLf rest
  | 13 :: rest => 10 :: toLf rest
  | ch :: rest => ch :: toLf rest

/-- What a listener is given. -/
structure Message where
  type : Bytes
  data : Bytes
  lastId : Bytes
deriving DecidableEq

/-- The buffers of the parser, the reconnection time, and what has been dispatched. -/
structure Reader where
  data : Bytes := []
  type : Bytes := []
  lastId : Bytes := []
  retry : Option Nat := none
  dispatched : List Message := []

def Reader.dispatch (self : Reader) : Reader :=
  if self.data = [] then { self with type := [] }
  else
    let message : Message :=
      { type := if self.type = [] then ascii "message" else self.type
        data := if self.data.getLast? = some 10 then self.data.dropLast else self.data
        lastId := self.lastId }
    { self with data := [], type := [], dispatched := self.dispatched ++ [message] }

def Reader.field (self : Reader) (name value : Bytes) : Reader :=
  if name = ascii "event" then { self with type := value }
  else if name = ascii "data" then { self with data := self.data ++ value ++ [10] }
  else if name = ascii "id" then if 0 ∈ value then self else { self with lastId := value }
  else if name = ascii "retry" then
    if value.all isDigit then { self with retry := some (decimal value) } else self
  else self

/-- A value loses one leading space. -/
def valueOf : Bytes → Bytes
  | 32 :: value => value
  | value => value

def Reader.line (self : Reader) (line : Bytes) : Reader :=
  if line = [] then self.dispatch
  else
    match cut 58 line with
    | ([], some _) => self
    | (name, some value) => self.field name (valueOf value)
    | (name, none) => self.field name []

def withoutMark : Bytes → Bytes
  | 0xEF :: 0xBB :: 0xBF :: rest => rest
  | stream => stream

def read (stream : Bytes) : Reader := (lines [] (withoutMark stream)).foldl Reader.line {}

/-! ## Lines -/

/-- Neither CR nor LF. -/
def OneLine (text : Bytes) : Prop := ∀ ch ∈ text, ch ≠ 10 ∧ ch ≠ 13

instance : DecidablePred OneLine := List.decidableBAll fun ch => ch ≠ 10 ∧ ch ≠ 13

theorem lines_lf (line rest : Bytes) : lines line (10 :: rest) = line :: lines [] rest := rfl

theorem lines_other {ch : UInt8} (h : ch ≠ 10 ∧ ch ≠ 13) (line rest : Bytes) :
    lines line (ch :: rest) = lines (line ++ [ch]) rest := by
  rw [lines]
  · exact h.1
  · rintro _ heq -
    exact h.2 heq
  · exact h.2

/-- A line with its LF. -/
theorem lines_append {text : Bytes} (h : OneLine text) (line rest : Bytes) :
    lines line (text ++ 10 :: rest) = (line ++ text) :: lines [] rest := by
  induction text generalizing line with
  | nil => rw [List.nil_append, lines_lf, List.append_nil]
  | cons ch text ih =>
    obtain ⟨hch, hrest⟩ := List.forall_mem_cons.mp h
    rw [List.cons_append, lines_other hch, ih hrest, List.append_assoc]
    rfl

/-- Lines with their LFs. -/
theorem lines_flatMap {texts : List Bytes} (h : ∀ text ∈ texts, OneLine text) (rest : Bytes) :
    lines [] (texts.flatMap (· ++ [10]) ++ rest) = texts ++ lines [] rest := by
  induction texts with
  | nil => rfl
  | cons text texts ih =>
    obtain ⟨htext, hrest⟩ := List.forall_mem_cons.mp h
    rw [List.flatMap_cons, List.append_assoc, List.append_assoc, List.singleton_append,
      lines_append htext, ih hrest]
    rfl

theorem toLf_other {ch : UInt8} (h : ch ≠ 13) (rest : Bytes) : toLf (ch :: rest) = ch :: toLf rest := by
  rw [toLf]
  · rintro _ heq -
    exact h heq
  · exact h

theorem toLf_append {text : Bytes} (h : OneLine text) (rest : Bytes) :
    toLf (text ++ rest) = text ++ toLf rest := by
  induction text with
  | nil => rfl
  | cons ch text ih =>
    obtain ⟨hch, hrest⟩ := List.forall_mem_cons.mp h
    rw [List.cons_append, toLf_other hch.2, ih hrest]
    rfl

theorem toLf_oneLine {text : Bytes} (h : OneLine text) : toLf text = text := by
  have hend := toLf_append h []
  rwa [toLf, List.append_nil] at hend

/-- A lone CR. -/
theorem toLf_cr {rest : Bytes} (h : rest.head? ≠ some 10) : toLf (13 :: rest) = 10 :: toLf rest := by
  rw [toLf]
  rintro rest' rfl
  exact h rfl

theorem withoutMark_of_head {stream : Bytes} (h : stream.head? ≠ some 0xEF) :
    withoutMark stream = stream := by
  rw [withoutMark.eq_def]
  split
  · exact absurd rfl h
  · rfl

/-! ## One line -/

variable {r : Reader} {name value : Bytes}

/-- A named field. -/
theorem Reader.line_field (hname : name ≠ []) (hcolon : 58 ∉ name) (value : Bytes) :
    r.line (name ++ 58 :: value) = r.field name (valueOf value) := by
  rw [line, if_neg (by simp), Text.cut_append hcolon]
  cases name with
  | nil => exact absurd rfl hname
  | cons ch name => rfl

theorem Reader.line_comment (text : Bytes) : r.line (58 :: text) = r := by
  have hcut : cut 58 (58 :: text) = ([], some text) := Text.cut_append List.not_mem_nil text
  rw [line, if_neg (List.cons_ne_nil _ _), hcut]

theorem Reader.foldl_comments (texts : List Bytes) :
    (texts.map (ascii ": " ++ ·)).foldl Reader.line r = r := by
  induction texts with
  | nil => rfl
  | cons text texts ih =>
    have hline : r.line (ascii ": " ++ text) = r := line_comment (32 :: text)
    rw [List.map_cons, List.foldl_cons, hline, ih]

/-- Lines of data go to the buffer, each with an LF. -/
theorem Reader.foldl_data (texts : List Bytes) :
    (texts.map (ascii "data: " ++ ·)).foldl Reader.line r =
      { r with data := r.data ++ texts.flatMap (· ++ [10]) } := by
  induction texts generalizing r with
  | nil => rw [List.map_nil, List.foldl_nil, List.flatMap_nil, List.append_nil]
  | cons text texts ih =>
    have hline : r.line (ascii "data: " ++ text) = { r with data := r.data ++ text ++ [10] } :=
      line_field (show ascii "data" ≠ [] by decide) (by decide) (32 :: text)
    rw [List.map_cons, List.foldl_cons, hline, ih, List.flatMap_cons]
    simp only [List.append_assoc]

end Nilo.EventStream
