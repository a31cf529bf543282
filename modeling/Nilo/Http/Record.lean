import Nilo.Std.Mem

/-!
# A kept answer as bytes (`encode`, `decode` and `HeaderIterator` in `http/idempotent.zig`)

An answer kept for a retry is thirteen bytes, the headers and trailers it goes out with, a label
when it has one of its own, and the body. The lengths are sixteen bits, and so are the sums they
are read with: a list of headers that `encode` allows can be one `decode` cannot add up.
-/

namespace Nilo.Idempotent

open Text (Bytes)
open Mem

/-! ## Headers -/

/-- `http1.Header`. -/
structure Header where
  name : Bytes
  value : Bytes
deriving DecidableEq, Repr

/-- A trailer is kept among the headers under its name with a `:` in front. -/
def trailerMark : UInt8 := 58

/-- The first header of `rest`, marked or not, and what is after it. -/
def field (rest : Bytes) : Run (Option (Header × Bytes)) :=
  if rest.length < 4 then .ok none
  else do
    let nlen := readLe (rest.take 2)
    let vlen := readLe ((rest.drop 2).take 2)
    let name ← add16 4 nlen
    let past ← add16 name vlen
    if rest.length < past then .ok none
    else
      let name' ← slice rest 4 nlen
      let value ← slice rest name vlen
      let rest' ← sliceFrom rest past
      .ok (some (⟨name', value⟩, rest'))

def Header.marked (h : Header) : Bool := h.name.head? == some trailerMark

/-- A field as the walk hands it out. -/
def Header.shown (h : Header) : Header := if h.marked then { h with name := h.name.drop 1 } else h

/-- What reading a field comes to, when the sums fit. -/
theorem field_eq {rest : Bytes} (h4 : 4 ≤ rest.length)
    (hfit : 4 + readLe (rest.take 2) + readLe ((rest.drop 2).take 2) < 2 ^ 16) :
    field rest =
      if rest.length < 4 + readLe (rest.take 2) + readLe ((rest.drop 2).take 2) then .ok none
      else
        .ok (some
          (⟨(rest.drop 4).take (readLe (rest.take 2)),
            (rest.drop (4 + readLe (rest.take 2))).take (readLe ((rest.drop 2).take 2))⟩,
          rest.drop (4 + readLe (rest.take 2) + readLe ((rest.drop 2).take 2)))) := by
  unfold field
  rw [if_neg (by omega)]
  generalize readLe (rest.take 2) = n at *
  generalize readLe ((rest.drop 2).take 2) = v at *
  simp only [add16_ok (show 4 + n < 2 ^ 16 by omega), add16_ok hfit, bind, Except.bind]
  by_cases hlong : rest.length < 4 + n + v
  · rw [if_pos hlong, if_pos hlong]
  · rw [if_neg hlong, if_neg hlong, slice_ok (by omega), slice_ok (by omega), sliceFrom_ok (by omega)]

/-- A field whose sums do not fit sixteen bits. -/
theorem field_overflow {rest : Bytes} (h4 : 4 ≤ rest.length)
    (hfit : ¬ 4 + readLe (rest.take 2) + readLe ((rest.drop 2).take 2) < 2 ^ 16) :
    field rest = .error .overflow := by
  unfold field
  rw [if_neg (by omega)]
  generalize readLe (rest.take 2) = n at *
  generalize readLe ((rest.drop 2).take 2) = v at *
  by_cases hn : 4 + n < 2 ^ 16
  · simp only [add16_ok hn, bind, Except.bind]
    rw [add16, if_neg hfit]
  · simp only [bind, Except.bind]
    rw [add16, if_neg hn]

/-- Every field is four bytes at least. -/
theorem field_lt {rest rest' : Bytes} {h : Header} (hf : field rest = .ok (some (h, rest'))) :
    rest'.length < rest.length := by
  by_cases h4 : 4 ≤ rest.length
  · by_cases hfit : 4 + readLe (rest.take 2) + readLe ((rest.drop 2).take 2) < 2 ^ 16
    · rw [field_eq h4 hfit] at hf
      split at hf
      · cases hf
      · obtain ⟨_, rfl⟩ := Prod.mk.inj (Option.some.inj (Except.ok.inj hf))
        rw [List.length_drop]
        omega
    · rw [field_overflow h4 hfit] at hf
      cases hf
  · unfold field at hf
    rw [if_pos (by omega)] at hf
    cases hf

/-- `HeaderIterator.next`: the next of the headers, or of the trailers kept beside them. -/
def next (trailers : Bool) (rest : Bytes) : Run (Option (Header × Bytes)) :=
  match hf : field rest with
  | .error e => .error e
  | .ok none => .ok none
  | .ok (some (h, rest')) =>
    if h.marked != trailers then next trailers rest' else .ok (some (h.shown, rest'))
termination_by rest.length
decreasing_by exact field_lt hf

theorem next_lt {trailers : Bool} {rest rest' : Bytes} {h : Header}
    (hn : next trailers rest = .ok (some (h, rest'))) : rest'.length < rest.length := by
  induction rest using next.induct trailers with
  | case1 rest e hf => rw [next, hf] at hn; cases hn
  | case2 rest hf => rw [next, hf] at hn; cases hn
  | case3 rest g rest'' hf hskip ih =>
    rw [next, hf] at hn
    simp only [hskip, if_true] at hn
    exact (ih hn).trans (field_lt hf)
  | case4 rest g rest'' hf hskip =>
    rw [next, hf] at hn
    simp only [hskip] at hn
    obtain ⟨_, rfl⟩ := Prod.mk.inj (Option.some.inj (Except.ok.inj hn))
    exact field_lt hf

/-- `while (it.next()) |h|`: all of them. -/
def each (trailers : Bool) (rest : Bytes) : Run (List Header) :=
  match hn : next trailers rest with
  | .error e => .error e
  | .ok none => .ok []
  | .ok (some (h, rest')) => (each trailers rest').map (h :: ·)
termination_by rest.length
decreasing_by exact next_lt hn

theorem next_eq (trailers : Bool) (rest : Bytes) :
    next trailers rest =
      match field rest with
      | .error e => .error e
      | .ok none => .ok none
      | .ok (some (h, rest')) =>
        if h.marked != trailers then next trailers rest' else .ok (some (h.shown, rest')) := by
  rw [next]
  split <;> rename_i hf <;> rw [hf]

theorem each_next (trailers : Bool) (rest : Bytes) :
    each trailers rest =
      match next trailers rest with
      | .error e => .error e
      | .ok none => .ok []
      | .ok (some (h, rest')) => (each trailers rest').map (h :: ·) := by
  rw [each]
  split <;> rename_i hn <;> rw [hn]

/-- The walk, a field at a time. -/
theorem each_eq (trailers : Bool) (rest : Bytes) :
    each trailers rest =
      match field rest with
      | .error e => .error e
      | .ok none => .ok []
      | .ok (some (h, rest')) =>
        if h.marked != trailers then each trailers rest'
        else (each trailers rest').map (h.shown :: ·) := by
  rw [each_next, next_eq]
  cases field rest with
  | error e => rfl
  | ok found =>
    cases found with
    | none => rfl
    | some found =>
      obtain ⟨h, rest'⟩ := found
      dsimp only
      by_cases hskip : (h.marked != trailers) = true
      · rw [if_pos hskip, if_pos hskip, each_next]
      · rw [if_neg hskip, if_neg hskip]

/-- The bytes of a field. -/
def Header.put (h : Header) : Bytes :=
  writeLe 2 h.name.length ++ writeLe 2 h.value.length ++ h.name ++ h.value

/-- A trailer as it is kept. -/
def Header.mark (t : Header) : Header := { t with name := trailerMark :: t.name }

theorem length_put (h : Header) : h.put.length = 4 + h.name.length + h.value.length := by
  simp only [Header.put, List.length_append, length_writeLe]

/-- A field that was written is read back, and what is after it is left. -/
theorem field_put {h : Header} (hfit : h.put.length < 2 ^ 16) (more : Bytes) :
    field (h.put ++ more) = .ok (some (h, more)) := by
  rw [length_put] at hfit
  have hn : readLe ((h.put ++ more).take 2) = h.name.length := by
    have htake : (h.put ++ more).take 2 = writeLe 2 h.name.length := by
      simp only [Header.put, List.append_assoc]
      exact List.take_left' (length_writeLe 2 _)
    rw [htake, readLe_writeLe]
    exact Nat.mod_eq_of_lt (by omega)
  have hrest : (h.put ++ more).drop 2 = writeLe 2 h.value.length ++ (h.name ++ (h.value ++ more)) := by
    simp only [Header.put, List.append_assoc]
    exact List.drop_left' (length_writeLe 2 _)
  have hv : readLe (((h.put ++ more).drop 2).take 2) = h.value.length := by
    rw [hrest, List.take_left' (length_writeLe 2 _), readLe_writeLe]
    exact Nat.mod_eq_of_lt (by omega)
  have h4 : (h.put ++ more).drop 4 = h.name ++ (h.value ++ more) := by
    rw [show (4 : Nat) = 2 + 2 from rfl, ← List.drop_drop, hrest]
    exact List.drop_left' (length_writeLe 2 _)
  have hlen : (h.put ++ more).length = 4 + h.name.length + h.value.length + more.length := by
    rw [List.length_append, length_put]
  rw [field_eq (by omega) (by rw [hn, hv]; exact hfit), hn, hv, if_neg (by omega), h4,
    ← List.drop_drop, h4, List.drop_left, List.take_left, List.take_left,
    List.drop_left' (length_put h)]

/-- What is read as a field is what `put` would write. -/
theorem field_some {rest rest' : Bytes} {h : Header} (hf : field rest = .ok (some (h, rest'))) :
    h.put.length < 2 ^ 16 ∧ rest = h.put ++ rest' := by
  by_cases h4 : 4 ≤ rest.length
  · by_cases hfit : 4 + readLe (rest.take 2) + readLe ((rest.drop 2).take 2) < 2 ^ 16
    · rw [field_eq h4 hfit] at hf
      split at hf
      · cases hf
      · rename_i hlong
        obtain ⟨rfl, rfl⟩ := Prod.mk.inj (Option.some.inj (Except.ok.inj hf))
        have hn := writeLe_readLe (rest.take 2)
        have hv := writeLe_readLe ((rest.drop 2).take 2)
        rw [List.length_take, Nat.min_eq_left (by omega)] at hn
        rw [List.length_take, List.length_drop, Nat.min_eq_left (by omega)] at hv
        generalize readLe (rest.take 2) = n at *
        generalize readLe ((rest.drop 2).take 2) = v at *
        have hname : ((rest.drop 4).take n).length = n := by
          rw [List.length_take, List.length_drop]
          omega
        have hvalue : ((rest.drop (4 + n)).take v).length = v := by
          rw [List.length_take, List.length_drop]
          omega
        refine ⟨by rw [length_put, hname, hvalue]; exact hfit, ?_⟩
        have hsplit (i j : Nat) : rest.drop i = (rest.drop i).take j ++ rest.drop (i + j) := by
          rw [← List.drop_drop, List.take_append_drop]
        simp only [Header.put, hname, hvalue, hn, hv, List.append_assoc]
        rw [← hsplit (4 + n) v, ← hsplit 4 n, ← hsplit 2 2, List.take_append_drop]
    · rw [field_overflow h4 hfit] at hf
      cases hf
  · unfold field at hf
    rw [if_pos (by omega)] at hf
    cases hf

theorem each_put (trailers : Bool) {h : Header} (hfit : h.put.length < 2 ^ 16) (more : Bytes) :
    each trailers (h.put ++ more) =
      if h.marked != trailers then each trailers more
      else (each trailers more).map (h.shown :: ·) := by
  rw [each_eq, field_put hfit]

theorem each_nil (trailers : Bool) : each trailers [] = .ok [] := by
  rw [each_eq]
  rfl

/-- A run of fields: the walk hands out those of the kind it is after, in their order. -/
theorem each_puts (trailers : Bool) {hs : List Header} (hfit : ∀ h ∈ hs, h.put.length < 2 ^ 16) :
    each trailers (hs.flatMap Header.put) =
      .ok ((hs.filter (·.marked == trailers)).map Header.shown) := by
  induction hs with
  | nil => exact each_nil trailers
  | cons h hs ih =>
    have hrest := ih fun x hx => hfit x (List.mem_cons_of_mem _ hx)
    rw [List.flatMap_cons, each_put trailers (hfit h List.mem_cons_self), hrest, List.filter_cons]
    by_cases hm : h.marked = trailers
    · rw [if_neg (by simp [hm]), if_pos (by simp [hm])]
      rfl
    · rw [if_pos (by simpa using hm), if_neg (by simp [hm])]

/-! ## The record -/

/-- How a kept answer is shaped, and the marker a request in flight leaves. -/
inductive Kind where
  | inFlight
  | empty
  | text
  | json
  /-- A body the handler's type wrote itself, under a label of its own. -/
  | own
deriving DecidableEq, Repr

def Kind.code : Kind → UInt8
  | .inFlight => 0
  | .empty => 1
  | .text => 2
  | .json => 3
  | .own => 4

def Kind.ofCode (n : UInt8) : Option Kind :=
  match n with
  | 0 => some .inFlight
  | 1 => some .empty
  | 2 => some .text
  | 3 => some .json
  | 4 => some .own
  | _ => none

theorem Kind.ofCode_code (k : Kind) : Kind.ofCode k.code = some k := by
  cases k <;> rfl

/-- A kept answer, decoded. -/
structure Record where
  kind : Kind
  status : UInt16
  fingerprint : UInt64
  /-- The headers and the trailers, as they were written. -/
  headers : Bytes
  /-- What an `.own` answer goes out as; empty for every other kind. -/
  contentType : Bytes := []
  body : Bytes
deriving DecidableEq, Repr

/-- An answer to keep, as `encode` is given it. -/
structure Answer where
  kind : Kind
  status : UInt16
  fingerprint : UInt64
  headers : List Header
  trailers : List Header
  contentType : Bytes
  body : Bytes

/-- kind, status, fingerprint, header bytes length. -/
def leading : Nat := 1 + 2 + 8 + 2

namespace Answer

def fields (a : Answer) : List Header := a.headers ++ a.trailers.map Header.mark

def headerBytes (a : Answer) : Bytes := a.fields.flatMap Header.put

/-- `hlen`. -/
def headerLength (a : Answer) : Nat :=
  (a.headers.map fun h => 4 + h.name.length + h.value.length).sum +
    (a.trailers.map fun t => 4 + 1 + t.name.length + t.value.length).sum

/-- The label of an `.own` answer, ahead of the body. -/
def label (a : Answer) : Bytes :=
  if a.kind = .own then writeLe 2 a.contentType.length ++ a.contentType else []

def start (a : Answer) : Bytes :=
  a.kind.code :: writeLe 2 a.status.toNat ++ writeLe 8 a.fingerprint.toNat ++ writeLe 2 a.headerLength

end Answer

/-- `encode`: nothing for an answer with more headers, or a longer label, than a length can say. -/
def encode (a : Answer) : Option Bytes :=
  if 65535 < a.headerLength then none
  else if a.kind = .own ∧ 65535 < a.contentType.length then none
  else some (a.start ++ a.headerBytes ++ a.label ++ a.body)

/-- What a marker for a request in flight is. -/
def marker (fingerprint : UInt64) : Bytes :=
  Kind.inFlight.code :: writeLe 2 0 ++ writeLe 8 fingerprint.toNat ++ writeLe 2 0

/-- `decode`: nothing for bytes that were never a record. -/
def decode (bytes : Bytes) : Run (Option Record) :=
  if bytes.length < leading then .ok none
  else
    match Kind.ofCode (bytes.getD 0 0) with
    | none => .ok none
    | some kind => do
      let hlen := readLe ((bytes.drop 11).take 2)
      let past ← add16 leading hlen
      if bytes.length < past then .ok none
      else
        let headers ← slice bytes leading hlen
        let rest ← sliceFrom bytes past
        let status := UInt16.ofNat (readLe ((bytes.drop 1).take 2))
        let fingerprint := UInt64.ofNat (readLe ((bytes.drop 3).take 8))
        if kind = .own then
          if rest.length < 2 then .ok none
          else
            let llen := readLe (rest.take 2)
            let after ← add16 2 llen
            if rest.length < after then .ok none
            else
              let contentType ← slice rest 2 llen
              let body ← sliceFrom rest after
              .ok (some ⟨kind, status, fingerprint, headers, contentType, body⟩)
        else .ok (some ⟨kind, status, fingerprint, headers, [], rest⟩)

/-! ## Reading a record back -/

namespace Answer

theorem length_headerBytes (a : Answer) : a.headerBytes.length = a.headerLength := by
  have hmarked : (a.trailers.map Header.mark).map (List.length ∘ Header.put) =
      a.trailers.map fun t => 4 + 1 + t.name.length + t.value.length := by
    rw [List.map_map]
    refine List.map_congr_left fun t _ => ?_
    simp only [Function.comp_apply, length_put, Header.mark, List.length_cons]
    omega
  have hplain : a.headers.map (List.length ∘ Header.put) =
      a.headers.map fun h => 4 + h.name.length + h.value.length :=
    List.map_congr_left fun h _ => length_put h
  rw [headerBytes, List.length_flatMap, fields, List.map_append, List.sum_append, headerLength]
  exact congrArg₂ (· + ·) (congrArg List.sum hplain) (congrArg List.sum hmarked)

theorem length_start (a : Answer) : a.start.length = leading := by
  simp [start, leading]

/-- No field is longer than all of them. -/
theorem put_le (a : Answer) {h : Header} (hh : h ∈ a.fields) : h.put.length ≤ a.headerLength := by
  rw [← length_headerBytes]
  exact (List.sublist_flatten_of_mem (List.mem_map_of_mem hh)).length_le

end Answer

/-- The four numbers a record opens with, read back. -/
theorem decode_start {a : Answer} (hlen : a.headerLength < 2 ^ 16) (more : Bytes) :
    decode (a.start ++ more) = (do
      let past ← add16 leading a.headerLength
      if (a.start ++ more).length < past then .ok none
      else
        let headers ← slice (a.start ++ more) leading a.headerLength
        let rest ← sliceFrom (a.start ++ more) past
        if a.kind = .own then
          if rest.length < 2 then .ok none
          else
            let llen := readLe (rest.take 2)
            let after ← add16 2 llen
            if rest.length < after then .ok none
            else
              let contentType ← slice rest 2 llen
              let body ← sliceFrom rest after
              .ok (some ⟨a.kind, a.status, a.fingerprint, headers, contentType, body⟩)
        else .ok (some ⟨a.kind, a.status, a.fingerprint, headers, [], rest⟩)) := by
  have hkind : (a.start ++ more).getD 0 0 = a.kind.code := rfl
  have hstatus : ((a.start ++ more).drop 1).take 2 = writeLe 2 a.status.toNat := rfl
  have hfinger : ((a.start ++ more).drop 3).take 8 = writeLe 8 a.fingerprint.toNat := rfl
  have hheaders : ((a.start ++ more).drop 11).take 2 = writeLe 2 a.headerLength := rfl
  have hs : UInt16.ofNat (readLe (writeLe 2 a.status.toNat)) = a.status := by
    rw [readLe_writeLe, show 256 ^ 2 = 2 ^ 16 from rfl, Nat.mod_eq_of_lt a.status.toNat_lt,
      UInt16.ofNat_toNat]
  have hf : UInt64.ofNat (readLe (writeLe 8 a.fingerprint.toNat)) = a.fingerprint := by
    rw [readLe_writeLe, show 256 ^ 8 = 2 ^ 64 from rfl, Nat.mod_eq_of_lt a.fingerprint.toNat_lt,
      UInt64.ofNat_toNat]
  have hh : readLe (writeLe 2 a.headerLength) = a.headerLength := by
    rw [readLe_writeLe, show 256 ^ 2 = 2 ^ 16 from rfl, Nat.mod_eq_of_lt hlen]
  unfold decode
  rw [if_neg (by rw [List.length_append, a.length_start]; omega)]
  simp only [hkind, Kind.ofCode_code, hstatus, hfinger, hheaders, hs, hf, hh]

/-- What `encode` wrote, with the two lists of names still in it. -/
def Answer.kept (a : Answer) : Record where
  kind := a.kind
  status := a.status
  fingerprint := a.fingerprint
  headers := a.headerBytes
  contentType := if a.kind = .own then a.contentType else []
  body := a.body

/-- The lengths a record is read back through: thirteen more than its headers, and two more than
its label, are still sixteen bits. -/
def Answer.Fits (a : Answer) : Prop :=
  a.headerLength ≤ 65522 ∧ (a.kind = .own → a.contentType.length ≤ 65533)

theorem encode_some {a : Answer} {bytes : Bytes} (h : encode a = some bytes) :
    a.headerLength < 2 ^ 16 ∧ (a.kind = .own → a.contentType.length < 2 ^ 16) ∧
      bytes = a.start ++ (a.headerBytes ++ (a.label ++ a.body)) := by
  unfold encode at h
  split at h
  · cases h
  split at h
  · cases h
  · rename_i hlen hlabel
    refine ⟨by omega, fun hown => ?_, ?_⟩
    · by_contra hlong
      exact hlabel ⟨hown, by omega⟩
    · simpa only [List.append_assoc] using (Option.some.inj h).symm

/-- A label longer than the sum can say stops the read. -/
theorem decode_encode {a : Answer} {bytes : Bytes} (h : encode a = some bytes)
    (hfits : a.headerLength ≤ 65522) :
    decode bytes =
      if a.kind = .own ∧ 65533 < a.contentType.length then .error .overflow else .ok (some a.kept) := by
  obtain ⟨hlen, hlabel, rfl⟩ := encode_some h
  have hhead := a.length_headerBytes
  have hstart := a.length_start
  rw [decode_start hlen, add16_ok (by simp only [leading]; omega)]
  simp only [bind, Except.bind]
  have htotal : (a.start ++ (a.headerBytes ++ (a.label ++ a.body))).length =
      leading + (a.headerLength + (a.label.length + a.body.length)) := by
    simp only [List.length_append, hstart, hhead]
  have hdrop : (a.start ++ (a.headerBytes ++ (a.label ++ a.body))).drop leading =
      a.headerBytes ++ (a.label ++ a.body) :=
    List.drop_left' hstart
  rw [if_neg (by omega), slice_ok (by omega), sliceFrom_ok (by omega), ← List.drop_drop, hdrop,
    List.take_left' hhead, List.drop_left' hhead]
  simp only
  by_cases hown : a.kind = .own
  · have hl : a.label = writeLe 2 a.contentType.length ++ a.contentType := if_pos hown
    have hllen : readLe ((a.label ++ a.body).take 2) = a.contentType.length := by
      rw [hl, List.append_assoc, List.take_left' (length_writeLe 2 _), readLe_writeLe]
      exact Nat.mod_eq_of_lt (hlabel hown)
    have hlong : (a.label ++ a.body).length = 2 + a.contentType.length + a.body.length := by
      rw [hl]
      simp only [List.length_append, length_writeLe]
    rw [if_pos hown, if_neg (by omega), hllen]
    by_cases hover : 65533 < a.contentType.length
    · rw [if_pos ⟨hown, hover⟩, add16, if_neg (by omega)]
    · have hdrop2 : (a.label ++ a.body).drop 2 = a.contentType ++ a.body := by
        rw [hl, List.append_assoc]
        exact List.drop_left' (length_writeLe 2 _)
      rw [if_neg (by omega), add16_ok (by omega)]
      simp only
      rw [if_neg (by omega), slice_ok (by omega), sliceFrom_ok (by omega), ← List.drop_drop, hdrop2,
        List.take_left, List.drop_left]
      simp only [Answer.kept, hown, if_true]
  · have hl : a.label = [] := if_neg hown
    rw [if_neg hown, if_neg (by simp [hown]), hl, List.nil_append]
    simp only [Answer.kept, hown, if_false]

/-- Headers past what the sum can say stop the read. -/
theorem decode_encode_overflow {a : Answer} {bytes : Bytes} (h : encode a = some bytes)
    (hover : 65522 < a.headerLength) : decode bytes = .error .overflow := by
  obtain ⟨hlen, _, rfl⟩ := encode_some h
  rw [decode_start hlen, add16, if_neg (by simp only [leading]; omega)]
  rfl

/-! ## The codec -/

/-- `decode(encode r)` is `r` in every part, and the two walks give the two lists. -/
def Answer.RoundTrips (a : Answer) (bytes : Bytes) : Prop :=
  ∃ r, decode bytes = .ok (some r) ∧ r.kind = a.kind ∧ r.status = a.status ∧
    r.fingerprint = a.fingerprint ∧ (a.kind = .own → r.contentType = a.contentType) ∧
    r.body = a.body ∧ each false r.headers = .ok a.headers ∧ each true r.headers = .ok a.trailers

/-- No header is under a name a trailer would be kept under. -/
def Answer.Plain (a : Answer) : Prop := ∀ h ∈ a.headers, h.marked = false

theorem Header.marked_mark (t : Header) : t.mark.marked = true := rfl

theorem Header.shown_mark (t : Header) : t.mark.shown = t := rfl

/-- The walk after the headers. -/
theorem each_headerBytes_false {a : Answer} (hlen : a.headerLength < 2 ^ 16) :
    each false a.headerBytes = .ok (a.headers.filter (·.marked == false)) := by
  have hnone : (a.trailers.map Header.mark).filter (fun h => h.marked == false) = [] := by
    simp [List.filter_eq_nil_iff, Header.marked_mark]
  have hshown : (a.headers.filter fun h => h.marked == false).map Header.shown =
      a.headers.filter fun h => h.marked == false := by
    refine (List.map_congr_left fun h hh => ?_).trans (List.map_id _)
    have hm : h.marked = false := by simpa using (List.mem_filter.mp hh).2
    rw [Header.shown, hm]
    rfl
  rw [Answer.headerBytes, each_puts false fun h hh => (a.put_le hh).trans_lt hlen, Answer.fields,
    List.filter_append, hnone, List.append_nil, hshown]

/-- The walk after the trailers. -/
theorem each_headerBytes_true {a : Answer} (hlen : a.headerLength < 2 ^ 16) :
    each true a.headerBytes =
      .ok ((a.headers.filter (·.marked == true)).map Header.shown ++ a.trailers) := by
  have hall : (a.trailers.map Header.mark).filter (fun h => h.marked == true) =
      a.trailers.map Header.mark := by
    simp [List.filter_eq_self, Header.marked_mark]
  have hshown : (a.trailers.map Header.mark).map Header.shown = a.trailers := by
    rw [List.map_map]
    exact (List.map_congr_left fun t _ => Header.shown_mark t).trans (List.map_id _)
  rw [Answer.headerBytes, each_puts true fun h hh => (a.put_le hh).trans_lt hlen, Answer.fields,
    List.filter_append, hall, List.map_append, hshown]

theorem roundTrips_iff {a : Answer} {bytes : Bytes} (h : encode a = some bytes) :
    a.RoundTrips bytes ↔ a.Fits ∧ a.Plain := by
  constructor
  · rintro ⟨r, hr, -, -, -, -, -, hheaders, -⟩
    have hlen : a.headerLength ≤ 65522 := by
      by_contra hover
      rw [decode_encode_overflow h (by omega)] at hr
      cases hr
    rw [decode_encode h hlen] at hr
    by_cases hlong : a.kind = .own ∧ 65533 < a.contentType.length
    · rw [if_pos hlong] at hr
      cases hr
    · rw [if_neg hlong] at hr
      obtain rfl := Option.some.inj (Except.ok.inj hr)
      refine ⟨⟨hlen, fun hown => ?_⟩, ?_⟩
      · by_contra hover
        exact hlong ⟨hown, by omega⟩
      · have hfilter := (each_headerBytes_false (a := a) (by omega)).symm.trans hheaders
        intro x hx
        rw [← Except.ok.inj hfilter] at hx
        simpa using (List.mem_filter.mp hx).2
  · rintro ⟨⟨hlen, hlabel⟩, hplain⟩
    refine ⟨a.kept, ?_, rfl, rfl, rfl, fun hown => if_pos hown, rfl, ?_, ?_⟩
    · rw [decode_encode h hlen, if_neg]
      rintro ⟨hown, hlong⟩
      exact absurd (hlabel hown) (by omega)
    · refine (each_headerBytes_false (a := a) (by omega)).trans (congrArg _ ?_)
      exact List.filter_eq_self.mpr fun x hx => by simp [hplain x hx]
    · have hnone : a.headers.filter (·.marked == true) = [] := by
        rw [List.filter_eq_nil_iff]
        intro x hx
        simp [hplain x hx]
      refine (each_headerBytes_true (a := a) (by omega)).trans (congrArg _ ?_)
      rw [hnone, List.map_nil, List.nil_append]

/-- What a string of bytes says its headers' length is. -/
def saidLength (bytes : Bytes) : Nat := readLe ((bytes.drop 11).take 2)

/-- The bytes say no length that thirteen, or two, cannot be added to. -/
def Fits (bytes : Bytes) : Prop :=
  leading ≤ bytes.length → ∀ kind, Kind.ofCode (bytes.getD 0 0) = some kind →
    saidLength bytes ≤ 65522 ∧
      (kind = .own → leading + saidLength bytes + 2 ≤ bytes.length →
        readLe ((bytes.drop (leading + saidLength bytes)).take 2) ≤ 65533)

theorem decode_ends_iff (bytes : Bytes) : (∃ found, decode bytes = .ok found) ↔ Fits bytes := by
  unfold Fits decode
  by_cases hshort : bytes.length < leading
  · rw [if_pos hshort]
    exact ⟨fun _ hlong => absurd hshort (by omega), fun _ => ⟨none, rfl⟩⟩
  rw [if_neg hshort]
  cases hk : Kind.ofCode (bytes.getD 0 0) with
  | none => exact ⟨fun _ _ kind hkind => (by cases hkind), fun _ => ⟨none, rfl⟩⟩
  | some kind =>
    change (∃ found, _ = Except.ok found) ↔ (_ → ∀ kind', some kind = some kind' → _)
    rw [show readLe ((bytes.drop 11).take 2) = saidLength bytes from rfl]
    simp only [Option.some.injEq, forall_eq', show leading ≤ bytes.length by omega, forall_const]
    by_cases hlen : saidLength bytes ≤ 65522
    · rw [add16_ok (by simp only [leading]; omega)]
      simp only [bind, Except.bind]
      by_cases hpast : bytes.length < leading + saidLength bytes
      · rw [if_pos hpast]
        exact ⟨fun _ => ⟨hlen, fun _ hlong => absurd hpast (by omega)⟩, fun _ => ⟨none, rfl⟩⟩
      rw [if_neg hpast, slice_ok (by omega), sliceFrom_ok (by omega)]
      simp only
      by_cases hown : kind = .own
      · rw [if_pos hown]
        have hrest : (bytes.drop (leading + saidLength bytes)).length =
            bytes.length - (leading + saidLength bytes) := List.length_drop
        by_cases htwo : (bytes.drop (leading + saidLength bytes)).length < 2
        · rw [if_pos htwo]
          exact ⟨fun _ => ⟨hlen, fun _ hlong => absurd htwo (by omega)⟩, fun _ => ⟨none, rfl⟩⟩
        rw [if_neg htwo]
        by_cases hlabel : readLe ((bytes.drop (leading + saidLength bytes)).take 2) ≤ 65533
        · rw [add16_ok (by omega)]
          simp only
          refine ⟨fun _ => ⟨hlen, fun _ _ => hlabel⟩, fun _ => ?_⟩
          by_cases hafter : (bytes.drop (leading + saidLength bytes)).length <
              2 + readLe ((bytes.drop (leading + saidLength bytes)).take 2)
          · rw [if_pos hafter]
            exact ⟨none, rfl⟩
          · rw [if_neg hafter, slice_ok (by omega), sliceFrom_ok (by omega)]
            exact ⟨_, rfl⟩
        · rw [add16, if_neg (by omega)]
          refine ⟨fun ⟨_, hfound⟩ => (by cases hfound), fun hfits => ?_⟩
          exact absurd (hfits.2 hown (by omega)) hlabel
      · rw [if_neg hown]
        exact ⟨fun _ => ⟨hlen, fun h => absurd h hown⟩, fun _ => ⟨_, rfl⟩⟩
    · rw [add16, if_neg (by simp only [leading]; omega)]
      exact ⟨fun ⟨_, hfound⟩ => (by cases hfound), fun hfits => absurd hfits.1 hlen⟩

/-- No run of whole fields leads to one whose sums are past sixteen bits. -/
def FieldsFit (rest : Bytes) : Prop :=
  ∀ (hs : List Header) (more : Bytes), (∀ h ∈ hs, h.put.length < 2 ^ 16) →
    rest = hs.flatMap Header.put ++ more → 4 ≤ more.length →
    4 + readLe (more.take 2) + readLe ((more.drop 2).take 2) < 2 ^ 16

/-- Past a whole field, what is left fits just when all of it does. -/
theorem fieldsFit_put {h : Header} (hfit : h.put.length < 2 ^ 16) (rest : Bytes) :
    FieldsFit (h.put ++ rest) ↔ FieldsFit rest := by
  constructor
  · intro hall hs more hhs hrest hfour
    refine hall (h :: hs) more ?_ ?_ hfour
    · intro x hx
      rcases List.mem_cons.mp hx with rfl | hx
      · exact hfit
      · exact hhs x hx
    · rw [hrest, List.flatMap_cons, List.append_assoc]
  · intro hall hs more hhs hrest hfour
    cases hs with
    | nil =>
      rw [List.flatMap_nil, List.nil_append] at hrest
      have hread := field_put hfit rest
      by_contra hover
      rw [hrest, field_overflow hfour hover] at hread
      cases hread
    | cons g hs =>
      rw [List.flatMap_cons, List.append_assoc] at hrest
      have hread := field_put (hhs g List.mem_cons_self) (hs.flatMap Header.put ++ more)
      rw [← hrest, field_put hfit] at hread
      obtain ⟨rfl, htail⟩ := Prod.mk.inj (Option.some.inj (Except.ok.inj hread))
      exact hall hs more (fun x hx => hhs x (List.mem_cons_of_mem _ hx)) htail hfour

/-- No field at the start of the bytes. -/
theorem fieldsFit_of_none {rest : Bytes} (hf : field rest = .ok none) : FieldsFit rest := by
  intro hs more hhs hrest hfour
  cases hs with
  | nil =>
    rw [List.flatMap_nil, List.nil_append] at hrest
    by_contra hover
    rw [hrest, field_overflow hfour hover] at hf
    cases hf
  | cons g hs =>
    rw [hrest, List.flatMap_cons, List.append_assoc, field_put (hhs g List.mem_cons_self)] at hf
    cases hf

theorem field_error {rest : Bytes} {e : Fault} (hf : field rest = .error e) : ¬ FieldsFit rest := by
  intro hall
  by_cases h4 : 4 ≤ rest.length
  · have hfit := hall [] rest (fun h hh => by cases hh) rfl h4
    rw [field_eq h4 hfit] at hf
    split at hf <;> cases hf
  · unfold field at hf
    rw [if_pos (by omega)] at hf
    cases hf

theorem each_ends_iff (trailers : Bool) (rest : Bytes) :
    (∃ hs, each trailers rest = .ok hs) ↔ FieldsFit rest := by
  induction hn : rest.length using Nat.strong_induction_on generalizing rest with
  | _ n ih =>
    rw [each_eq]
    cases hf : field rest with
    | error e => exact ⟨fun ⟨_, hhs⟩ => (by cases hhs), fun hall => absurd hall (field_error hf)⟩
    | ok found =>
      cases found with
      | none => exact ⟨fun _ => fieldsFit_of_none hf, fun _ => ⟨[], rfl⟩⟩
      | some found =>
        obtain ⟨h, rest'⟩ := found
        obtain ⟨hfit, rfl⟩ := field_some hf
        rw [fieldsFit_put hfit, ← ih rest'.length (hn ▸ field_lt hf) rest' rfl]
        dsimp only
        by_cases hskip : (h.marked != trailers) = true
        · rw [if_pos hskip]
        · rw [if_neg hskip]
          cases each trailers rest' with
          | error e => exact ⟨fun ⟨_, hhs⟩ => (by cases hhs), fun ⟨_, hhs⟩ => (by cases hhs)⟩
          | ok hs => exact ⟨fun _ => ⟨hs, rfl⟩, fun _ => ⟨h.shown :: hs, rfl⟩⟩

/-- A record is read back whole just when its lengths can be added to, and any bytes at all are
read to an end just when theirs can. -/
theorem codec_iff (a : Answer) (kept bytes rest : Bytes) (trailers : Bool) :
    (encode a = some kept → (a.RoundTrips kept ↔ a.Fits ∧ a.Plain)) ∧
      ((∃ found, decode bytes = .ok found) ↔ Fits bytes) ∧
      ((∃ hs, each trailers rest = .ok hs) ↔ FieldsFit rest) :=
  ⟨roundTrips_iff, decode_ends_iff bytes, each_ends_iff trailers rest⟩

/-- An order placed, with where it is. -/
def created : Answer where
  kind := .json
  status := 201
  fingerprint := 0xabc
  headers := [⟨[76, 111, 99, 97, 116, 105, 111, 110], [47, 111, 114, 100, 101, 114, 115, 47, 55]⟩]
  trailers := []
  contentType := []
  body := [123, 34, 105, 100, 34, 58, 55, 125]

theorem codec_created : ∃ bytes, encode created = some bytes ∧ created.RoundTrips bytes :=
  ⟨_, rfl, ((codec_iff created _ [] [] false).1 rfl).mpr ⟨⟨by decide, fun h => by cases h⟩, by unfold Answer.Plain; decide⟩⟩

/-- An answer whose one header is 65,519 bytes long. -/
def lengthy : Answer where
  kind := .text
  status := 200
  fingerprint := 0
  headers := [⟨[97], List.replicate 65518 97⟩]
  trailers := []
  contentType := []
  body := []

theorem headerLength_single {a : Answer} {name value : Bytes} (h : a.headers = [⟨name, value⟩])
    (ht : a.trailers = []) : a.headerLength = 4 + name.length + value.length := by
  rw [Answer.headerLength, h, ht]
  rfl

/-- It is kept, and reading it back is a sum of 13 and 65,523 in sixteen bits. -/
theorem codec_lengthy :
    ∃ bytes, encode lengthy = some bytes ∧ decode bytes = .error .overflow ∧
      ¬ lengthy.RoundTrips bytes := by
  have hlen : lengthy.headerLength = 65523 := by
    rw [headerLength_single rfl rfl, List.length_replicate]
    rfl
  have hkept : encode lengthy =
      some (lengthy.start ++ lengthy.headerBytes ++ lengthy.label ++ lengthy.body) := by
    rw [encode, if_neg (by omega), if_neg (fun h => Kind.noConfusion h.1)]
  have hover := decode_encode_overflow hkept (by omega)
  refine ⟨_, hkept, hover, ?_⟩
  rintro ⟨r, hr, -⟩
  rw [hover] at hr
  cases hr

end Nilo.Idempotent
