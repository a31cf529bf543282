import Nilo.Http.Stream

/-!
# What a stream puts on the wire

A stream is running, broken off or over, and no call leads back. While it runs, what was taken is what
went out and what is buffered (`Reached`); from there on nothing goes out. `streamed_exactly` is about
every sequence of calls.
-/

namespace Nilo.Streaming

open Text (Bytes ascii)

/-! ## Frames -/

/-- A piece of the body as it goes out. -/
def frame (chunked : Bool) (body : Bytes) : Bytes :=
  if chunked then writeChunkHeader body.length ++ body ++ endChunk else body

theorem length_bytes (data : Data) : data.bytes.length = data.count := by
  rw [Data.bytes, Data.count, List.length_append, List.length_flatten, List.length_flatten,
    List.map_replicate, List.sum_replicate_nat, Nat.mul_comm]

theorem piece_eq (chunked : Bool) (buffered : Bytes) (data : Data) :
    Http1.piece chunked buffered data = frame chunked (buffered ++ data.bytes) := by
  rw [Http1.piece, frame, List.length_append, length_bytes, Data.bytes]
  cases chunked with
  | true => simp only [if_true, List.append_assoc]
  | false => simp

/-- How a stream is opened: HTTP/1, no HEAD, and no middleware that holds the answer. -/
structure Setup where
  room : Nat
  chunked : Bool
  promised : Option Nat := none
  forceClose : Option Bool := none
  ended : Option Bool := none
  trailers : Trailers := {}

variable {su : Setup} {pieces : List Bytes} {buffered wire : Bytes} {written : Nat}

namespace Setup

def running (su : Setup) (buffered wire : Bytes) (written : Nat) : Stream where
  room := su.room
  buffered := buffered
  record := some { chunked := su.chunked, drop := false, promised := su.promised, written := written }
  forceClose := su.forceClose
  hold := false
  trailers := su.trailers
  ended := su.ended
  wire := wire

def start (su : Setup) : Stream := su.running [] [] 0

def broken (su : Setup) (wire : Bytes) (written : Nat) : Stream where
  room := 0
  buffered := []
  record := some {
    chunked := su.chunked, drop := false, promised := su.promised, written := written, aborted := true }
  forceClose := su.forceClose.map fun _ => true
  hold := false
  trailers := su.trailers
  ended := su.ended
  wire := wire

def closed (su : Setup) (wire : Bytes) (forceClose : Option Bool) : Stream where
  room := 0
  buffered := []
  record := none
  forceClose := forceClose
  hold := false
  trailers := su.trailers
  ended := su.ended.map fun _ => true
  wire := wire

/-- The frames of the pieces, one behind the other. -/
def frames (su : Setup) (pieces : List Bytes) : Bytes := pieces.flatMap (frame su.chunked)

/-- The marker at the end of the body, where there is one. -/
def marker (su : Setup) : Bytes := Http1.ending su.chunked su.trailers

/-- The flag to close the connection, after a body that ended at `written`. -/
def forced (su : Setup) (written : Nat) : Option Bool :=
  if (match su.promised with
    | none => false
    | some promised => decide (written < promised)) then su.forceClose.map fun _ => true
  else su.forceClose

/-- No piece is empty, and all of them are within the promise. -/
structure Sent (su : Setup) (pieces : List Bytes) : Prop where
  nonempty : ∀ piece ∈ pieces, piece ≠ []
  promised : ∀ n, su.promised = some n → pieces.flatten.length ≤ n

end Setup

theorem drain_eq (data : Data) : (su.running buffered wire written).drain data =
    if buffered.length + data.count = 0 then (.ok data.count, su.running [] wire written)
    else match su.promised with
      | none => (.ok data.count, su.running [] (wire ++ Http1.piece su.chunked buffered data) written)
      | some promised =>
        if written + (buffered.length + data.count) > promised then
          (.error .writeFailed, su.running buffered wire written)
        else (.ok data.count, su.running [] (wire ++ Http1.piece su.chunked buffered data)
          (written + (buffered.length + data.count))) := by
  rw [Stream.drain]
  refine (if_neg Bool.false_ne_true).trans ?_
  change (if (decide (buffered.length + data.count = 0) || false) = true then _ else _) = _
  rw [Bool.or_false]
  by_cases hzero : buffered.length + data.count = 0
  · exact (if_pos (decide_eq_true hzero)).trans (if_pos hzero).symm
  · refine (if_neg fun h => hzero (of_decide_eq_true h)).trans (Eq.trans ?_ (if_neg hzero).symm)
    obtain ⟨room, chunked, promised, forceClose, ended, trailers⟩ := su
    cases promised <;> rfl

/-- What a drain of a running stream does: nothing where it is refused, and else one piece more. -/
theorem drain_running (h : su.Sent pieces)
    (hwritten : ∀ n, su.promised = some n → written = pieces.flatten.length) (data : Data) :
    (su.running buffered (su.frames pieces) written).drain data =
        (.error .writeFailed, su.running buffered (su.frames pieces) written) ∨
      ∃ pieces' written', su.Sent pieces' ∧
        (∀ n, su.promised = some n → written' = pieces'.flatten.length) ∧
        pieces'.flatten = pieces.flatten ++ buffered ++ data.bytes ∧
        (su.running buffered (su.frames pieces) written).drain data =
          (.ok data.count, su.running [] (su.frames pieces') written') := by
  have hlength : (buffered ++ data.bytes).length = buffered.length + data.count := by
    rw [List.length_append, length_bytes]
  by_cases hnil : buffered ++ data.bytes = []
  · obtain ⟨rfl, hdata⟩ := List.append_eq_nil_iff.mp hnil
    refine .inr ⟨pieces, written, h, hwritten, by rw [hdata, List.append_nil, List.append_nil], ?_⟩
    have hcount : data.count = 0 := by rw [← length_bytes, hdata, List.length_nil]
    rw [drain_eq, List.length_nil, hcount, if_pos rfl]
  · have htotal : buffered.length + data.count ≠ 0 := by
      rw [← hlength]
      exact fun hzero => hnil (List.eq_nil_of_length_eq_zero hzero)
    have hflatten : (pieces ++ [buffered ++ data.bytes]).flatten = pieces.flatten ++ buffered ++ data.bytes := by
      rw [List.flatten_append, List.flatten_singleton, List.append_assoc]
    have hnonempty : ∀ piece ∈ pieces ++ [buffered ++ data.bytes], piece ≠ [] := by
      intro piece hpiece
      rcases List.mem_append.mp hpiece with hold | hnew
      · exact h.nonempty piece hold
      · rwa [List.mem_singleton.mp hnew]
    have hframes : su.frames (pieces ++ [buffered ++ data.bytes]) =
        su.frames pieces ++ Http1.piece su.chunked buffered data := by
      rw [piece_eq, Setup.frames, List.flatMap_append, List.flatMap_singleton]
      rfl
    cases hpromised : su.promised with
    | none =>
      refine .inr ⟨_, written, ⟨hnonempty, fun n hn => ?_⟩, fun n hn => ?_, hflatten, ?_⟩
      · rw [hpromised] at hn
        cases hn
      · cases hn
      · rw [hframes, drain_eq, if_neg htotal, hpromised]
    | some promised =>
      have hsum := hwritten promised hpromised
      by_cases hpast : written + (buffered.length + data.count) > promised
      · refine .inl ?_
        rw [drain_eq, if_neg htotal, hpromised]
        exact if_pos hpast
      · have hnow : (pieces ++ [buffered ++ data.bytes]).flatten.length =
            written + (buffered.length + data.count) := by
          rw [hflatten, List.append_assoc, List.length_append, hlength, hsum]
        refine .inr ⟨_, written + (buffered.length + data.count), ⟨hnonempty, fun n hn => ?_⟩,
          fun _ _ => hnow.symm, hflatten, ?_⟩
        · rw [hpromised] at hn
          cases hn
          rw [hnow]
          exact Nat.not_lt.mp hpast
        · rw [hframes, drain_eq, if_neg htotal, hpromised]
          exact if_neg hpast

/-! ## Writing and flushing -/

/-- A write of a running stream is refused and changes nothing, or is taken whole. -/
theorem writeSplat_running (h : su.Sent pieces)
    (hwritten : ∀ n, su.promised = some n → written = pieces.flatten.length) (data : Data) :
    (su.running buffered (su.frames pieces) written).writeSplat data =
        (.error .writeFailed, su.running buffered (su.frames pieces) written) ∨
      ∃ pieces' buffered' written', su.Sent pieces' ∧
        (∀ n, su.promised = some n → written' = pieces'.flatten.length) ∧
        pieces'.flatten ++ buffered' = pieces.flatten ++ buffered ++ data.bytes ∧
        (su.running buffered (su.frames pieces) written).writeSplat data =
          (.ok data.count, su.running buffered' (su.frames pieces') written') := by
  rw [Stream.writeSplat]
  by_cases hfits : buffered.length + data.count ≤ su.room
  · exact .inr ⟨pieces, buffered ++ data.bytes, written, h, hwritten, by rw [List.append_assoc],
      if_pos hfits⟩
  · rcases drain_running h hwritten data with
      hdrain | ⟨pieces', written', h', hwritten', hbytes, hdrain⟩
    · exact .inl ((if_neg hfits).trans hdrain)
    · exact .inr ⟨pieces', [], written', h', hwritten', by rw [List.append_nil, hbytes],
        (if_neg hfits).trans hdrain⟩

theorem flushBuffer_running (h : su.Sent pieces)
    (hwritten : ∀ n, su.promised = some n → written = pieces.flatten.length) :
    (su.running buffered (su.frames pieces) written).flushBuffer =
        (.error .writeFailed, su.running buffered (su.frames pieces) written) ∨
      ∃ pieces' written', su.Sent pieces' ∧
        (∀ n, su.promised = some n → written' = pieces'.flatten.length) ∧
        pieces'.flatten = pieces.flatten ++ buffered ∧
        (su.running buffered (su.frames pieces) written).flushBuffer =
          (.ok (), su.running [] (su.frames pieces') written') := by
  rw [Stream.flushBuffer]
  by_cases hempty : buffered.length = 0
  · obtain rfl := List.eq_nil_of_length_eq_zero hempty
    exact .inr ⟨pieces, written, h, hwritten, (List.append_nil _).symm, rfl⟩
  · rcases drain_running h hwritten ⟨[], [], 1⟩ with
      hdrain | ⟨pieces', written', h', hwritten', hbytes, hdrain⟩
    · refine .inl ((if_neg hempty).trans ?_)
      rw [hdrain]
    · refine .inr ⟨pieces', written', h', hwritten', hbytes.trans (List.append_nil _),
        (if_neg hempty).trans ?_⟩
      rw [hdrain]

/-- Whatever drains says it took all it was given. -/
theorem writeSplat_takes {self after : Stream} {data : Data} {n : Nat}
    (h : self.writeSplat data = (.ok n, after)) : n = data.count := by
  rw [Stream.writeSplat, Stream.drain] at h
  split_ifs at h
  · cases h
    rfl
  · cases h
  · split at h
    · cases h
      rfl
    · split_ifs at h
      · cases h
        rfl
      · split at h
        · cases h
          rfl
        · split_ifs at h
          · cases (Prod.mk.inj h).1
          · exact (Except.ok.inj (Prod.mk.inj h).1).symm

/-- So the loop of `writeAll` goes round once. -/
theorem writeAll_eq (self : Stream) (bytes : Bytes) : self.writeAll bytes =
    if bytes.length = 0 then (.ok (), self) else self.step (.writeSplat ⟨[], bytes, 1⟩) := by
  rw [Stream.writeAll, Stream.writeFrom, Stream.step_writeSplat]
  by_cases hempty : bytes.length = 0
  · rw [if_pos hempty, if_pos hempty]
  · rw [if_neg hempty, if_neg hempty]
    cases hwrite : self.writeSplat ⟨[], bytes, 1⟩ with
    | mk result after =>
      cases result with
      | error e => rfl
      | ok n =>
        have hn : n = bytes.length := by
          rw [writeSplat_takes hwrite]
          simp [Data.count]
        dsimp only
        rw [hn, List.drop_length]
        cases bytes with
        | nil => rfl
        | cons ch rest => rfl

theorem bytes_whole (bytes : Bytes) : (⟨[], bytes, 1⟩ : Data).bytes = bytes := by
  simp [Data.bytes]

/-! ## A stream that is broken off or over -/

theorem writeSplat_broken (data : Data) : (su.broken wire written).writeSplat data =
    (if data.count = 0 then .ok data.count else .error .writeFailed, su.broken wire written) := by
  rw [Stream.writeSplat]
  by_cases hempty : data.count = 0
  · have hbytes : data.bytes = [] := List.eq_nil_of_length_eq_zero ((length_bytes data).trans hempty)
    rw [hempty, hbytes]
    rfl
  · rw [if_neg hempty]
    exact if_neg fun hle => hempty (Nat.eq_zero_of_le_zero (Nat.le_of_add_left_le hle))

theorem writeSplat_closed {force : Option Bool} (data : Data) :
    (su.closed wire force).writeSplat data = (.ok data.count, su.closed wire force) := by
  rw [Stream.writeSplat]
  by_cases hempty : data.count = 0
  · have hbytes : data.bytes = [] := List.eq_nil_of_length_eq_zero ((length_bytes data).trans hempty)
    rw [hempty, hbytes]
    rfl
  · exact if_neg fun hle => hempty (Nat.eq_zero_of_le_zero (Nat.le_of_add_left_le hle))

/-- Nothing that is called changes a stream that is broken off. -/
theorem step_broken (call : Call) : ((su.broken wire written).step call).2 = su.broken wire written := by
  cases call with
  | writeAll bytes =>
    rw [Stream.step_writeAll, writeAll_eq]
    split_ifs
    · rfl
    · rw [Stream.step_writeSplat, writeSplat_broken]
      split_ifs <;> rfl
  | writeSplat data =>
    rw [Stream.step_writeSplat, writeSplat_broken]
    split_ifs <;> rfl
  | flush => rfl
  | finish => rfl
  | abort =>
    obtain ⟨room, chunked, promised, forceClose, ended, trailers⟩ := su
    cases forceClose <;> rfl

/-- Nor one that is over. -/
theorem step_closed {force : Option Bool} (call : Call) :
    ((su.closed wire force).step call).2 = su.closed wire force := by
  cases call with
  | writeAll bytes =>
    rw [Stream.step_writeAll, writeAll_eq]
    split_ifs
    · rfl
    · rw [Stream.step_writeSplat, writeSplat_closed]
  | writeSplat data => rw [Stream.step_writeSplat, writeSplat_closed]
  | flush => rfl
  | finish => rfl
  | abort => rfl

/-! ## Every sequence of calls -/

/-- The body can still be added to. -/
def Stream.live (self : Stream) : Bool := (self.record.map fun o => !o.finished && !o.aborted).getD false

/-- A stream with the bytes of the writes that succeeded before its end. -/
structure Trace where
  stream : Stream
  accepted : Bytes

def Trace.after (t : Trace) (call : Call) : Trace where
  stream := (t.stream.step call).2
  accepted :=
    if t.stream.live && (t.stream.step call).1.isOk then t.accepted ++ call.bytes else t.accepted

/-- The calls of a handler on a stream that was just opened. -/
def run (su : Setup) (calls : List Call) : Trace := calls.foldl Trace.after ⟨su.start, []⟩

/-- Whatever the calls, what went out, in pieces, is part of what was accepted, and all of it once the
body is over. A stream is broken off only where `abort` was called. -/
inductive Reached (su : Setup) : Bool → Trace → Prop
  | running {pieces : List Bytes} {buffered : Bytes} {written : Nat} (sent : su.Sent pieces)
      (counted : ∀ n, su.promised = some n → written = pieces.flatten.length) :
      Reached su false ⟨su.running buffered (su.frames pieces) written, pieces.flatten ++ buffered⟩
  | broken {pieces : List Bytes} {accepted : Bytes} {written : Nat} (sent : su.Sent pieces)
      (early : pieces.flatten <+: accepted) :
      Reached su true ⟨su.broken (su.frames pieces) written, accepted⟩
  | closed {aborted : Bool} {pieces : List Bytes} {force : Option Bool} (sent : su.Sent pieces)
      (short : ∀ n, su.promised = some n → pieces.flatten.length < n →
        force = su.forceClose.map fun _ => true) :
      Reached su aborted ⟨su.closed (su.frames pieces ++ su.marker) force, pieces.flatten⟩

theorem reached_start (su : Setup) : Reached su false ⟨su.start, []⟩ := by
  have sent : su.Sent [] := ⟨List.forall_mem_nil _, fun _ _ => Nat.zero_le _⟩
  have h : Reached su false ⟨su.running [] (su.frames []) 0, [].flatten ++ []⟩ :=
    .running sent fun _ _ => rfl
  exact h

theorem after_eq {t : Trace} {call : Call} {result : Except Error Unit} {after : Stream}
    (h : t.stream.step call = (result, after)) : t.after call =
      ⟨after, if t.stream.live && result.isOk then t.accepted ++ call.bytes else t.accepted⟩ := by
  rw [Trace.after, h]

/-- No call changes a stream that is broken off or over, and nothing more is accepted. -/
theorem after_broken (t : Trace) (h : t.stream = su.broken wire written) (call : Call) :
    t.after call = t := by
  obtain ⟨stream, accepted⟩ := t
  subst h
  rw [Trace.after, step_broken]
  rfl

theorem after_closed {force : Option Bool} (t : Trace) (h : t.stream = su.closed wire force) (call : Call) :
    t.after call = t := by
  obtain ⟨stream, accepted⟩ := t
  subst h
  rw [Trace.after, step_closed]
  rfl

/-- A write that was taken is buffered behind what was, or has gone out. -/
theorem reached_write (sent : su.Sent pieces)
    (counted : ∀ n, su.promised = some n → written = pieces.flatten.length) {call : Call} {data : Data}
    (hbytes : data.bytes = call.bytes)
    (hstep : (su.running buffered (su.frames pieces) written).step call =
      (su.running buffered (su.frames pieces) written).step (.writeSplat data)) :
    Reached su false (Trace.after
      ⟨su.running buffered (su.frames pieces) written, pieces.flatten ++ buffered⟩ call) := by
  rcases writeSplat_running sent counted data with
    hfail | ⟨pieces', buffered', written', sent', counted', hflatten, hwrite⟩
  · rw [Stream.step_writeSplat, hfail] at hstep
    rw [after_eq hstep]
    exact .running sent counted
  · rw [Stream.step_writeSplat, hwrite] at hstep
    have h : Reached su false
        ⟨su.running buffered' (su.frames pieces') written', pieces'.flatten ++ buffered'⟩ :=
      .running sent' counted'
    rw [hflatten, hbytes] at h
    rw [after_eq hstep]
    exact h

/-- To finish is refused where the flush is, and ends the body else. -/
theorem finish_running (sent : su.Sent pieces)
    (counted : ∀ n, su.promised = some n → written = pieces.flatten.length) :
    (su.running buffered (su.frames pieces) written).step .finish =
        (.error .writeFailed, su.running buffered (su.frames pieces) written) ∨
      ∃ pieces' force, su.Sent pieces' ∧ (∀ n, su.promised = some n → pieces'.flatten.length < n →
          force = su.forceClose.map fun _ => true) ∧ pieces'.flatten = pieces.flatten ++ buffered ∧
        (su.running buffered (su.frames pieces) written).step .finish =
          (.ok (), su.closed (su.frames pieces' ++ su.marker) force) := by
  rcases flushBuffer_running sent counted with
    hfail | ⟨pieces', written', sent', counted', hflatten, hflush⟩
  · refine .inl ?_
    rw [Stream.step_finish, Stream.finish]
    refine (if_neg Bool.false_ne_true).trans ?_
    rw [hfail]
  · refine .inr ⟨pieces', su.forced written', sent', fun n hn hshort => ?_, hflatten, ?_⟩
    · rw [Setup.forced, hn]
      exact if_pos (decide_eq_true (counted' n hn ▸ hshort))
    · rw [Stream.step_finish, Stream.finish]
      refine (if_neg Bool.false_ne_true).trans ?_
      rw [hflush, Setup.marker, Setup.forced, ← Bool.and_true su.chunked]
      rfl

theorem reached_finish (sent : su.Sent pieces)
    (counted : ∀ n, su.promised = some n → written = pieces.flatten.length) :
    Reached su false (Trace.after
      ⟨su.running buffered (su.frames pieces) written, pieces.flatten ++ buffered⟩ .finish) := by
  rcases finish_running sent counted with hstep | ⟨pieces', force, sent', short, hflatten, hstep⟩
  · rw [after_eq hstep]
    exact .running sent counted
  · have h : Reached su false ⟨su.closed (su.frames pieces' ++ su.marker) force, pieces'.flatten⟩ :=
      .closed sent' short
    rw [hflatten, ← List.append_nil (pieces.flatten ++ buffered)] at h
    rw [after_eq hstep]
    exact h

theorem reached_flush (sent : su.Sent pieces)
    (counted : ∀ n, su.promised = some n → written = pieces.flatten.length) :
    Reached su false (Trace.after
      ⟨su.running buffered (su.frames pieces) written, pieces.flatten ++ buffered⟩ .flush) := by
  rcases flushBuffer_running sent counted with
    hfail | ⟨pieces', written', sent', counted', hflatten, hflush⟩
  · have hstep : (su.running buffered (su.frames pieces) written).step .flush =
        (.error .writeFailed, su.running buffered (su.frames pieces) written) := hfail
    rw [after_eq hstep]
    exact .running sent counted
  · have hstep : (su.running buffered (su.frames pieces) written).step .flush =
        (.ok (), su.running [] (su.frames pieces') written') := hflush
    have h : Reached su false ⟨su.running [] (su.frames pieces') written', pieces'.flatten ++ []⟩ :=
      .running sent' counted'
    rw [hflatten] at h
    rw [after_eq hstep]
    exact h

theorem reached_after {aborted : Bool} {t : Trace} (h : Reached su aborted t) (call : Call) :
    Reached su (aborted || Call.abort == call) (t.after call) := by
  cases h with
  | @running pieces buffered written sent counted =>
    cases call with
    | writeAll bytes =>
      by_cases hempty : bytes.length = 0
      · have hstep : (su.running buffered (su.frames pieces) written).step (.writeAll bytes) =
            (.ok (), su.running buffered (su.frames pieces) written) := by
          rw [Stream.step_writeAll, writeAll_eq, if_pos hempty]
        have h : Reached su false ⟨su.running buffered (su.frames pieces) written,
          pieces.flatten ++ buffered⟩ := .running sent counted
        rw [← List.append_nil (pieces.flatten ++ buffered),
          ← List.eq_nil_of_length_eq_zero hempty] at h
        rw [after_eq hstep]
        exact h
      · refine reached_write sent counted (bytes_whole bytes) ?_
        rw [Stream.step_writeAll, writeAll_eq, if_neg hempty]
    | writeSplat data => exact reached_write sent counted rfl rfl
    | flush => exact reached_flush sent counted
    | finish => exact reached_finish sent counted
    | abort => exact .broken sent (List.prefix_append _ _)
  | broken sent early =>
    rw [after_broken _ rfl]
    exact .broken sent early
  | closed sent short =>
    rw [after_closed _ rfl]
    exact .closed sent short

theorem run_append (su : Setup) (before : List Call) (call : Call) (after : List Call) :
    run su (before ++ call :: after) = after.foldl Trace.after ((run su before).after call) := by
  rw [run, List.foldl_append, List.foldl_cons]
  rfl

theorem reached_foldl {aborted : Bool} {t : Trace} (h : Reached su aborted t) (calls : List Call) :
    Reached su (aborted || calls.contains .abort) (calls.foldl Trace.after t) := by
  induction calls generalizing aborted t with
  | nil =>
    rw [List.contains_nil, Bool.or_false]
    exact h
  | cons call calls ih =>
    rw [List.contains_cons, ← Bool.or_assoc]
    exact ih (reached_after h call)

theorem reached_run (su : Setup) (calls : List Call) :
    Reached su (calls.contains .abort) (run su calls) := reached_foldl (reached_start su) calls

theorem foldl_settled {t : Trace} (h : ∀ call, t.after call = t) (calls : List Call) :
    calls.foldl Trace.after t = t := by
  induction calls with
  | nil => rfl
  | cons call calls ih => rw [List.foldl_cons, h call, ih]

/-- Once `abort` was called nothing goes out. -/
theorem wire_after_abort (su : Setup) (before after : List Call) :
    (run su (before ++ .abort :: after)).stream.wire = (run su before).stream.wire := by
  rw [run_append]
  have h := reached_run su before
  generalize run su before = t at h ⊢
  generalize before.contains Call.abort = aborted at h
  cases h with
  | @running pieces buffered written sent counted =>
    rw [foldl_settled (after_broken _ rfl)]
    rfl
  | broken sent early =>
    rw [after_broken _ rfl, foldl_settled (after_broken _ rfl)]
  | closed sent short =>
    rw [after_closed _ rfl, foldl_settled (after_closed _ rfl)]

/-- Once a body has ended nothing changes. -/
theorem run_after_finish (su : Setup) (before after : List Call) (hnone : .abort ∉ before)
    (hok : ((run su before).stream.step .finish).1 = .ok ()) :
    (run su (before ++ .finish :: after)).stream.record = none ∧
      run su (before ++ .finish :: after) = run su (before ++ [.finish]) := by
  rw [run_append, run_append, List.foldl_nil]
  have h := reached_run su before
  have hcontains : before.contains Call.abort = false := by
    rw [← Bool.not_eq_true, List.contains_iff_mem]
    exact hnone
  rw [hcontains] at h
  generalize run su before = t at h hok ⊢
  cases h with
  | running sent counted =>
    rcases finish_running sent counted with hstep | ⟨pieces', force, sent', short, hflatten, hstep⟩
    · rw [hstep] at hok
      cases hok
    · rw [after_eq hstep, foldl_settled (after_closed _ rfl)]
      exact ⟨rfl, rfl⟩
  | closed sent short =>
    rw [after_closed _ rfl, foldl_settled (after_closed _ rfl)]
    exact ⟨rfl, rfl⟩

/-- A stream that was used puts exactly its body on the wire. -/
structure Exact (su : Setup) (calls : List Call) : Prop where
  /-- The wire is pieces, none empty, and behind them one marker once the body is over. They are the
  front of what was accepted, and all of it at the end; they keep the promise, and where they fall short
  of it the connection is to be closed. -/
  framed : ∃ pieces : List Bytes, (∀ piece ∈ pieces, piece ≠ []) ∧
    (run su calls).stream.wire = pieces.flatMap (frame su.chunked) ++
      (if (run su calls).stream.record = none then su.marker else []) ∧
    pieces.flatten <+: (run su calls).accepted ∧
    ((run su calls).stream.record = none → pieces.flatten = (run su calls).accepted) ∧
    (∀ n, su.promised = some n → pieces.flatten.length ≤ n) ∧
    ((run su calls).stream.record = none → ∀ n, su.promised = some n → pieces.flatten.length < n →
      (run su calls).stream.forceClose = su.forceClose.map fun _ => true)
  /-- Where `finish` returned without an error, and nothing broke the body off before, it is over, and
  no call after it changes anything. -/
  finished : ∀ before after, calls = before ++ .finish :: after → .abort ∉ before →
    ((run su before).stream.step .finish).1 = .ok () → (run su calls).stream.record = none ∧
      run su calls = run su (before ++ [.finish])
  /-- Nothing goes out once `abort` was called. -/
  aborted : ∀ before after, calls = before ++ .abort :: after →
    (run su calls).stream.wire = (run su before).stream.wire

theorem streamed_exactly (su : Setup) (calls : List Call) : Exact su calls where
  framed := by
    have h := reached_run su calls
    generalize run su calls = t at h ⊢
    generalize calls.contains Call.abort = aborted at h
    cases h with
    | @running pieces buffered written sent counted =>
      exact ⟨pieces, sent.nonempty, (List.append_nil _).symm, List.prefix_append _ _, nofun, sent.promised,
        nofun⟩
    | @broken pieces accepted written sent early =>
      exact ⟨pieces, sent.nonempty, (List.append_nil _).symm, early, nofun, sent.promised, nofun⟩
    | @closed aborted pieces force sent short =>
      exact ⟨pieces, sent.nonempty, rfl, List.prefix_refl _, fun _ => rfl, sent.promised, fun _ => short⟩
  finished := by
    rintro before after rfl hnone hok
    exact run_after_finish su before after hnone hok
  aborted := by
    rintro before after rfl
    exact wire_after_abort su before after

end Nilo.Streaming
