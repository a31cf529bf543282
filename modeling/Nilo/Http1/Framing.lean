import Mathlib.Data.List.Induction
import Mathlib.Data.List.Perm.Basic
import Nilo.Http1.Plain

/-!
# What the lines of a head come to

Each line of a head says one thing (`Said`), and the fold of the lines into the request comes to what
was said whatever the order, but for two fields: the connection of an HTTP/1.0 request, and the
coding of the body, which is what the last line about it said (`readLines_ok`).
-/

namespace Nilo.Http1

open Text (Bytes ascii eqlIgnoreCase)

/-! ## A head in its lines -/

theorem refEndOfHead_skip {first rest : Bytes} (hfirst : lf ∉ first) :
    refEndOfHead (first ++ rest) = (refEndOfHead rest).map (· + first.length) := by
  induction first with
  | nil => exact (Option.map_id' (x := refEndOfHead rest)).symm
  | cons ch first ih =>
    rw [List.mem_cons, not_or] at hfirst
    have hblank : blankLine (ch :: (first ++ rest)) = none := by
      rw [blankLine, if_pos]
      exact fun heq => hfirst.1 (Option.some_inj.mp heq).symm
    rw [List.cons_append, refEndOfHead, hblank]
    dsimp only
    rw [ih hfirst.2, Option.map_map]
    refine congrArg (Option.map · _) (funext fun n => ?_)
    show n + first.length + 1 = n + (first.length + 1)
    omega

theorem trimCR_eq_nil {line : Bytes} (h : trimCR line = []) : line = [] ∨ line = [cr] := by
  rw [trimCR] at h
  split_ifs at h with hcr
  · right
    have hsplit := List.dropLast_append_getLast? cr hcr
    rw [h] at hsplit
    exact hsplit.symm
  · exact .inl h

/-- A head in its lines, each as it stands without its newline. -/
structure Head where
  request : Bytes
  lines : List Bytes
  blank : Bytes
  request_ok : lf ∉ request
  lines_ok : ∀ line ∈ lines, lf ∉ line ∧ trimCR line ≠ []
  blank_ok : lf ∉ blank ∧ trimCR blank = []

namespace Head

def text (h : Head) : Bytes :=
  h.request ++ lf :: (h.lines.flatMap (· ++ [lf]) ++ (h.blank ++ [lf]))

/-- The same head with its lines in another order. -/
def permute (h : Head) {lines : List Bytes} (hperm : lines.Perm h.lines) : Head :=
  { h with lines, lines_ok := fun line hline => h.lines_ok line (hperm.mem_iff.mp hline) }

end Head

/-! ## What a line says -/

/-- What a line says of the request. -/
inductive Said where
  | refused
  | nothing
  | host
  | expect
  | connection (value : Bytes)
  | length (n : Nat)
  | coding (c : Encoding)
  | chunked
deriving DecidableEq, Repr

def saidOf (zstd : Bool) (field : Field) (value : Bytes) : Said :=
  match field with
  | .host => if value.length > 0 && !authorityOk value false then .refused else .host
  | .expect => if eqlIgnoreCase value (ascii "100-continue") then .expect else .nothing
  | .connection => .connection value
  | .contentLength =>
    match digitsOnly value with
    | none => .refused
    | some n => .length n
  | .contentEncoding => .coding (codingOf zstd value)
  | .transferEncoding => if chunkedState value = .lone then .chunked else .refused

def said (zstd : Bool) (raw : Bytes) : Said :=
  let line := trimCR raw
  if holdsStray false line then .refused
  else
    match fieldLine line with
    | none => .refused
    | some (name, value) =>
      match fieldOf name with
      | none => .nothing
      | some field => saidOf zstd field value

/-- What a request is after a line, if the line is not refused. -/
def Said.apply (s : Said) (r : Request) : Option Request :=
  match s with
  | .refused => none
  | .nothing => some r
  | .host => if r.hasHost then none else some { r with hasHost := true }
  | .expect => some { r with expectContinue := true }
  | .connection value => some (applyConnection value r)
  | .length n =>
    if r.chunked ∨ r.hasContentLength ∧ n ≠ r.contentLength then none
    else some { r with contentLength := n, hasContentLength := true }
  | .coding c => some { r with contentEncoding := c }
  | .chunked =>
    if r.chunked ∨ r.hasContentLength then none else some { r with chunked := true }

theorem applyField_said (zstd : Bool) (field : Field) (value : Bytes) (r : Request) :
    (applyField zstd field value r).toOption = (saidOf zstd field value).apply r := by
  cases field with
  | host =>
    rw [applyField, saidOf]
    split_ifs <;> simp_all [Said.apply, Except.toOption]
  | expect =>
    rw [applyField, saidOf]
    split_ifs <;> rfl
  | connection => rfl
  | contentLength =>
    rw [applyField, saidOf]
    cases digitsOnly value <;> simp only [Said.apply] <;> split_ifs <;> simp_all [Except.toOption]
  | contentEncoding => rfl
  | transferEncoding =>
    rw [applyField, saidOf]
    cases chunkedState value <;> simp only [Said.apply] <;> split_ifs <;> simp_all [Except.toOption]

theorem readField_said (zstd : Bool) (raw : Bytes) (r : Request) :
    (readField zstd (trimCR raw) r).toOption = (said zstd raw).apply r := by
  rw [readField, said, applyLine]
  split_ifs with hstray
  · rfl
  · cases fieldLine (trimCR raw) with
    | none => rfl
    | some pair =>
      dsimp only
      cases fieldOf pair.1 with
      | none => rfl
      | some field => exact applyField_said zstd field pair.2 r

/-! ## What was said, whatever the order -/

def Said.length? : Said → Option Nat
  | .length n => some n
  | _ => none

def Said.coding? : Said → Option Encoding
  | .coding c => some c
  | _ => none

def Said.value? : Said → Option Bytes
  | .connection value => some value
  | _ => none

/-- Whether a `Connection` value asks for an upgrade. -/
def upgrades (value : Bytes) : Bool := (applyConnection value {}).upgrade

/-- Whether a connection of this version is kept after a `Connection` value. -/
def keepAfter (minorVersion : Fin 2) (keepAlive : Bool) (value : Bytes) : Bool :=
  (applyConnection value { minorVersion, keepAlive }).keepAlive

/-- No line is refused, and no two of them cannot stand beside each other. -/
structure Agree (told : List Said) : Prop where
  none_refused : Said.refused ∉ told
  hosts : told.count .host ≤ 1
  codings : told.count .chunked ≤ 1
  lengths : ∀ m n, .length m ∈ told → .length n ∈ told → m = n
  framed_once : .chunked ∈ told → ∀ n, .length n ∉ told

/-- The coding the last line about it named. -/
def lastCoding (told : List Said) : Option Encoding := (told.filterMap Said.coding?).getLast?

/-- What the lines come to. -/
def Request.after (r : Request) (told : List Said) : Request :=
  { r with
    keepAlive := (told.filterMap Said.value?).foldl (keepAfter r.minorVersion) r.keepAlive
    contentLength := ((told.filterMap Said.length?).head?).getD 0
    chunked := decide (.chunked ∈ told)
    hasContentLength := (told.filterMap Said.length?).head?.isSome
    contentEncoding := (lastCoding told).getD .identity
    hasHost := decide (.host ∈ told)
    upgrade := (told.filterMap Said.value?).any upgrades
    expectContinue := decide (.expect ∈ told) }

/-- A request that no field was read into. -/
structure Request.Bare (r : Request) : Prop where
  contentLength : r.contentLength = 0
  chunked : r.chunked = false
  hasContentLength : r.hasContentLength = false
  contentEncoding : r.contentEncoding = .identity
  hasHost : r.hasHost = false
  upgrade : r.upgrade = false
  expectContinue : r.expectContinue = false

theorem applyConnection_eq (value : Bytes) (r : Request) :
    applyConnection value r =
      { r with
        keepAlive := keepAfter r.minorVersion r.keepAlive value
        upgrade := r.upgrade || upgrades value } := by
  rw [keepAfter, upgrades]
  unfold applyConnection connectionList setKeepAlive
  split_ifs <;> simp_all

theorem after_nil {r : Request} (h : r.Bare) : r.after [] = r := by
  obtain ⟨h₁, h₂, h₃, h₄, h₅, h₆, h₇⟩ := h
  cases r
  simp_all [Request.after, lastCoding]

theorem mem_length {told : List Said} {n : Nat} :
    n ∈ told.filterMap Said.length? ↔ .length n ∈ told := by
  rw [List.mem_filterMap]
  constructor
  · rintro ⟨s, hs, heq⟩
    cases s <;> cases heq
    exact hs
  · intro h
    exact ⟨_, h, rfl⟩

theorem mem_coding {told : List Said} {c : Encoding} :
    c ∈ told.filterMap Said.coding? ↔ .coding c ∈ told := by
  rw [List.mem_filterMap]
  constructor
  · rintro ⟨s, hs, heq⟩
    cases s <;> cases heq
    exact hs
  · intro h
    exact ⟨_, h, rfl⟩

theorem Agree.length_eq {told : List Said} (h : Agree told) {n : Nat} (hn : .length n ∈ told) :
    (told.filterMap Said.length?).head? = some n := by
  have hmem := mem_length.mpr hn
  cases hl : told.filterMap Said.length? with
  | nil =>
    rw [hl] at hmem
    cases hmem
  | cons m rest =>
    have hm : .length m ∈ told := mem_length.mp (by rw [hl]; exact List.mem_cons_self)
    rw [List.head?_cons, h.lengths m n hm hn]

theorem no_length {told : List Said} (h : ∀ n, .length n ∉ told) :
    told.filterMap Said.length? = [] := by
  cases hl : told.filterMap Said.length? with
  | nil => rfl
  | cons m rest => exact absurd (mem_length.mp (by rw [hl]; exact List.mem_cons_self)) (h m)

/-- What a line may say after these. -/
def Allowed (told : List Said) : Said → Prop
  | .refused => False
  | .host => .host ∉ told
  | .length n => .chunked ∉ told ∧ ∀ m, .length m ∈ told → m = n
  | .chunked => .chunked ∉ told ∧ ∀ n, .length n ∉ told
  | _ => True

theorem agree_nil : Agree [] := by
  refine ⟨List.not_mem_nil, by decide, by decide, ?_, ?_⟩
  · intro m n hm
    cases hm
  · intro h
    cases h

theorem count_snoc {told : List Said} {s t : Said} (h : (told ++ [s]).count t ≤ 1) :
    told.count t ≤ 1 ∧ (s = t → t ∉ told) := by
  rw [List.count_append, List.count_singleton] at h
  refine ⟨by omega, ?_⟩
  rintro rfl hmem
  have := List.count_pos_iff.mpr hmem
  rw [beq_self_eq_true, if_pos rfl] at h
  omega

theorem count_le_snoc {told : List Said} {s t : Said} (h : told.count t ≤ 1)
    (hs : s = t → t ∉ told) : (told ++ [s]).count t ≤ 1 := by
  rw [List.count_append, List.count_singleton]
  by_cases heq : s = t
  · rw [List.count_eq_zero_of_not_mem (hs heq)]
    split_ifs <;> omega
  · rw [if_neg (by rw [beq_iff_eq]; exact heq)]
    exact h

theorem mem_snoc {told : List Said} {s t : Said} : t ∈ told ++ [s] ↔ t ∈ told ∨ t = s := by
  rw [List.mem_append, List.mem_singleton]

theorem agree_snoc {told : List Said} {s : Said} :
    Agree (told ++ [s]) ↔ Agree told ∧ Allowed told s := by
  constructor
  · intro h
    refine ⟨⟨fun hmem => h.none_refused (mem_snoc.mpr (.inl hmem)), (count_snoc h.hosts).1,
      (count_snoc h.codings).1, fun m n hm hn => h.lengths m n (mem_snoc.mpr (.inl hm))
        (mem_snoc.mpr (.inl hn)), fun hmem n hn => h.framed_once (mem_snoc.mpr (.inl hmem)) n
        (mem_snoc.mpr (.inl hn))⟩, ?_⟩
    have hself : s ∈ told ++ [s] := mem_snoc.mpr (.inr rfl)
    cases s with
    | refused => exact h.none_refused hself
    | host => exact (count_snoc h.hosts).2 rfl
    | length n =>
      exact ⟨fun hmem => h.framed_once (mem_snoc.mpr (.inl hmem)) n hself,
        fun m hm => h.lengths m n (mem_snoc.mpr (.inl hm)) hself⟩
    | chunked =>
      exact ⟨(count_snoc h.codings).2 rfl, fun n hn => h.framed_once hself n (mem_snoc.mpr (.inl hn))⟩
    | nothing => trivial
    | expect => trivial
    | connection value => trivial
    | coding c => trivial
  · rintro ⟨h, hs⟩
    refine ⟨?_, count_le_snoc h.hosts ?_, count_le_snoc h.codings ?_, ?_, ?_⟩
    · intro hmem
      rcases mem_snoc.mp hmem with hmem | rfl
      · exact h.none_refused hmem
      · exact hs
    · rintro rfl
      exact hs
    · rintro rfl
      exact hs.1
    · intro m n hm hn
      rcases mem_snoc.mp hm with hm' | rfl
      · rcases mem_snoc.mp hn with hn' | rfl
        · exact h.lengths m n hm' hn'
        · exact hs.2 m hm'
      · rcases mem_snoc.mp hn with hn' | heq
        · exact (hs.2 n hn').symm
        · exact (Said.length.inj heq).symm
    · intro hmem n hn
      rcases mem_snoc.mp hmem with hmem' | rfl
      · rcases mem_snoc.mp hn with hn' | rfl
        · exact h.framed_once hmem' n hn'
        · exact hs.1 hmem'
      · rcases mem_snoc.mp hn with hn' | heq
        · exact hs.2 n hn'
        · cases heq

/-- A line that may come after these. -/
theorem apply_after {r : Request} {told : List Said} {s : Said} (hs : Allowed told s) :
    s.apply (r.after told) = some (r.after (told ++ [s])) := by
  cases s with
  | refused => exact hs.elim
  | nothing => simp [Said.apply, Request.after, lastCoding, List.filterMap_cons,
      Said.value?, Said.length?, Said.coding?]
  | host =>
    have hnot : Said.host ∉ told := hs
    simp [Said.apply, Request.after, lastCoding, List.filterMap_cons,
      Said.value?, Said.length?, Said.coding?, hnot]
  | expect => simp [Said.apply, Request.after, lastCoding, List.filterMap_cons,
      Said.value?, Said.length?, Said.coding?]
  | connection value =>
    rw [Said.apply, applyConnection_eq]
    simp [Request.after, lastCoding, List.filterMap_cons,
      Said.value?, Said.length?, Said.coding?]
  | length n =>
    obtain ⟨hnot, hsame⟩ := hs
    cases hl : told.filterMap Said.length? with
    | nil =>
      simp [Said.apply, Request.after, lastCoding, List.filterMap_cons,
      Said.value?, Said.length?, Said.coding?, hnot, hl]
    | cons m rest =>
      have hm : m = n := hsame m (mem_length.mp (by rw [hl]; exact List.mem_cons_self))
      simp [Said.apply, Request.after, lastCoding, List.filterMap_cons,
      Said.value?, Said.length?, Said.coding?, hnot, hl, hm]
  | coding c =>
    simp [Said.apply, Request.after, lastCoding, List.filterMap_cons,
      Said.value?, Said.length?, Said.coding?]
  | chunked =>
    obtain ⟨hnot, hno⟩ := hs
    simp [Said.apply, Request.after, lastCoding, List.filterMap_cons,
      Said.value?, Said.length?, Said.coding?, hnot,
      no_length hno]

theorem apply_none {r : Request} {told : List Said} (h : Agree told) {s : Said}
    (hs : ¬ Allowed told s) : s.apply (r.after told) = none := by
  cases s with
  | refused => rfl
  | host =>
    have hmem : Said.host ∈ told := not_not.mp hs
    simp [Said.apply, Request.after, hmem]
  | length n =>
    by_cases hmem : Said.chunked ∈ told
    · simp [Said.apply, Request.after, hmem]
    · have hother : ∃ m, Said.length m ∈ told ∧ m ≠ n := by
        by_contra hnone
        refine hs ⟨hmem, fun m hm => ?_⟩
        by_contra hne
        exact hnone ⟨m, hm, hne⟩
      obtain ⟨m, hm, hne⟩ := hother
      have hhead := h.length_eq hm
      simp [Said.apply, Request.after, hhead, Ne.symm hne]
  | chunked =>
    by_cases hmem : Said.chunked ∈ told
    · simp [Said.apply, Request.after, hmem]
    · have hsome : ∃ n, Said.length n ∈ told := by
        by_contra hnone
        exact hs ⟨hmem, fun n hn => hnone ⟨n, hn⟩⟩
      obtain ⟨n, hn⟩ := hsome
      have hhead := h.length_eq hn
      simp [Said.apply, Request.after, hhead]
  | nothing => exact absurd trivial hs
  | expect => exact absurd trivial hs
  | connection value => exact absurd trivial hs
  | coding c => exact absurd trivial hs

/-- The lines one after the other come to what they say together, or one of them is refused. -/
theorem foldlM_apply {r : Request} (hr : r.Bare) (told : List Said) (r' : Request) :
    told.foldlM (fun r s => s.apply r) r = some r' ↔ Agree told ∧ r' = r.after told := by
  induction told using List.reverseRecOn generalizing r' with
  | nil =>
    rw [List.foldlM_nil, after_nil hr]
    refine ⟨fun h => ⟨agree_nil, (Option.some_inj.mp h).symm⟩, ?_⟩
    rintro ⟨-, rfl⟩
    rfl
  | append_singleton told s ih =>
    rw [List.foldlM_append]
    by_cases hagree : Agree told
    · rw [(ih _).mpr ⟨hagree, rfl⟩]
      by_cases hs : Allowed told s
      · have happly := apply_after (r := r) hs
        simp only [bind, Option.bind, List.foldlM_cons, List.foldlM_nil, happly]
        refine ⟨fun h => ⟨agree_snoc.mpr ⟨hagree, hs⟩, (Option.some_inj.mp h).symm⟩, ?_⟩
        rintro ⟨-, rfl⟩
        rfl
      · have happly := apply_none (r := r) hagree hs
        simp only [bind, Option.bind, List.foldlM_cons, List.foldlM_nil, happly]
        refine ⟨fun h => (by cases h), ?_⟩
        rintro ⟨h, -⟩
        exact absurd (agree_snoc.mp h).2 hs
    · cases hfold : told.foldlM (fun r s => Said.apply s r) r with
      | some r₁ => exact absurd ((ih r₁).mp hfold).1 hagree
      | none =>
        refine ⟨fun h => (by cases h), ?_⟩
        rintro ⟨h, -⟩
        exact absurd (agree_snoc.mp h).1 hagree

/-! ## A head as its lines say -/

/-- The first line of a head. -/
def readRequestLine (raw : Bytes) (r : Request) : Except ParseError Request :=
  if holdsStray true (trimCR raw) then .error .badRequestLine else parseRequestLine (trimCR raw) r

/-- A request before its head is read. -/
def Request.fresh (deferred : Bool) : Request := { encodingDeferred := deferred }

theorem fresh_bare (deferred : Bool) : (Request.fresh deferred).Bare :=
  ⟨rfl, rfl, rfl, rfl, rfl, rfl, rfl⟩

theorem applyForm_ok {r r' : Request} (h : applyForm r = .ok r') :
    ∃ target authority, r' = { r with target, authority } := by
  unfold applyForm at h
  split at h
  · cases h
    exact ⟨_, _, rfl⟩
  · split at h
    · cases h
    · cases h
      exact ⟨_, _, rfl⟩
    · split_ifs at h <;> cases h
      · exact ⟨_, _, rfl⟩
      · exact ⟨_, _, rfl⟩

theorem parseRequestLine_ok {line : Bytes} {r r' : Request} (h : parseRequestLine line r = .ok r') :
    ∃ method target authority minorVersion keepAlive,
      r' = { r with method, target, authority, minorVersion, keepAlive } := by
  unfold parseRequestLine at h
  split at h
  · cases h
  · split at h
    · cases h
    · split at h
      · cases h
      · split at h
        · cases h
        · split_ifs at h
          obtain ⟨target, authority, rfl⟩ := applyForm_ok h
          exact ⟨_, target, authority, _, _, rfl⟩

/-- The request line leaves the rest of the request as it was. -/
theorem readRequestLine_ok {raw : Bytes} {r r' : Request} (h : readRequestLine raw r = .ok r') :
    (r.Bare → r'.Bare) ∧ r'.encodingDeferred = r.encodingDeferred := by
  unfold readRequestLine at h
  split_ifs at h
  obtain ⟨_, _, _, _, _, rfl⟩ := parseRequestLine_ok h
  exact ⟨fun ⟨h₁, h₂, h₃, h₄, h₅, h₆, h₇⟩ => ⟨h₁, h₂, h₃, h₄, h₅, h₆, h₇⟩, rfl⟩

namespace Head

variable {zstd : Bool} {h : Head}

/-- What the lines of a head say. -/
def told (zstd : Bool) (h : Head) : List Said := h.lines.map (said zstd)

theorem splitOn_lines {lines : List Bytes} (hlines : ∀ line ∈ lines, lf ∉ line) (rest : Bytes) :
    (lines.flatMap (· ++ [lf]) ++ rest).splitOn lf = lines ++ rest.splitOn lf := by
  induction lines with
  | nil => rfl
  | cons line lines ih =>
    have hline := hlines line List.mem_cons_self
    have ih := ih fun l hl => hlines l (List.mem_cons_of_mem line hl)
    rw [List.flatMap_cons, List.append_assoc, List.append_assoc, List.singleton_append,
      List.splitOn_append_cons_self_of_not_mem hline, ih, List.cons_append]

theorem splitOn_text (h : Head) : h.text.splitOn lf = h.request :: (h.lines ++ [h.blank, []]) := by
  have hblank : (h.blank ++ [lf]).splitOn lf = [h.blank, []] := by
    rw [List.splitOn_append_cons_self_of_not_mem h.blank_ok.1, List.splitOn_nil]
  rw [text, List.splitOn_append_cons_self_of_not_mem h.request_ok,
    splitOn_lines (fun line hline => (h.lines_ok line hline).1), hblank]

theorem stepLines_eq (zstd : Bool) {lines : List Bytes} {blank : Bytes} {rest : List Bytes}
    (hlines : ∀ line ∈ lines, trimCR line ≠ []) (hblank : trimCR blank = []) (r : Request) :
    stepLines zstd false (lines ++ blank :: rest) r =
      lines.foldlM (fun r raw => readField zstd (trimCR raw) r) r := by
  induction lines generalizing r with
  | nil =>
    rw [List.nil_append, stepLines, stepLine, if_neg Bool.false_ne_true, if_pos hblank]
    rfl
  | cons line lines ih =>
    have ih := ih fun l hl => hlines l (List.mem_cons_of_mem line hl)
    rw [List.cons_append, stepLines, stepLine, if_neg Bool.false_ne_true,
      if_neg (hlines line List.mem_cons_self), List.foldlM_cons]
    cases readField zstd (trimCR line) r with
    | error e => rfl
    | ok r' => exact ih r'

theorem readLines_text (zstd : Bool) (h : Head) (r : Request) :
    readLines zstd h.text r true =
      readRequestLine h.request r >>= fun r =>
        h.lines.foldlM (fun r raw => readField zstd (trimCR raw) r) r := by
  rw [readLines_eq, readPlain, splitOn_text, stepLines, stepLine, readRequestLine, if_pos rfl]
  split_ifs with hstray
  · rfl
  · cases parseRequestLine (trimCR h.request) r with
    | error e => rfl
    | ok r' => exact stepLines_eq zstd (fun line hline => (h.lines_ok line hline).2) h.blank_ok.2 r'

theorem foldlM_toOption {ε α β : Type} (f : β → α → Except ε β) (l : List α) (b : β) :
    (l.foldlM f b).toOption = l.foldlM (fun b a => (f b a).toOption) b := by
  induction l generalizing b with
  | nil => rfl
  | cons a l ih =>
    rw [List.foldlM_cons, List.foldlM_cons]
    cases f b a with
    | error e => rfl
    | ok b' => exact ih b'

theorem toOption_eq_some {ε α : Type} {x : Except ε α} {a : α} : x.toOption = some a ↔ x = .ok a := by
  cases x with
  | error e => exact ⟨fun h => (by cases h), fun h => (by cases h)⟩
  | ok b => exact ⟨fun h => congrArg Except.ok (Option.some_inj.mp h), fun h => by cases h; rfl⟩

/-- A head is read where its request line is and its lines agree, and then the request is what they
say together. -/
theorem readLines_ok {r r' : Request} (hr : r.Bare) :
    readLines zstd h.text r true = .ok r' ↔
      ∃ first, readRequestLine h.request r = .ok first ∧ Agree (h.told zstd) ∧
        r' = first.after (h.told zstd) := by
  rw [readLines_text]
  have hfold (first : Request) (hfirst : readRequestLine h.request r = .ok first) :
      h.lines.foldlM (fun r raw => readField zstd (trimCR raw) r) first = .ok r' ↔
        Agree (h.told zstd) ∧ r' = first.after (h.told zstd) := by
    rw [← toOption_eq_some, foldlM_toOption]
    simp only [readField_said]
    rw [← foldlM_apply ((readRequestLine_ok hfirst).1 hr), told, List.foldlM_map]
  constructor
  · intro hread
    cases hfirst : readRequestLine h.request r with
    | error e =>
      rw [hfirst] at hread
      cases hread
    | ok first =>
      rw [hfirst] at hread
      exact ⟨first, rfl, (hfold first hfirst).mp hread⟩
  · rintro ⟨first, hfirst, hagree⟩
    rw [hfirst]
    exact (hfold first hfirst).mpr hagree

end Head

end Nilo.Http1
