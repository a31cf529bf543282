import Nilo.Http1.Framing

/-!
# The order of the lines

A head's lines are fields of one request, and what they come to should not hang on which of them came
first. It does in one place: the coding of the body is the one that the last line about it named.
`parseHead_order` says that this is the only thing that another order can change, and
`recorded_coding` when it is the coding of the list that the lines make together.
-/

namespace Nilo.Http1.Head

open Text (Bytes ascii eqlIgnoreCase)

variable {zstd : Bool} {h : Head}

/-! ## Another order -/

/-- Some line says that a body follows. -/
def HasBody (told : List Said) : Prop := .chunked ∈ told ∨ ∃ n, 0 < n ∧ .length n ∈ told

/-- A coding that is not read beside one that is. -/
def Mixed (told : List Said) : Prop := .coding .other ∈ told ∧ ∃ c, c ≠ .other ∧ .coding c ∈ told

/-- Nothing but its codings may keep a head from being accepted. -/
def Sound (zstd deferred : Bool) (h : Head) : Prop :=
  ∃ first, readRequestLine h.request (.fresh deferred) = .ok first ∧ Agree (h.told zstd) ∧
    (first.minorVersion = 1 → .host ∈ h.told zstd ∨ first.authority ≠ [])

def parse (zstd deferred : Bool) (h : Head) : Except ParseError Request :=
  parseHead zstd h.text (.fresh deferred)

/-- What `finish` makes of a request it accepts. -/
def closing (r : Request) : Request :=
  if r.minorVersion = 0 ∧ r.chunked then { r with keepAlive := false } else r

theorem finish_ok {r r' : Request} : finish r = .ok r' ↔
    (r.minorVersion = 1 → r.hasHost = true ∨ r.authority ≠ []) ∧
      ¬ (r.contentEncoding = .other ∧ ¬ r.encodingDeferred ∧ (r.chunked ∨ r.contentLength > 0)) ∧
      r' = closing r := by
  have hclosing : (if r.minorVersion = 0 ∧ r.chunked then { r with keepAlive := false } else r) =
      closing r := rfl
  have hfields : (closing r).contentEncoding = r.contentEncoding ∧
      (closing r).encodingDeferred = r.encodingDeferred ∧ (closing r).chunked = r.chunked ∧
      (closing r).contentLength = r.contentLength := by
    rw [closing]
    split_ifs <;> exact ⟨rfl, rfl, rfl, rfl⟩
  rw [finish]
  dsimp only
  rw [hclosing, hfields.1, hfields.2.1, hfields.2.2.1, hfields.2.2.2]
  by_cases hhost : r.minorVersion = 1 ∧ ¬ r.hasHost ∧ r.authority = []
  · rw [if_pos hhost]
    refine ⟨fun h => (by cases h), ?_⟩
    rintro ⟨h, -⟩
    rcases h hhost.1 with h | h
    · exact absurd h hhost.2.1
    · exact absurd hhost.2.2 h
  · have hhost' : r.minorVersion = 1 → r.hasHost = true ∨ r.authority ≠ [] := by
      intro hone
      by_contra hnot
      rw [not_or, not_not] at hnot
      exact hhost ⟨hone, hnot⟩
    rw [if_neg hhost]
    split_ifs with hcoding
    · exact ⟨fun h => (by cases h), fun h => absurd hcoding h.2.1⟩
    · exact ⟨fun h => ⟨hhost', hcoding, (Except.ok.inj h).symm⟩, fun h => congrArg _ h.2.2.symm⟩

theorem hasBody_after {first : Request} {told : List Said} (hagree : Agree told) :
    (first.after told).chunked = true ∨ (first.after told).contentLength > 0 ↔ HasBody told := by
  refine or_congr decide_eq_true_iff ?_
  constructor
  · intro hpos
    have hpos' : ((told.filterMap Said.length?).head?).getD 0 > 0 := hpos
    cases hl : (told.filterMap Said.length?).head? with
    | none =>
      rw [hl] at hpos'
      exact absurd hpos' (Nat.lt_irrefl 0)
    | some n =>
      rw [hl] at hpos'
      exact ⟨n, hpos', mem_length.mp (List.mem_of_mem_head? hl)⟩
  · rintro ⟨n, hn, hmem⟩
    show ((told.filterMap Said.length?).head?).getD 0 > 0
    rw [hagree.length_eq hmem]
    exact hn

theorem coding_after {first : Request} {told : List Said} :
    (first.after told).contentEncoding = .other ↔ lastCoding told = some .other := by
  show (lastCoding told).getD .identity = .other ↔ _
  cases lastCoding told with
  | none => exact ⟨fun h => (by cases h), fun h => (by cases h)⟩
  | some c => exact Option.some_inj.symm

/-- What a head is accepted for, and the request then. -/
theorem parse_ok {deferred : Bool} {r : Request} : parse zstd deferred h = .ok r ↔
    ∃ first, readRequestLine h.request (.fresh deferred) = .ok first ∧ Agree (h.told zstd) ∧
      (first.minorVersion = 1 → .host ∈ h.told zstd ∨ first.authority ≠ []) ∧
      ¬ (lastCoding (h.told zstd) = some .other ∧ deferred = false ∧ HasBody (h.told zstd)) ∧
      r = closing (first.after (h.told zstd)) := by
  have hbind : parse zstd deferred h = .ok r ↔
      ∃ read, readLines zstd h.text (.fresh deferred) true = .ok read ∧ finish read = .ok r := by
    rw [parse, parseHead, parseLines]
    cases readLines zstd h.text (.fresh deferred) true with
    | error e => exact ⟨fun h => (by cases h), fun ⟨_, h, _⟩ => (by cases h)⟩
    | ok read =>
      refine ⟨fun h => ⟨read, rfl, h⟩, ?_⟩
      rintro ⟨_, heq, h⟩
      cases heq
      exact h
  rw [hbind]
  constructor
  · rintro ⟨read, hread, hfinish⟩
    obtain ⟨first, hfirst, hagree, rfl⟩ := (readLines_ok (fresh_bare deferred)).mp hread
    obtain ⟨hhost, hcoding, hr⟩ := finish_ok.mp hfinish
    have hdeferred : (first.after (h.told zstd)).encodingDeferred = deferred :=
      (readRequestLine_ok hfirst).2
    rw [hasBody_after hagree, coding_after, hdeferred, Bool.not_eq_true] at hcoding
    refine ⟨first, hfirst, hagree, ?_, hcoding, hr⟩
    intro hone
    exact (hhost hone).imp_left decide_eq_true_iff.mp
  · rintro ⟨first, hfirst, hagree, hhost, hcoding, hr⟩
    refine ⟨_, (readLines_ok (fresh_bare deferred)).mpr ⟨first, hfirst, hagree, rfl⟩, ?_⟩
    have hdeferred : (first.after (h.told zstd)).encodingDeferred = deferred :=
      (readRequestLine_ok hfirst).2
    refine finish_ok.mpr ⟨?_, ?_, hr⟩
    · intro hone
      exact (hhost hone).imp_left decide_eq_true_iff.mpr
    · rw [hasBody_after hagree, coding_after, hdeferred, Bool.not_eq_true]
      exact hcoding

theorem agree_perm {told told' : List Said} (hperm : told.Perm told') (h : Agree told) :
    Agree told' := by
  refine ⟨?_, ?_, ?_, ?_, ?_⟩
  · rw [← hperm.mem_iff]
    exact h.none_refused
  · rw [← hperm.count_eq]
    exact h.hosts
  · rw [← hperm.count_eq]
    exact h.codings
  · intro m n hm hn
    exact h.lengths m n (hperm.mem_iff.mpr hm) (hperm.mem_iff.mpr hn)
  · intro hmem n hn
    exact h.framed_once (hperm.mem_iff.mpr hmem) n (hperm.mem_iff.mpr hn)

theorem hasBody_perm {told told' : List Said} (hperm : told.Perm told') :
    HasBody told ↔ HasBody told' := by
  rw [HasBody, HasBody, hperm.mem_iff]
  simp only [hperm.mem_iff]

/-- An HTTP/1.1 connection is kept unless some line closes it. -/
theorem keepAfter_one (keep : Bool) (value : Bytes) :
    keepAfter 1 keep value = (keep && keepAfter 1 true value) := by
  rw [keepAfter, keepAfter, applyConnection, applyConnection, connectionList, connectionList,
    setKeepAlive, setKeepAlive]
  dsimp only
  split_ifs <;> simp_all

/-- Two requests are framed alike, and for HTTP/1.1 kept alike. -/
def SameFraming : Except ParseError Request → Except ParseError Request → Prop
  | .ok r, .ok r' =>
    r.chunked = r'.chunked ∧ r.contentLength = r'.contentLength ∧ r.hasHost = r'.hasHost ∧
      r.upgrade = r'.upgrade ∧ r.expectContinue = r'.expectContinue ∧
      r.minorVersion = r'.minorVersion ∧ (r.minorVersion = 1 → r.keepAlive = r'.keepAlive)
  | .error _, .error _ => True
  | _, _ => False

theorem sameFraming_after {first : Request} {told told' : List Said} (hperm : told.Perm told')
    (hagree : Agree told) :
    SameFraming (.ok (closing (first.after told))) (.ok (closing (first.after told'))) := by
  have hagree' := agree_perm hperm hagree
  have hchunked : (first.after told).chunked = (first.after told').chunked :=
    decide_eq_decide.mpr hperm.mem_iff
  have hlength : (first.after told).contentLength = (first.after told').contentLength := by
    show ((told.filterMap Said.length?).head?).getD 0 = ((told'.filterMap Said.length?).head?).getD 0
    cases hl : (told.filterMap Said.length?).head? with
    | some n =>
      have hmem := mem_length.mp (List.mem_of_mem_head? hl)
      rw [hagree'.length_eq (hperm.mem_iff.mp hmem)]
    | none =>
      have hnil := List.head?_eq_none_iff.mp hl
      have hperm' := hperm.filterMap Said.length?
      rw [hnil] at hperm'
      rw [hperm'.symm.eq_nil]
      rfl
  have hupgrade : (first.after told).upgrade = (first.after told').upgrade :=
    (hperm.filterMap Said.value?).any_eq
  have hkeep : first.minorVersion = 1 →
      (first.after told).keepAlive = (first.after told').keepAlive := by
    intro hone
    show (told.filterMap Said.value?).foldl (keepAfter first.minorVersion) first.keepAlive =
      (told'.filterMap Said.value?).foldl (keepAfter first.minorVersion) first.keepAlive
    rw [hone]
    have : RightCommutative (keepAfter 1) := ⟨fun keep v w => by
      rw [keepAfter_one (keepAfter 1 keep v), keepAfter_one keep v,
        keepAfter_one (keepAfter 1 keep w), keepAfter_one keep w, Bool.and_right_comm]⟩
    exact (hperm.filterMap Said.value?).foldl_eq first.keepAlive
  have hclosing (r : Request) : (closing r).chunked = r.chunked ∧
      (closing r).contentLength = r.contentLength ∧ (closing r).hasHost = r.hasHost ∧
      (closing r).upgrade = r.upgrade ∧ (closing r).expectContinue = r.expectContinue ∧
      (closing r).minorVersion = r.minorVersion ∧
      (r.minorVersion = 1 → (closing r).keepAlive = r.keepAlive) := by
    rw [closing]
    split_ifs with hzero
    · refine ⟨rfl, rfl, rfl, rfl, rfl, rfl, ?_⟩
      intro hone
      rw [hone] at hzero
      exact absurd hzero.1 (by decide)
    · exact ⟨rfl, rfl, rfl, rfl, rfl, rfl, fun _ => rfl⟩
  obtain ⟨h₁, h₂, h₃, h₄, h₅, h₆, h₇⟩ := hclosing (first.after told)
  obtain ⟨h₁', h₂', h₃', h₄', h₅', h₆', h₇'⟩ := hclosing (first.after told')
  refine ⟨?_, ?_, ?_, ?_, ?_, ?_, ?_⟩
  · rw [h₁, h₁', hchunked]
  · rw [h₂, h₂', hlength]
  · rw [h₃, h₃']
    exact decide_eq_decide.mpr hperm.mem_iff
  · rw [h₄, h₄', hupgrade]
  · rw [h₅, h₅']
    exact decide_eq_decide.mpr hperm.mem_iff
  · rw [h₆, h₆']
    rfl
  · rw [h₆]
    intro hone
    rw [h₇ hone, h₇' hone, hkeep hone]

theorem told_permute {lines : List Bytes} (hperm : lines.Perm h.lines) :
    ((h.permute hperm).told zstd).Perm (h.told zstd) :=
  hperm.map (said zstd)

theorem parse_accepts {deferred : Bool} : (∃ r, parse zstd deferred h = .ok r) ↔
    Sound zstd deferred h ∧
      ¬ (lastCoding (h.told zstd) = some .other ∧ deferred = false ∧ HasBody (h.told zstd)) := by
  constructor
  · rintro ⟨r, hr⟩
    obtain ⟨first, hfirst, hagree, hhost, hcoding, -⟩ := parse_ok.mp hr
    exact ⟨⟨first, hfirst, hagree, hhost⟩, hcoding⟩
  · rintro ⟨⟨first, hfirst, hagree, hhost⟩, hcoding⟩
    exact ⟨_, parse_ok.mpr ⟨first, hfirst, hagree, hhost, hcoding, rfl⟩⟩

theorem sound_permute {deferred : Bool} {lines : List Bytes} (hperm : lines.Perm h.lines)
    (hsound : Sound zstd deferred h) : Sound zstd deferred (h.permute hperm) := by
  obtain ⟨first, hfirst, hagree, hhost⟩ := hsound
  have htold := @told_permute zstd h lines hperm
  refine ⟨first, hfirst, agree_perm htold.symm hagree, fun hone => ?_⟩
  rw [htold.mem_iff]
  exact hhost hone

/-- Where the codings are not mixed, the last of them is refused in any order or in none. -/
theorem lastCoding_other {told told' : List Said} (hperm : told.Perm told') (hmixed : ¬ Mixed told)
    (hlast : lastCoding told = some .other) : lastCoding told' = some .other := by
  have hmem : Said.coding .other ∈ told := mem_coding.mp (List.mem_of_getLast? hlast)
  have hmem' : Encoding.other ∈ told'.filterMap Said.coding? :=
    mem_coding.mpr (hperm.mem_iff.mp hmem)
  cases hlast' : lastCoding told' with
  | none => rw [List.getLast?_eq_none_iff.mp hlast'] at hmem'; cases hmem'
  | some c =>
    have hc : Said.coding c ∈ told := hperm.mem_iff.mpr (mem_coding.mp (List.mem_of_getLast? hlast'))
    by_contra hne
    exact hmixed ⟨hmem, c, fun heq => hne (congrArg some heq), hc⟩

theorem mixed_perm {told told' : List Said} (hperm : told.Perm told') : Mixed told ↔ Mixed told' := by
  rw [Mixed, Mixed, hperm.mem_iff]
  simp only [hperm.mem_iff]

/-- A line that names a coding can be put last. -/
theorem exists_last {c : Encoding} (hc : .coding c ∈ h.told zstd) :
    ∃ (lines : List Bytes) (hperm : lines.Perm h.lines),
      lastCoding ((h.permute hperm).told zstd) = some c := by
  obtain ⟨line, hline, hsaid⟩ := List.mem_map.mp hc
  have hperm : (h.lines.erase line ++ [line]).Perm h.lines :=
    (List.perm_append_singleton line _).trans (List.perm_cons_erase hline).symm
  refine ⟨_, hperm, ?_⟩
  show (((h.lines.erase line ++ [line]).map (said zstd)).filterMap Said.coding?).getLast? = _
  rw [List.map_append, List.filterMap_append, List.map_singleton, hsaid]
  exact List.getLast?_concat

theorem accepts_permute {deferred : Bool} {lines : List Bytes} (hperm : lines.Perm h.lines)
    (hnot : ¬ (Sound zstd deferred h ∧ deferred = false ∧ HasBody (h.told zstd) ∧
      Mixed (h.told zstd))) :
    (∃ r, parse zstd deferred h = .ok r) ↔ ∃ r, parse zstd deferred (h.permute hperm) = .ok r := by
  have htold := @told_permute zstd h lines hperm
  rw [parse_accepts, parse_accepts, hasBody_perm htold]
  constructor
  · rintro ⟨hsound, hread⟩
    refine ⟨sound_permute hperm hsound, ?_⟩
    rintro ⟨hlast, hnow, hbody⟩
    have hmixed : ¬ Mixed ((h.permute hperm).told zstd) := by
      rw [mixed_perm htold]
      exact fun hmixed => hnot ⟨hsound, hnow, hbody, hmixed⟩
    exact hread ⟨lastCoding_other htold hmixed hlast, hnow, hbody⟩
  · rintro ⟨hsound, hread⟩
    have hsound' : Sound zstd deferred h := @sound_permute zstd (h.permute hperm) deferred h.lines
      hperm.symm hsound
    refine ⟨hsound', ?_⟩
    rintro ⟨hlast, hnow, hbody⟩
    exact hread ⟨lastCoding_other htold.symm
      (fun hmixed => hnot ⟨hsound', hnow, hbody, hmixed⟩) hlast, hnow, hbody⟩

/-- The lines of a head can be put in any order, for its framing, unless it would otherwise be
accepted with a body, and a coding that is not read stands beside one that is: then the one that
comes last says whether it is accepted. No head that is accepted is framed in two ways. -/
theorem parseHead_order (zstd deferred : Bool) (h : Head) :
    ((∀ (lines : List Bytes) (hperm : lines.Perm h.lines),
        SameFraming (parse zstd deferred h) (parse zstd deferred (h.permute hperm))) ∧
      ∀ r, parse zstd deferred h = .ok r →
        ¬ (r.chunked = true ∧ (r.hasContentLength = true ∨ 0 < r.contentLength))) ↔
    ¬ (Sound zstd deferred h ∧ deferred = false ∧ HasBody (h.told zstd) ∧
      Mixed (h.told zstd)) := by
  constructor
  · rintro ⟨hsame, -⟩ ⟨hsound, hnow, hbody, hother, c, hc, hread⟩
    -- one order that is refused and one that is accepted
    obtain ⟨lines, hperm, hlast⟩ := exists_last hother
    obtain ⟨lines', hperm', hlast'⟩ := exists_last hread
    have hrefused : ¬ ∃ r, parse zstd deferred (h.permute hperm) = .ok r := by
      rw [parse_accepts]
      exact fun hand => hand.2 ⟨hlast, hnow, (hasBody_perm (told_permute hperm)).mpr hbody⟩
    have haccepted : ∃ r, parse zstd deferred (h.permute hperm') = .ok r := by
      rw [parse_accepts]
      refine ⟨sound_permute hperm' hsound, fun hand => hc ?_⟩
      rw [hlast'] at hand
      exact Option.some_inj.mp hand.1
    obtain ⟨r', hr'⟩ := haccepted
    have h₁ := hsame lines hperm
    have h₂ := hsame lines' hperm'
    rw [hr'] at h₂
    cases hparse : parse zstd deferred h with
    | error e =>
      rw [hparse] at h₂
      exact h₂
    | ok r =>
      rw [hparse] at h₁
      cases hparse' : parse zstd deferred (h.permute hperm) with
      | error e =>
        rw [hparse'] at h₁
        exact h₁
      | ok r₁ => exact hrefused ⟨r₁, hparse'⟩
  · intro hnot
    refine ⟨?_, ?_⟩
    · intro lines hperm
      have htold := @told_permute zstd h lines hperm
      have haccepts := accepts_permute hperm hnot
      cases hparse : parse zstd deferred h with
      | error e =>
        cases hparse' : parse zstd deferred (h.permute hperm) with
        | error e' => trivial
        | ok r' =>
          obtain ⟨r, hr⟩ := haccepts.mpr ⟨r', hparse'⟩
          rw [hparse] at hr
          cases hr
      | ok r =>
        obtain ⟨r', hr'⟩ := haccepts.mp ⟨r, hparse⟩
        obtain ⟨first, hfirst, hagree, -, -, rfl⟩ := parse_ok.mp hparse
        obtain ⟨first', hfirst', -, -, -, rfl⟩ := parse_ok.mp hr'
        rw [hr']
        have hsame : first' = first := Except.ok.inj (hfirst'.symm.trans hfirst)
        rw [hsame]
        exact sameFraming_after htold.symm hagree
    · intro r hr
      obtain ⟨first, -, hagree, -, -, rfl⟩ := parse_ok.mp hr
      have hfields : (closing (first.after (h.told zstd))).chunked =
            (first.after (h.told zstd)).chunked ∧
          (closing (first.after (h.told zstd))).hasContentLength =
            (first.after (h.told zstd)).hasContentLength ∧
          (closing (first.after (h.told zstd))).contentLength =
            (first.after (h.told zstd)).contentLength := by
        rw [closing]
        split_ifs <;> exact ⟨rfl, rfl, rfl⟩
      rw [hfields.1, hfields.2.1, hfields.2.2]
      rintro ⟨hchunked, hlength⟩
      have hnil := no_length (hagree.framed_once (decide_eq_true_iff.mp hchunked))
      have hhead : ((h.told zstd).filterMap Said.length?).head? = none := by
        rw [hnil]
        rfl
      rcases hlength with hhas | hpos
      · have hhas' : ((h.told zstd).filterMap Said.length?).head?.isSome = true := hhas
        rw [hhead] at hhas'
        cases hhas'
      · have hpos' : 0 < (((h.told zstd).filterMap Said.length?).head?).getD 0 := hpos
        rw [hhead] at hpos'
        exact absurd hpos' (Nat.lt_irrefl 0)

/-- A head with these lines. -/
def posted (lines : List Bytes) (ok : ∀ line ∈ lines, lf ∉ line ∧ trimCR line ≠ []) : Head :=
  ⟨ascii "POST / HTTP/1.1\r", lines, [cr], by decide, ok, by decide⟩

def brThenGzip : Head :=
  posted [ascii "Host: a\r", ascii "Content-Length: 1\r", ascii "Content-Encoding: br\r",
    ascii "Content-Encoding: gzip\r"] (by decide)

theorem brThenGzip_swap :
    [ascii "Host: a\r", ascii "Content-Length: 1\r", ascii "Content-Encoding: gzip\r",
      ascii "Content-Encoding: br\r"].Perm brThenGzip.lines := by
  decide

/-- Two lines about the coding, accepted in one order and refused in the other. -/
theorem order_matters :
    ¬ SameFraming (parse false false brThenGzip)
      (parse false false (brThenGzip.permute brThenGzip_swap)) := by
  have haccepted : (parse false false brThenGzip).toOption.isSome = true := by decide
  have hrefused : parse false false (brThenGzip.permute brThenGzip_swap) =
      .error .unsupportedContentEncoding := by decide
  rw [hrefused]
  intro hsame
  cases hparse : parse false false brThenGzip with
  | error e =>
    rw [hparse] at haccepted
    cases haccepted
  | ok r =>
    rw [hparse] at hsame
    exact hsame

/-! ## The codings as one list -/

/-- The value of a line about its field. -/
def fieldValue (field : Field) (raw : Bytes) : Option Bytes :=
  match fieldLine (trimCR raw) with
  | none => none
  | some (name, value) => if fieldOf name = some field then some value else none

/-- The values of the lines about a coding, in order. -/
def codingValues (h : Head) : List Bytes := h.lines.filterMap (fieldValue .contentEncoding)

/-- The values of several lines as the one value they make together. -/
def joined (values : List Bytes) : Bytes := (ascii ", ").intercalate values

/-- The coding that one line with these values would be read as, and none for no line. -/
def joinedCoding (zstd : Bool) (values : List Bytes) : Encoding :=
  if values = [] then .identity else codingOf zstd (joined values)

/-- Every coding that a value lists is the identity. -/
def ListsIdentity (zstd : Bool) (value : Bytes) : Prop :=
  ∀ item ∈ value.splitOn 44, codingOf zstd (Text.trimBlanks item) = .identity

theorem saidOf_coding (field : Field) (value : Bytes) :
    (saidOf zstd field value).coding? =
      if field = .contentEncoding then some (codingOf zstd value) else none := by
  cases field with
  | contentEncoding => rfl
  | connection => rfl
  | host =>
    rw [if_neg (by decide), saidOf]
    split_ifs <;> rfl
  | expect =>
    rw [if_neg (by decide), saidOf]
    split_ifs <;> rfl
  | contentLength =>
    rw [if_neg (by decide), saidOf]
    cases digitsOnly value <;> rfl
  | transferEncoding =>
    rw [if_neg (by decide), saidOf]
    split_ifs <;> rfl

theorem said_coding {raw : Bytes} (hraw : said zstd raw ≠ .refused) :
    (said zstd raw).coding? = (fieldValue .contentEncoding raw).map (codingOf zstd) := by
  rw [said] at hraw ⊢
  rw [fieldValue]
  by_cases hstray : holdsStray false (trimCR raw) = true
  · rw [if_pos hstray] at hraw
    exact absurd rfl hraw
  · rw [if_neg hstray] at hraw ⊢
    cases hfield : fieldLine (trimCR raw) with
    | none =>
      rw [hfield] at hraw
      exact absurd rfl hraw
    | some pair =>
      obtain ⟨name, value⟩ := pair
      dsimp only
      cases fieldOf name with
      | none => rfl
      | some field =>
        dsimp only
        rw [saidOf_coding]
        by_cases hname : field = .contentEncoding
        · rw [if_pos hname, if_pos (congrArg some hname)]
          rfl
        · rw [if_neg hname, if_neg fun heq => hname (Option.some_inj.mp heq)]
          rfl

theorem told_codings (hagree : Agree (h.told zstd)) :
    (h.told zstd).filterMap Said.coding? = h.codingValues.map (codingOf zstd) := by
  rw [told, codingValues, List.filterMap_map, List.map_filterMap]
  refine List.filterMap_congr fun raw hraw => said_coding fun hrefused => ?_
  exact hagree.none_refused (hrefused ▸ List.mem_map_of_mem hraw)

/-- A byte of a text that is the same as another but for case. -/
theorem mem_of_eqlIgnoreCase {value name : Bytes} (heq : eqlIgnoreCase value name = true)
    {ch : UInt8} (hch : ch ∈ value) : Text.toLower ch ∈ name.map Text.toLower := by
  rw [eqlIgnoreCase, beq_iff_eq] at heq
  rw [← heq]
  exact List.mem_map_of_mem hch

/-- A list of more than one is no coding that is read. -/
theorem codingOf_comma {value : Bytes} (hcomma : (44 : UInt8) ∈ value) :
    codingOf zstd value = .other := by
  have hno (name : Bytes) (hname : Text.toLower 44 ∉ name.map Text.toLower) :
      eqlIgnoreCase value name = false :=
    Bool.eq_false_iff.mpr fun heq => hname (mem_of_eqlIgnoreCase heq hcomma)
  rw [codingOf, hno _ (by decide), hno _ (by decide), hno _ (by decide), hno _ (by decide),
    Bool.and_false]
  rfl

theorem comma_mem_joined {values : List Bytes} (hlong : 1 < values.length) :
    (44 : UInt8) ∈ joined values := by
  match values, hlong with
  | v :: w :: rest, _ =>
    rw [joined, List.intercalate_cons_cons]
    exact List.mem_append_left _ (List.mem_append_right _ (by decide))

theorem dropWhile_of_none {p : UInt8 → Bool} {l : Bytes} (hl : ∀ ch ∈ l, p ch = false) :
    l.dropWhile p = l := by
  cases l with
  | nil => rfl
  | cons ch rest => rw [List.dropWhile_cons_of_neg (by rw [hl ch List.mem_cons_self]; decide)]

theorem listsIdentity_of {value : Bytes} (hvalue : codingOf zstd value = .identity) :
    ListsIdentity zstd value := by
  have heq : eqlIgnoreCase value (ascii "identity") = true := by
    by_contra hne
    rw [codingOf, if_neg hne] at hvalue
    split_ifs at hvalue
  have hno {ch : UInt8} (hch : Text.toLower ch ∉ (ascii "identity").map Text.toLower) :
      ch ∉ value := fun hmem => hch (mem_of_eqlIgnoreCase heq hmem)
  have hblank : ∀ ch ∈ value, (ch == 32 || ch == 9) = false := by
    intro ch hmem
    rw [Bool.or_eq_false_iff, beq_eq_false_iff_ne, beq_eq_false_iff_ne]
    refine ⟨?_, ?_⟩
    · rintro rfl
      exact hno (by decide) hmem
    · rintro rfl
      exact hno (by decide) hmem
  have htrim : Text.trimBlanks value = value := by
    rw [Text.trimBlanks, dropWhile_of_none hblank,
      dropWhile_of_none fun ch hmem => hblank ch (List.mem_reverse.mp hmem), List.reverse_reverse]
  intro item hitem
  rw [List.splitOn_eq_singleton (hno (by decide)), List.mem_singleton] at hitem
  rw [hitem, htrim]
  exact hvalue

/-- The coding that is kept is that of the list that the lines about it make together, and the
identity only where all they list is, exactly where there is one such line at most, or the last of
them names no coding that is read. -/
theorem recorded_coding {deferred : Bool} {r : Request}
    (hread : readLines zstd h.text (.fresh deferred) true = .ok r) :
    (r.contentEncoding = joinedCoding zstd h.codingValues ∧
      (r.contentEncoding = .identity → ∀ value ∈ h.codingValues, ListsIdentity zstd value)) ↔
    (h.codingValues.length ≤ 1 ∨
      ∃ value, h.codingValues.getLast? = some value ∧ codingOf zstd value = .other) := by
  obtain ⟨first, -, hagree, rfl⟩ := (readLines_ok (fresh_bare deferred)).mp hread
  have hkept : (first.after (h.told zstd)).contentEncoding =
      ((h.codingValues.getLast?).map (codingOf zstd)).getD .identity := by
    show (lastCoding (h.told zstd)).getD .identity = _
    rw [lastCoding, told_codings hagree, List.getLast?_map]
  rw [hkept]
  by_cases hlong : 1 < h.codingValues.length
  · have hne : h.codingValues ≠ [] := List.ne_nil_of_length_pos (by omega)
    have hother : joinedCoding zstd h.codingValues = .other := by
      rw [joinedCoding, if_neg hne, codingOf_comma (comma_mem_joined hlong)]
    obtain ⟨last, hlast⟩ : ∃ last, h.codingValues.getLast? = some last :=
      ⟨_, List.getLast?_eq_some_getLast hne⟩
    rw [hother, hlast, Option.map_some, Option.getD_some]
    constructor
    · rintro ⟨heq, -⟩
      exact .inr ⟨last, rfl, heq⟩
    · rintro (hshort | ⟨value, hvalue, heq⟩)
      · omega
      · cases hvalue
        refine ⟨heq, fun hidentity => ?_⟩
        rw [heq] at hidentity
        cases hidentity
  · refine iff_of_true ?_ (.inl (by omega))
    rcases hvalues : h.codingValues with _ | ⟨value, _ | ⟨w, rest⟩⟩
    · exact ⟨rfl, fun _ value hvalue => absurd hvalue List.not_mem_nil⟩
    · refine ⟨?_, ?_⟩
      · rw [joinedCoding, if_neg (List.cons_ne_nil _ _), joined, List.intercalate_singleton]
        rfl
      · intro hidentity value' hvalue'
        rw [List.mem_singleton] at hvalue'
        rw [hvalue']
        exact listsIdentity_of hidentity
    · rw [hvalues] at hlong
      exact absurd (by rw [List.length_cons, List.length_cons]; omega) hlong

def gzipThenIdentity : Head :=
  posted [ascii "Host: a\r", ascii "Content-Encoding: gzip\r", ascii "Content-Encoding: identity\r"]
    (by decide)

/-- A gzipped body that is read as it is. -/
theorem coding_forgotten :
    ∃ r, readLines false gzipThenIdentity.text (.fresh false) true = .ok r ∧
      r.contentEncoding = .identity ∧ ¬ ∀ value ∈ gzipThenIdentity.codingValues,
        ListsIdentity false value := by
  have hcoding : (readLines false gzipThenIdentity.text (.fresh false) true).toOption.map
      Request.contentEncoding = some .identity := by decide
  obtain ⟨r, hr, hidentity⟩ := Option.map_eq_some_iff.mp hcoding
  refine ⟨r, toOption_eq_some.mp hr, hidentity, fun hall => ?_⟩
  have hgzip : ListsIdentity false (ascii "gzip") :=
    hall _ (by decide : ascii "gzip" ∈ gzipThenIdentity.codingValues)
  exact absurd (hgzip (ascii "gzip") (by decide)) (by decide)

/-- An identity line and a coding that is not read behind it. -/
theorem recorded_coding_identityThenBr :
    ∃ r, readLines false (posted [ascii "Host: a\r", ascii "Content-Encoding: identity\r",
        ascii "Content-Encoding: br\r"] (by decide)).text (.fresh false) true = .ok r ∧
      r.contentEncoding = joinedCoding false [ascii "identity", ascii "br"] := by
  have hread : (readLines false (posted [ascii "Host: a\r", ascii "Content-Encoding: identity\r",
        ascii "Content-Encoding: br\r"] (by decide)).text (.fresh false) true).toOption.isSome =
      true := by decide
  obtain ⟨r, hr⟩ := Option.isSome_iff_exists.mp hread
  have hok := toOption_eq_some.mp hr
  exact ⟨r, hok, ((recorded_coding hok).mpr (.inr ⟨ascii "br", rfl, rfl⟩)).1⟩

end Nilo.Http1.Head
