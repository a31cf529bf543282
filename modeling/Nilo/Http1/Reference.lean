import Nilo.Http1.Order
import Nilo.Http1.Find

/-!
# The slow obvious way (`refParseHead` in `http/fuzz.zig`)

The harness of the parser reads a head on its own: split on newlines, one carriage return trimmed, each
line looked at by itself, and an authority taken apart from the front where the parser finds the port
from the back. The two are one parser, less what the harness does not look at: a `Content-Encoding` and
an `Expect`.
-/

namespace Nilo.Http1

open Text (Bytes ascii eqlIgnoreCase trimBlanks)

/-! ## The model -/

/-- A byte no line may carry where it is. -/
def refStray (line : Bytes) (tabAllowed : Bool) : Bool :=
  line.any fun ch => if ch = 9 then !tabAllowed else ch < 0x20 || ch == 0x7F

/-- `std.mem.indexOf`. -/
def indexOf (text needle : Bytes) : Option Nat :=
  (List.range (text.length + 1)).find? fun i => Text.startsWith (text.drop i) needle

/-- What is behind the host that an authority starts with. -/
def refHost (text : Bytes) : Option Bytes :=
  match text with
  | 91 :: bracketed =>
    match Text.cut 93 bracketed with
    | (_, none) => none
    | (inside, some rest) =>
      if inside = [] then none
      else if inside.all fun ch => regNameByte ch || ch == 58 then some rest
      else none
  | _ =>
    let host := text.takeWhile (· != 58)
    if host = [] then none
    else if host.all regNameByte then some (text.drop host.length)
    else none

def refAuthority (text : Bytes) (portRequired : Bool) : Except ParseError Unit :=
  match refHost text with
  | none => .error .badRequestLine
  | some [] => if portRequired then .error .badRequestLine else .ok ()
  | some (first :: port) =>
    if first ≠ 58 then .error .badRequestLine
    else if port.all Text.isDigit then .ok ()
    else .error .badRequestLine

/-- What a target that is not origin-form and not an `http` absolute-form may still be. -/
def refOtherForm (r : Request) : Except ParseError Request :=
  if r.target = ascii "*" then
    if r.method = ascii "OPTIONS" then .ok r else .error .badRequestLine
  else if r.method ≠ ascii "CONNECT" then .error .badRequestLine
  else match refAuthority r.target true with
    | .error e => .error e
    | .ok () => .ok r

/-- The authority and the path behind `://`. -/
def refAbsolute (rest : Bytes) (r : Request) : Except ParseError Request :=
  let authority := rest.takeWhile fun ch => !(ch == 47 || ch == 63 || ch == 35)
  if authority = [] then .error .badRequestLine
  else if authority.contains 64 then .error .badRequestLine
  else match refAuthority authority false with
    | .error e => .error e
    | .ok () => match rest.drop authority.length with
      | [] => .ok { r with authority, target := ascii "/" }
      | 47 :: path => .ok { r with authority, target := 47 :: path }
      | _ => .error .badRequestLine

/-- The absolute-form split, from the `://` anywhere in the target. -/
def refSplitTarget (r : Request) : Except ParseError Request :=
  if r.target.head? = some 47 then .ok r
  else match indexOf r.target (ascii "://") with
    | none => refOtherForm r
    | some sep =>
      if !eqlIgnoreCase (r.target.take sep) (ascii "http") &&
          !eqlIgnoreCase (r.target.take sep) (ascii "https") then refOtherForm r
      else refAbsolute (r.target.drop (sep + 3)) r

/-- The method, the target and the version, split at the first two spaces. -/
def refParseRequestLine (line : Bytes) (r : Request) : Except ParseError Request :=
  if refStray line false then .error .badRequestLine
  else if line.count 32 < 2 then .error .badRequestLine
  else
    let method := line.takeWhile (· != 32)
    let behind := line.drop (method.length + 1)
    let target := behind.takeWhile (· != 32)
    let version := behind.drop (target.length + 1)
    let spoken (minorVersion : Fin 2) (keepAlive : Bool) : Except ParseError Request :=
      if !headerNameOk method then .error .badRequestLine
      else refSplitTarget { r with minorVersion, keepAlive, method, target }
    if method = [] ∨ target = [] then .error .badRequestLine
    else if version = ascii "HTTP/1.1" then spoken 1 true
    else if version = ascii "HTTP/1.0" then spoken 0 false
    else if Text.startsWith version (ascii "HTTP/") && version.length == 8 &&
        version[5]?.any Text.isDigit && version[7]?.any Text.isDigit && version[6]? == some 46 then
      .error .unsupportedVersion
    else .error .badRequestLine

/-- What a field says, by its name. -/
def refField (name value : Bytes) (r : Request) : Except ParseError Request :=
  if eqlIgnoreCase name (ascii "host") then
    if r.hasHost then .error .badHeader
    else if value.length > 0 then
      match refAuthority value false with
      | .error _ => .error .badHeader
      | .ok () => .ok { r with hasHost := true }
    else .ok { r with hasHost := true }
  else if eqlIgnoreCase name (ascii "connection") then
    let options := (value.splitOn 44).map trimBlanks
    let r :=
      if options.any (eqlIgnoreCase · (ascii "close")) then { r with keepAlive := false }
      else if options.any (eqlIgnoreCase · (ascii "keep-alive")) && r.minorVersion = 0 then
        { r with keepAlive := true }
      else r
    .ok (if (Text.findIgnoreCase value (ascii "upgrade")).isSome then { r with upgrade := true } else r)
  else if eqlIgnoreCase name (ascii "content-length") then
    if r.chunked then .error .badHeader
    else if value = [] then .error .badHeader
    else if !value.all Text.isDigit then .error .badHeader
    else match Text.parseU64 value with
      | none => .error .badHeader
      | some n =>
        if r.hasContentLength ∧ n ≠ r.contentLength then .error .badHeader
        else .ok { r with contentLength := n, hasContentLength := true }
  else if eqlIgnoreCase name (ascii "transfer-encoding") then
    if r.chunked then .error .badHeader
    else
      let codings := value.splitOn 44
      if !eqlIgnoreCase (trimBlanks (codings.getLast?.getD [])) (ascii "chunked") then .error .badHeader
      else if codings.length > 1 then .error .unsupportedTransferEncoding
      else if r.hasContentLength then .error .badHeader
      else .ok { r with chunked := true }
  else .ok r

def refApplyHeader (line : Bytes) (r : Request) : Except ParseError Request :=
  if refStray line true then .error .badHeader
  else if line.head?.any isBlank then .error .badHeader
  else match line.idxOf? 58 with
    | none => .error .badHeader
    | some colon =>
      if colon = 0 then .error .badHeader
      else if (line)[colon - 1]?.any isBlank then .error .badHeader
      else if !headerNameOk (line.take colon) then .error .badHeader
      else refField (line.take colon) (trimBlanks (line.drop (colon + 1))) r

/-- The one rule about a head rather than about a line in it. -/
def refFinish (r : Request) : Except ParseError Request :=
  if r.minorVersion = 1 ∧ ¬ r.hasHost ∧ r.authority = [] then .error .badHeader
  else .ok (if r.minorVersion = 0 ∧ r.chunked then { r with keepAlive := false } else r)

/-- The loop of `refParseHead`: what is left of the head, from a line on. -/
def refLines (head : Bytes) (firstLine : Bool) (rest : Bytes) (r : Request) :
    Except ParseError Request :=
  if hrest : rest = [] then
    -- a head that is only a request line, and no newline after it
    if firstLine then refParseRequestLine head r >>= refFinish else refFinish r
  else
    let raw := rest.takeWhile (· != lf)
    let line := trimCR raw
    let behind := rest.drop (raw.length + 1)
    if firstLine then refParseRequestLine line r >>= refLines head false behind
    else if line = [] then refFinish r
    else refApplyHeader line r >>= refLines head false behind
termination_by rest.length
decreasing_by
  all_goals
    have := List.length_pos_of_ne_nil hrest
    simp only [List.length_drop]
    omega

def refParseHead (head : Bytes) (r : Request) : Except ParseError Request := refLines head true head r

/-! ## An authority -/

theorem regNameByte_ne {ch : UInt8} (h : regNameByte ch = true) : ch ≠ 58 ∧ ch ≠ 91 ∧ ch ≠ 93 := by
  revert ch
  exact fun {ch} => Text.forall_byte
    (p := fun ch => regNameByte ch = true → ch ≠ 58 ∧ ch ≠ 91 ∧ ch ≠ 93) (by decide) ch

theorem isDigit_ne {ch : UInt8} (h : Text.isDigit ch = true) : ch ≠ 58 ∧ ch ≠ 93 := by
  revert ch
  exact fun {ch} => Text.forall_byte
    (p := fun ch => Text.isDigit ch = true → ch ≠ 58 ∧ ch ≠ 93) (by decide) ch

/-- A byte inside the brackets of an IP-literal. -/
def literalByte (ch : UInt8) : Bool := regNameByte ch || ch == 58

theorem literalByte_ne {ch : UInt8} (h : literalByte ch = true) : ch ≠ 93 := by
  rcases Bool.or_eq_true _ _ ▸ h with hname | hcolon
  · exact (regNameByte_ne hname).2.2
  · rw [beq_iff_eq.mp hcolon]
    decide

/-- A host is something in brackets, or a name. -/
theorem hostOk_iff {host : Bytes} : hostOk host = true ↔
    (∃ inside, host = 91 :: (inside ++ [93]) ∧ inside ≠ [] ∧ inside.all literalByte = true) ∨
      host ≠ [] ∧ host.all regNameByte = true := by
  cases host with
  | nil =>
    refine iff_of_false Bool.false_ne_true ?_
    rintro (⟨inside, heq, -⟩ | ⟨hne, -⟩)
    · cases heq
    · exact hne rfl
  | cons first rest =>
    rw [hostOk]
    by_cases hfirst : first = 91
    · subst hfirst
      have hno : ¬ ((91 :: rest : Bytes) ≠ [] ∧ (91 :: rest : Bytes).all regNameByte = true) := by
        rintro ⟨-, hall⟩
        exact (regNameByte_ne (List.all_eq_true.mp hall 91 List.mem_cons_self)).2.1 rfl
      rw [if_pos rfl, or_iff_left hno]
      constructor
      · intro h
        split_ifs at h with hshort
        rw [Bool.or_eq_true, decide_eq_true_eq, decide_eq_true_eq, not_or, not_not] at hshort
        obtain ⟨hlength, hlast⟩ := hshort
        have hne : rest ≠ [] := by
          rintro rfl
          exact hlength (by decide)
        rw [List.getLast?_cons_of_ne_nil hne, List.getLast?_eq_some_getLast hne, Option.some_inj] at hlast
        have hsplit : rest = rest.dropLast ++ [93] := by
          conv_lhs => rw [← List.dropLast_append_getLast hne, hlast]
        refine ⟨rest.dropLast, congrArg _ hsplit, ?_, h⟩
        intro hnil
        rw [hsplit, hnil] at hlength
        exact hlength (by decide)
      · rintro ⟨inside, heq, hne, hall⟩
        obtain rfl := (List.cons.inj heq).2
        have hpos := List.length_pos_of_ne_nil hne
        have hlong : ¬ (91 :: (inside ++ [93]) : Bytes).length < 3 := by
          rw [List.length_cons, List.length_append, List.length_singleton]
          omega
        have hlast : (91 :: (inside ++ [93]) : Bytes).getLast? = some 93 := by
          rw [← List.cons_append]
          exact List.getLast?_concat
        rw [if_neg, List.dropLast_concat]
        · exact hall
        · rw [Bool.or_eq_true, decide_eq_true_eq, decide_eq_true_eq, not_or, not_not]
          exact ⟨hlong, hlast⟩
    · have hno : ¬ ∃ inside, (first :: rest : Bytes) = 91 :: (inside ++ [93]) ∧ inside ≠ [] ∧
          inside.all literalByte = true := by
        rintro ⟨inside, heq, -⟩
        exact hfirst (List.cons.inj heq).1
      rw [if_neg hfirst, or_iff_right hno]
      exact ⟨fun h => ⟨List.cons_ne_nil _ _, h⟩, And.right⟩

/-- What stands behind the host of an authority: nothing, or a port. -/
def PortOk (portRequired : Bool) (rest : Bytes) : Prop :=
  rest = [] ∧ portRequired = false ∨ ∃ port, rest = 58 :: port ∧ port.all Text.isDigit = true

theorem refHost_some {text rest : Bytes} (h : refHost text = some rest) :
    ∃ host, text = host ++ rest ∧ hostOk host = true := by
  rw [refHost.eq_def] at h
  split at h
  · next bracketed =>
    by_cases hclose : (93 : UInt8) ∈ bracketed
    · obtain ⟨inside, behind, rfl, hinside⟩ := List.eq_append_cons_of_mem hclose
      rw [Text.cut_append hinside] at h
      dsimp only at h
      split_ifs at h with hnil hall
      cases h
      refine ⟨91 :: (inside ++ [93]), ?_, hostOk_iff.mpr (.inl ⟨inside, rfl, hnil, hall⟩)⟩
      rw [List.cons_append, List.append_assoc, List.singleton_append]
    · rw [Text.cut_none hclose] at h
      cases h
  · dsimp only at h
    split_ifs at h with hnil hall
    cases h
    refine ⟨text.takeWhile (· != 58), ?_, hostOk_iff.mpr (.inr ⟨hnil, hall⟩)⟩
    conv_lhs => rw [← List.take_append_drop (text.takeWhile (· != 58)).length text]
    rw [← List.prefix_iff_eq_take.mp (List.takeWhile_prefix _)]

theorem refHost_of {host rest : Bytes} (hhost : hostOk host = true)
    (hrest : rest = [] ∨ ∃ port, rest = 58 :: port) : refHost (host ++ rest) = some rest := by
  rcases hostOk_iff.mp hhost with ⟨inside, rfl, hne, hall⟩ | ⟨hne, hall⟩
  · have hclose : (93 : UInt8) ∉ inside := fun hmem => literalByte_ne (List.all_eq_true.mp hall _ hmem) rfl
    have hsplit : (91 :: (inside ++ [93]) ++ rest : Bytes) = 91 :: (inside ++ 93 :: rest) := by
      rw [List.cons_append, List.append_assoc, List.singleton_append]
    rw [hsplit, refHost, Text.cut_append hclose]
    exact (if_neg hne).trans (if_pos hall)
  · have hname : host.takeWhile (· != 58) = host := by
      rw [List.takeWhile_eq_self_iff]
      exact fun ch hch => bne_iff_ne.mpr (regNameByte_ne (List.all_eq_true.mp hall ch hch)).1
    have htake : (host ++ rest).takeWhile (· != 58) = host := by
      rw [List.takeWhile_append, hname, if_pos rfl]
      rcases hrest with rfl | ⟨port, rfl⟩
      · exact List.append_nil host
      · exact List.append_nil host
    cases host with
    | nil => exact absurd rfl hne
    | cons first more =>
      have hfirst : first ≠ 91 := (regNameByte_ne (List.all_eq_true.mp hall first List.mem_cons_self)).2.1
      rw [refHost.eq_def]
      split
      · next bracketed heq => exact absurd (List.cons.inj heq).1 hfirst
      · rw [htake, if_neg hne, if_pos hall, List.drop_left]

theorem refAuthority_iff {text : Bytes} {portRequired : Bool} :
    refAuthority text portRequired = .ok () ↔
      ∃ host rest, text = host ++ rest ∧ hostOk host = true ∧ PortOk portRequired rest := by
  rw [refAuthority]
  constructor
  · intro h
    cases hhost : refHost text with
    | none =>
      rw [hhost] at h
      cases h
    | some rest =>
      obtain ⟨host, rfl, hok⟩ := refHost_some hhost
      rw [hhost] at h
      refine ⟨host, rest, rfl, hok, ?_⟩
      cases rest with
      | nil =>
        cases portRequired with
        | false => exact .inl ⟨rfl, rfl⟩
        | true => cases h
      | cons first port =>
        dsimp only at h
        split_ifs at h with hfirst hall
        exact .inr ⟨port, congrArg (· :: port) (not_not.mp hfirst), hall⟩
  · rintro ⟨host, rest, rfl, hok, ⟨rfl, rfl⟩ | ⟨port, rfl, hall⟩⟩
    · rw [refHost_of hok (.inl rfl)]
      rfl
    · rw [refHost_of hok (.inr ⟨port, rfl⟩)]
      exact (if_neg (not_not.mpr rfl)).trans (if_pos hall)

theorem lastIndexOf_append {ch : UInt8} {front rest : Bytes} (h : ch ∉ rest) :
    Text.lastIndexOf ch (front ++ rest) = Text.lastIndexOf ch front := by
  have hnone : ∀ {rest : Bytes}, ch ∉ rest → Text.lastIndexOf ch rest = none := by
    intro rest
    induction rest with
    | nil => exact fun _ => rfl
    | cons b rest ih =>
      intro hmem
      rw [List.mem_cons, not_or] at hmem
      rw [Text.lastIndexOf, ih hmem.2]
      exact if_neg (Ne.symm hmem.1)
  induction front with
  | nil => exact hnone h
  | cons b front ih => rw [List.cons_append, Text.lastIndexOf, Text.lastIndexOf, ih]

theorem lastIndexOf_cons {ch : UInt8} {front rest : Bytes} (h : ch ∉ rest) :
    Text.lastIndexOf ch (front ++ ch :: rest) = some front.length := by
  induction front with
  | nil =>
    have hnone : Text.lastIndexOf ch ([] ++ rest) = none := lastIndexOf_append h
    rw [List.nil_append] at hnone
    rw [List.nil_append, Text.lastIndexOf, hnone]
    exact if_pos rfl
  | cons b front ih => rw [List.cons_append, Text.lastIndexOf, ih, List.length_cons]

theorem lastIndexOf_lt {ch : UInt8} {text : Bytes} {i : Nat} (h : Text.lastIndexOf ch text = some i) :
    i < text.length := by
  have heq := congrArg List.length (Text.lastIndexOf_some h).1
  rw [List.length_append, List.length_take, List.length_cons] at heq
  omega

/-- The parser finds the same host and port from the back. -/
theorem authorityOk_iff {text : Bytes} {portRequired : Bool} :
    authorityOk text portRequired = true ↔
      ∃ host rest, text = host ++ rest ∧ hostOk host = true ∧ PortOk portRequired rest := by
  rw [authorityOk]
  constructor
  · intro h
    have hwhole (hw : (!portRequired && hostOk text) = true) :
        ∃ host rest, text = host ++ rest ∧ hostOk host = true ∧ PortOk portRequired rest := by
      obtain ⟨hport, hhost⟩ := (Bool.and_eq_true _ _).mp hw
      exact ⟨text, [], (List.append_nil text).symm, hhost, .inl ⟨rfl, (Bool.not_eq_true' _).mp hport⟩⟩
    cases hlast : Text.lastIndexOf 58 text with
    | none =>
      rw [hlast] at h
      exact hwhole h
    | some last =>
      rw [hlast] at h
      dsimp only at h
      split_ifs at h with hbehind
      · obtain ⟨hport, hhost⟩ := (Bool.and_eq_true _ _).mp h
        exact ⟨text.take last, 58 :: text.drop (last + 1), (Text.lastIndexOf_some hlast).1, hhost,
          .inr ⟨_, rfl, hport⟩⟩
      · exact hwhole h
  · rintro ⟨host, rest, rfl, hhost, ⟨rfl, rfl⟩ | ⟨port, rfl, hport⟩⟩
    · rw [List.append_nil]
      cases hlast : Text.lastIndexOf 58 host with
      | none => exact hhost
      | some last =>
        have hcolon : (58 : UInt8) ∈ host := by
          rw [(Text.lastIndexOf_some hlast).1]
          exact List.mem_append_right _ List.mem_cons_self
        rcases hostOk_iff.mp hhost with ⟨inside, rfl, -, -⟩ | ⟨-, hall⟩
        · -- the colon is inside the brackets
          have hclose : Text.lastIndexOf 93 (91 :: (inside ++ [93])) = some (inside.length + 1) := by
            rw [← List.cons_append]
            exact lastIndexOf_cons List.not_mem_nil
          have hlt := lastIndexOf_lt hlast
          rw [List.length_cons, List.length_append, List.length_singleton] at hlt
          dsimp only
          rw [hclose, if_neg (by rw [Option.getD_some]; omega)]
          exact hhost
        · exact absurd rfl (regNameByte_ne (List.all_eq_true.mp hall _ hcolon)).1
    · have hdigit : ∀ ch ∈ port, ch ≠ 58 ∧ ch ≠ 93 :=
        fun ch hch => isDigit_ne (List.all_eq_true.mp hport ch hch)
      have hcolon : (58 : UInt8) ∉ port := fun hmem => (hdigit _ hmem).1 rfl
      have hclose : (93 : UInt8) ∉ 58 :: port := by
        rw [List.mem_cons, not_or]
        exact ⟨by decide, fun hmem => (hdigit _ hmem).2 rfl⟩
      have hpos : 0 < host.length := by
        cases host with
        | nil => cases hhost
        | cons first more => exact Nat.succ_pos _
      have hbehind : (Text.lastIndexOf 93 (host ++ 58 :: port)).getD 0 < host.length := by
        rw [lastIndexOf_append hclose]
        cases hlast : Text.lastIndexOf 93 host with
        | none => exact hpos
        | some last => exact lastIndexOf_lt hlast
      have hdrop : (host ++ 58 :: port).drop (host.length + 1) = port := by
        rw [← List.drop_drop, List.drop_left]
        rfl
      rw [lastIndexOf_cons hcolon]
      dsimp only
      rw [if_pos hbehind, hdrop, List.take_left, hport, hhost]
      rfl

theorem refAuthority_cases (text : Bytes) (portRequired : Bool) :
    refAuthority text portRequired = .ok () ∨
      refAuthority text portRequired = .error .badRequestLine := by
  rw [refAuthority]
  rcases refHost text with _ | _ | ⟨first, port⟩
  · exact .inr rfl
  · dsimp only
    split_ifs
    · exact .inr rfl
    · exact .inl rfl
  · dsimp only
    split_ifs
    · exact .inr rfl
    · exact .inl rfl
    · exact .inr rfl

theorem refAuthority_eq (text : Bytes) (portRequired : Bool) : refAuthority text portRequired =
    if authorityOk text portRequired then .ok () else .error .badRequestLine := by
  have hiff : refAuthority text portRequired = .ok () ↔ authorityOk text portRequired = true :=
    refAuthority_iff.trans authorityOk_iff.symm
  split_ifs with hok
  · exact hiff.mpr hok
  · exact (refAuthority_cases text portRequired).resolve_left fun h => hok (hiff.mp h)

/-! ## A target -/

theorem startsWith_iff {text front : Bytes} :
    Text.startsWith text front = true ↔ ∃ rest, text = front ++ rest := by
  rw [Text.startsWith, List.isPrefixOf_iff_prefix]
  exact ⟨fun ⟨rest, h⟩ => ⟨rest, h.symm⟩, fun ⟨rest, h⟩ => ⟨rest, h.symm⟩⟩

theorem indexOf_some {text needle : Bytes} {i : Nat} : indexOf text needle = some i ↔
    Text.startsWith (text.drop i) needle = true ∧ i ≤ text.length ∧
      ∀ j < i, Text.startsWith (text.drop j) needle = false := by
  rw [indexOf, List.find?_range_eq_some, List.mem_range]
  refine and_congr_right fun _ => and_congr Nat.lt_succ_iff ?_
  exact forall_congr' fun j => forall_congr' fun _ => by rw [Bool.not_eq_true']

theorem toLower_mark (ch : UInt8) : (Text.toLower ch = 58 → ch = 58) ∧ (Text.toLower ch = 47 → ch = 47) :=
  Text.forall_byte (p := fun ch => (Text.toLower ch = 58 → ch = 58) ∧ (Text.toLower ch = 47 → ch = 47))
    (by decide) ch

theorem map_toLower_mark {text : Bytes} (h : text.map Text.toLower = ascii "://") : text = ascii "://" := by
  have hlength := congrArg List.length h
  rw [List.length_map] at hlength
  obtain ⟨a, b, c, rfl⟩ := List.length_eq_three.mp (hlength.trans (by decide))
  obtain ⟨ha, h⟩ := List.cons.inj h
  obtain ⟨hb, h⟩ := List.cons.inj h
  obtain ⟨hc, -⟩ := List.cons.inj h
  rw [(toLower_mark a).1 ha, (toLower_mark b).2 hb, (toLower_mark c).2 hc]
  rfl

/-- A target that opens with a scheme is one whose first `://` is behind it. -/
theorem scheme_iff {target scheme : Bytes} (hscheme : (58 : UInt8) ∉ scheme.map Text.toLower) :
    Text.startsWithIgnoreCase target (scheme ++ ascii "://") = true ↔
      eqlIgnoreCase (target.take scheme.length) scheme = true ∧
        indexOf target (ascii "://") = some scheme.length := by
  rw [Text.startsWithIgnoreCase, Bool.and_eq_true, decide_eq_true_eq, List.length_append, List.take_add,
    eqlIgnoreCase, eqlIgnoreCase, beq_iff_eq, beq_iff_eq, List.map_append, List.map_append, indexOf_some]
  constructor
  · rintro ⟨hlength, heq⟩
    have hfront : ((target.take scheme.length).map Text.toLower).length =
        (scheme.map Text.toLower).length := by
      rw [List.length_map, List.length_map, List.length_take]
      omega
    obtain ⟨hname, hmark⟩ := List.append_inj heq hfront
    refine ⟨hname, ?_, by omega, ?_⟩
    · have htake := map_toLower_mark (hmark.trans (by decide))
      refine startsWith_iff.mpr ⟨(target.drop scheme.length).drop (ascii "://").length, ?_⟩
      conv_lhs => rw [← List.take_append_drop (ascii "://").length (target.drop scheme.length)]
      rw [htake]
    · intro j hj
      refine Bool.eq_false_iff.mpr fun hstart => hscheme ?_
      obtain ⟨rest, hrest⟩ := startsWith_iff.mp hstart
      have hget : target[j]? = some 58 := by
        rw [← List.head?_drop, hrest]
        rfl
      have hmem : (58 : UInt8) ∈ target.take scheme.length := by
        rw [List.mem_iff_getElem?]
        exact ⟨j, (List.getElem?_take_of_lt hj).trans hget⟩
      rw [← hname]
      exact List.mem_map_of_mem hmem
  · rintro ⟨hname, hstart, -, -⟩
    obtain ⟨rest, hrest⟩ := startsWith_iff.mp hstart
    have hlength := congrArg List.length hrest
    rw [List.length_drop, List.length_append] at hlength
    have hmark : 0 < (ascii "://").length := by decide
    refine ⟨by omega, ?_⟩
    rw [hname, hrest, List.take_left]

theorem refOtherForm_eq (r : Request) : refOtherForm r =
    if r.target = ascii "*" then
      if r.method = ascii "OPTIONS" then .ok r else .error .badRequestLine
    else if r.method = ascii "CONNECT" then
      if authorityOk r.target true then .ok r else .error .badRequestLine
    else .error .badRequestLine := by
  rw [refOtherForm, refAuthority_eq, ite_not]
  split_ifs <;> rfl

theorem slash_between {target : Bytes} {n : Nat} (h : Text.startsWith (target.drop n) (ascii "://") = true) :
    Text.between target (n + 2) (n + 3) = ascii "/" := by
  obtain ⟨rest, hrest⟩ := startsWith_iff.mp h
  rw [Text.between, ← List.drop_drop, hrest, Nat.add_sub_add_left]
  rfl

/-- The authority and the path of what is behind a scheme. -/
def absoluteParts (rest : Bytes) : Except ParseError (Bytes × Bytes) :=
  let authority := rest.takeWhile fun ch => !(ch == 47 || ch == 63 || ch == 35)
  if authority = [] then .error .badRequestLine
  else if authority.contains 64 then .error .badRequestLine
  else if !authorityOk authority false then .error .badRequestLine
  else match rest.drop authority.length with
    | [] => .ok (authority, ascii "/")
    | 47 :: path => .ok (authority, 47 :: path)
    | _ => .error .badRequestLine

theorem refAbsolute_eq (rest : Bytes) (r : Request) : refAbsolute rest r =
    (absoluteParts rest).map fun parts => { r with authority := parts.1, target := parts.2 } := by
  rw [refAbsolute, absoluteParts]
  generalize rest.takeWhile (fun ch => !(ch == 47 || ch == 63 || ch == 35)) = authority
  rw [refAuthority_eq]
  by_cases hnil : authority = []
  · rw [if_pos hnil, if_pos hnil]
    rfl
  · rw [if_neg hnil, if_neg hnil]
    by_cases hat : authority.contains 64 = true
    · rw [if_pos hat, if_pos hat]
      rfl
    · rw [if_neg hat, if_neg hat]
      cases authorityOk authority false with
      | false => rfl
      | true =>
        generalize rest.drop authority.length = path
        rw [if_pos rfl, Bool.not_true, if_neg Bool.false_ne_true]
        dsimp only
        split <;> rfl

/-- The parser cuts the authority out of an absolute-form at the same places. -/
theorem absoluteForm_eq {target : Bytes} {n : Nat}
    (hscheme : n = 4 ∧ Text.startsWithIgnoreCase target (ascii "http://") = true ∨
      n = 5 ∧ Text.startsWithIgnoreCase target (ascii "http://") = false ∧
        Text.startsWithIgnoreCase target (ascii "https://") = true)
    (hslash : Text.between target (n + 2) (n + 3) = ascii "/") :
    absoluteForm target = (absoluteParts (target.drop (n + 3))).map some := by
  have hcut : (fun ch : UInt8 => decide (ch ≠ 47) && decide (ch ≠ 63) && decide (ch ≠ 35)) =
      fun ch => !(ch == 47 || ch == 63 || ch == 35) :=
    funext (Text.forall_byte (by decide))
  rw [absoluteForm, absoluteParts, hcut]
  rcases hscheme with ⟨rfl, hhttp⟩ | ⟨rfl, hno, hhttps⟩
  · rw [if_pos hhttp]
    simp only [Nat.reduceAdd] at hslash ⊢
    rw [hslash]
    split_ifs
    · rfl
    · rfl
    · rfl
    · generalize List.drop _ (List.drop _ target) = path
      split
      · rfl
      · rfl
      · next hnil hpath =>
        first
        | rfl
        | split
          · exact (hnil rfl).elim
          · exact (hpath _ rfl).elim
          · rfl
  · rw [if_neg (Bool.eq_false_iff.mp hno), if_pos hhttps]
    simp only [Nat.reduceAdd] at hslash ⊢
    rw [hslash]
    split_ifs
    · rfl
    · rfl
    · rfl
    · generalize List.drop _ (List.drop _ target) = path
      split
      · rfl
      · rfl
      · next hnil hpath =>
        first
        | rfl
        | split
          · exact (hnil rfl).elim
          · exact (hpath _ rfl).elim
          · rfl

theorem refSplitTarget_eq (r : Request) : refSplitTarget r = applyForm r := by
  have hhttp := @scheme_iff r.target (ascii "http") (by decide)
  have hhttps := @scheme_iff r.target (ascii "https") (by decide)
  rw [show ascii "http" ++ ascii "://" = ascii "http://" from rfl] at hhttp
  rw [show ascii "https" ++ ascii "://" = ascii "https://" from rfl] at hhttps
  rw [refSplitTarget, applyForm]
  by_cases hslash : r.target.head? = some 47
  · rw [if_pos hslash, if_pos hslash]
  · rw [if_neg hslash, if_neg hslash]
    by_cases hone : Text.startsWithIgnoreCase r.target (ascii "http://") = true
    · obtain ⟨hname, hindex⟩ := hhttp.mp hone
      have hname : eqlIgnoreCase (r.target.take 4) (ascii "http") = true := hname
      have hindex : indexOf r.target (ascii "://") = some 4 := hindex
      rw [hindex, absoluteForm_eq (.inl ⟨rfl, hone⟩) (slash_between (indexOf_some.mp hindex).1)]
      dsimp only
      rw [hname, Bool.not_true, Bool.false_and, if_neg Bool.false_ne_true, refAbsolute_eq]
      cases absoluteParts (r.target.drop (4 + 3)) <;> rfl
    · by_cases htwo : Text.startsWithIgnoreCase r.target (ascii "https://") = true
      · obtain ⟨hname, hindex⟩ := hhttps.mp htwo
        have hname : eqlIgnoreCase (r.target.take 5) (ascii "https") = true := hname
        have hindex : indexOf r.target (ascii "://") = some 5 := hindex
        rw [hindex, absoluteForm_eq (.inr ⟨rfl, Bool.eq_false_iff.mpr hone, htwo⟩)
          (slash_between (indexOf_some.mp hindex).1)]
        dsimp only
        rw [hname, Bool.not_true, Bool.and_false, if_neg Bool.false_ne_true, refAbsolute_eq]
        cases absoluteParts (r.target.drop (5 + 3)) <;> rfl
      · have hnone : absoluteForm r.target = .ok none := by
          rw [absoluteForm]
          exact (if_neg hone).trans (if_neg htwo)
        rw [hnone, ← refOtherForm_eq]
        cases hindex : indexOf r.target (ascii "://") with
        | none => rfl
        | some sep =>
          -- the scheme in front of it is neither of the two
          have hlength (scheme : Bytes) (h : eqlIgnoreCase (r.target.take sep) scheme = true) :
              sep = scheme.length := by
            have hle := (indexOf_some.mp hindex).2.1
            have heq := congrArg List.length (beq_iff_eq.mp h)
            rw [List.length_map, List.length_map, List.length_take] at heq
            omega
          have hno : eqlIgnoreCase (r.target.take sep) (ascii "http") = false := by
            refine Bool.eq_false_iff.mpr fun h => hone (hhttp.mpr ?_)
            obtain rfl := hlength _ h
            exact ⟨h, hindex⟩
          have hno' : eqlIgnoreCase (r.target.take sep) (ascii "https") = false := by
            refine Bool.eq_false_iff.mpr fun h => htwo (hhttps.mpr ?_)
            obtain rfl := hlength _ h
            exact ⟨h, hindex⟩
          dsimp only
          rw [hno, hno']
          rfl

/-! ## A request line -/

theorem refStray_eq (line : Bytes) (tabAllowed : Bool) :
    refStray line tabAllowed = holdsStray (!tabAllowed) line := by
  have hbyte (ch : UInt8) : (if ch = 9 then !tabAllowed else decide (ch < 0x20) || ch == 0x7F) =
      (isControl ch && (!tabAllowed || ch != 9)) := by
    cases tabAllowed with
    | false =>
      exact Text.forall_byte (p := fun ch => (if ch = 9 then !false else decide (ch < 0x20) || ch == 0x7F) =
        (isControl ch && (!false || ch != 9))) (by decide) ch
    | true =>
      exact Text.forall_byte (p := fun ch => (if ch = 9 then !true else decide (ch < 0x20) || ch == 0x7F) =
        (isControl ch && (!true || ch != 9))) (by decide) ch
  rw [refStray, holdsStray]
  exact congrArg line.any (funext hbyte)

theorem versionShaped_eq (version : Bytes) : versionShaped version =
    (Text.startsWith version (ascii "HTTP/") && version.length == 8 && version[5]?.any Text.isDigit &&
      version[7]?.any Text.isDigit && version[6]? == some 46) := by
  have hascii : ascii "HTTP/" = [72, 84, 84, 80, 47] := by decide
  by_cases hlength : version.length = 8
  · obtain ⟨a, b, c, d, e, f, g, h, rfl⟩ : ∃ a b c d e f g h, version = [a, b, c, d, e, f, g, h] := by
      rcases version with _ | ⟨a, _ | ⟨b, _ | ⟨c, _ | ⟨d, _ | ⟨e, _ | ⟨f, _ | ⟨g, _ | ⟨h, _ | ⟨i, rest⟩⟩⟩⟩⟩⟩⟩⟩⟩ <;>
        simp_all
    rw [versionShaped, hascii, Text.startsWith]
    simp only [List.isPrefixOf, List.cons.injEq, and_true, Bool.decide_and, List.length_cons, List.length_nil,
      List.getElem?_cons_succ, List.getElem?_cons_zero, Option.any_some]
    grind
  · have hno : (version.length == 8) = false := beq_eq_false_iff_ne.mpr hlength
    rw [hno, Bool.and_false, Bool.false_and, Bool.false_and, Bool.false_and]
    rw [versionShaped.eq_def]
    split
    · exact absurd rfl hlength
    · rfl

/-- A text up to a byte that it holds. -/
theorem cut_eq {ch : UInt8} {text : Bytes} (h : ch ∈ text) :
    Text.cut ch text = (text.takeWhile (· != ch), some (text.drop ((text.takeWhile (· != ch)).length + 1))) ∧
      text.count ch = (text.drop ((text.takeWhile (· != ch)).length + 1)).count ch + 1 := by
  obtain ⟨front, rest, rfl, hfront⟩ := List.eq_append_cons_of_mem h
  have htake : (front ++ ch :: rest).takeWhile (· != ch) = front := by
    have hname : front.takeWhile (· != ch) = front := by
      rw [List.takeWhile_eq_self_iff]
      intro b hb
      refine bne_iff_ne.mpr ?_
      rintro rfl
      exact hfront hb
    rw [List.takeWhile_append, hname, if_pos rfl, List.takeWhile_cons_of_neg (by rw [bne_self_eq_false]; decide),
      List.append_nil]
  have hdrop : (front ++ ch :: rest).drop (front.length + 1) = rest := by
    rw [← List.drop_drop, List.drop_left]
    rfl
  rw [htake, hdrop, Text.cut_append hfront, List.count_append, List.count_eq_zero.mpr hfront,
    List.count_cons_self, Nat.zero_add]
  exact ⟨rfl, rfl⟩

/-- A request line is split at its first two spaces either way. -/
theorem refParseRequestLine_eq (line : Bytes) (r : Request) : refParseRequestLine line r =
    if holdsStray true line then .error .badRequestLine else parseRequestLine line r := by
  rw [refParseRequestLine, refStray_eq, Bool.not_false, parseRequestLine]
  by_cases hstray : holdsStray true line = true
  · rw [if_pos hstray, if_pos hstray]
  · rw [if_neg hstray, if_neg hstray]
    by_cases hspace : (32 : UInt8) ∈ line
    · obtain ⟨hcut, hcount⟩ := cut_eq hspace
      have hmethod : (line.takeWhile (· != 32)).length ≤ line.length :=
        (List.takeWhile_prefix _).length_le
      rw [hcut]
      dsimp only
      generalize line.drop ((line.takeWhile (· != 32)).length + 1) = behind at hcount ⊢
      by_cases hagain : (32 : UInt8) ∈ behind
      · obtain ⟨hcut', hcount'⟩ := cut_eq hagain
        rw [hcut', if_neg (by omega)]
        dsimp only
        have htoken : tokenAt line 0 (line.takeWhile (· != 32)).length =
            headerNameOk (line.takeWhile (· != 32)) := by
          rw [tokenAt_eq hmethod, Text.between, List.drop_zero, Nat.sub_zero,
            ← List.prefix_iff_eq_take.mp (List.takeWhile_prefix _)]
        generalize behind.drop ((behind.takeWhile (· != 32)).length + 1) = version
        rw [htoken, versionOf, versionShaped_eq]
        split_ifs <;> first | rfl | exact refSplitTarget_eq _
      · rw [Text.cut_none hagain, if_pos (by rw [hcount, List.count_eq_zero.mpr hagain]; decide)]
    · rw [Text.cut_none hspace, if_pos (by rw [List.count_eq_zero.mpr hspace]; decide)]

/-! ## A field -/

/-- What the harness knows of a request: what frames it. -/
def Request.framed (r : Request) : Request :=
  { r with contentEncoding := .identity, encodingDeferred := false, expectContinue := false }

/-- The name of a field, in lower case. -/
def Field.spelled : Field → Bytes
  | .host => ascii "host"
  | .expect => ascii "expect"
  | .connection => ascii "connection"
  | .contentLength => ascii "content-length"
  | .contentEncoding => ascii "content-encoding"
  | .transferEncoding => ascii "transfer-encoding"

theorem length_of_eqlIgnoreCase {a b : Bytes} (h : eqlIgnoreCase a b = true) : a.length = b.length := by
  have hlength := congrArg List.length (beq_iff_eq.mp h)
  rwa [List.length_map, List.length_map] at hlength

theorem fieldOf_iff {name : Bytes} {field : Field} :
    fieldOf name = some field ↔ eqlIgnoreCase name field.spelled = true := by
  constructor
  · intro h
    unfold fieldOf at h
    dsimp only at h
    split at h
    all_goals first
      | cases h
      | split_ifs at h with heq
        cases h
        exact heq
  · intro h
    have hlength := length_of_eqlIgnoreCase h
    unfold fieldOf
    cases field with
    | host =>
      have h4 : name.length = 4 := hlength
      rw [h4]
      exact if_pos h
    | expect =>
      have h6 : name.length = 6 := hlength
      rw [h6]
      exact if_pos h
    | connection =>
      have h10 : name.length = 10 := hlength
      rw [h10]
      exact if_pos h
    | contentLength =>
      have h14 : name.length = 14 := hlength
      rw [h14]
      exact if_pos h
    | contentEncoding =>
      have h16 : name.length = 16 := hlength
      rw [h16]
      exact if_pos h
    | transferEncoding =>
      have h17 : name.length = 17 := hlength
      rw [h17]
      exact if_pos h

/-- A field by its name, and none that is looked at by another. -/
theorem eqlIgnoreCase_spelled (name : Bytes) (field : Field) :
    eqlIgnoreCase name field.spelled = decide (fieldOf name = some field) := by
  rw [Bool.eq_iff_iff, decide_eq_true_eq]
  exact fieldOf_iff.symm

/-- A value that is one word is a list of that word. -/
theorem options_word {value word : Bytes} (h : eqlIgnoreCase value word = true)
    (hword : ∀ ch ∈ word.map Text.toLower, ch ≠ 44 ∧ ch ≠ 32 ∧ ch ≠ 9) :
    (value.splitOn 44).map trimBlanks = [value] := by
  have hbyte (ch : UInt8) (hch : Text.toLower ch = ch) (hno : ch = 44 ∨ ch = 32 ∨ ch = 9) : ch ∉ value := by
    intro hmem
    obtain ⟨hcomma, hspace, htab⟩ := hword _ (Head.mem_of_eqlIgnoreCase h hmem)
    rw [hch] at hcomma hspace htab
    rcases hno with hno | hno | hno
    · exact hcomma hno
    · exact hspace hno
    · exact htab hno
  have hblank : ∀ ch ∈ value, (ch == 32 || ch == 9) = false := by
    intro ch hch
    rw [Bool.or_eq_false_iff, beq_eq_false_iff_ne, beq_eq_false_iff_ne]
    constructor
    · rintro rfl
      exact hbyte 32 (by decide) (.inr (.inl rfl)) hch
    · rintro rfl
      exact hbyte 9 (by decide) (.inr (.inr rfl)) hch
  have htrim : trimBlanks value = value := by
    rw [trimBlanks, Head.dropWhile_of_none hblank,
      Head.dropWhile_of_none fun ch hch => hblank ch (List.mem_reverse.mp hch), List.reverse_reverse]
  rw [List.splitOn_eq_singleton (hbyte 44 (by decide) (.inl rfl)), List.map_singleton, htrim]

theorem findIgnoreCase_congr {a b : Bytes} (h : eqlIgnoreCase a b = true) (needle : Bytes) :
    Text.findIgnoreCase a needle = Text.findIgnoreCase b needle := by
  have hlength := length_of_eqlIgnoreCase h
  rw [Text.findIgnoreCase, Text.findIgnoreCase, hlength]
  congr 1
  funext i
  rw [Text.startsWithIgnoreCase, Text.startsWithIgnoreCase, List.length_drop, List.length_drop, hlength,
    eqlIgnoreCase, eqlIgnoreCase, List.map_take, List.map_take, List.map_drop, List.map_drop,
    beq_iff_eq.mp h]

theorem hasOption_eq (value : Bytes) (option : String) : hasOption value option =
    ((value.splitOn 44).map trimBlanks).any (eqlIgnoreCase · (ascii option)) := by
  rw [List.any_map]
  rfl

/-- The two values that are answered before the list is split come to what the list would. -/
theorem applyConnection_list (value : Bytes) (r : Request) :
    applyConnection value r = connectionList value r := by
  rw [applyConnection]
  split_ifs with hkeep hclose
  · have hclose : eqlIgnoreCase value (ascii "close") = false :=
      Bool.eq_false_iff.mpr fun h =>
        absurd ((length_of_eqlIgnoreCase hkeep).symm.trans (length_of_eqlIgnoreCase h)) (by decide)
    rw [connectionList, hasOption_eq, hasOption_eq, options_word hkeep (by decide +kernel),
      findIgnoreCase_congr hkeep, List.any_cons, List.any_cons, hclose, hkeep]
    rfl
  · rw [connectionList, hasOption_eq, options_word hclose (by decide +kernel), findIgnoreCase_congr hclose,
      List.any_cons, hclose]
    rfl
  · rfl

/-- The last coding and whether there is one before it, split forwards or from the last comma. -/
theorem chunkedState_eq (value : Bytes) : chunkedState value =
    if !eqlIgnoreCase (trimBlanks ((value.splitOn 44).getLast?.getD [])) (ascii "chunked") then .notLast
    else if (value.splitOn 44).length > 1 then .stacked
    else .lone := by
  rw [chunkedState]
  cases hlast : Text.lastIndexOf 44 value with
  | none =>
    rw [List.splitOn_eq_singleton (Text.lastIndexOf_none hlast)]
    rfl
  | some last =>
    obtain ⟨hvalue, hno⟩ := Text.lastIndexOf_some hlast
    have hsplit : value.splitOn 44 = (value.take last).splitOn 44 ++ [value.drop (last + 1)] := by
      conv_lhs => rw [hvalue]
      rw [List.splitOn_append_cons_of_beq _ _ (beq_self_eq_true 44), List.splitOn_eq_singleton hno]
    have hlong : ((value.take last).splitOn 44 ++ [value.drop (last + 1)]).length > 1 := by
      have := List.length_pos_of_ne_nil (List.splitOn_ne_nil 44 (value.take last))
      rw [List.length_append, List.length_singleton]
      omega
    rw [hsplit, List.getLast?_concat, if_pos hlong]
    dsimp only [Option.getD_some]
    rw [if_neg (Nat.succ_ne_zero last)]

/-- What a field does to what frames a request is what the harness has it do. -/
theorem refField_eq (zstd : Bool) (name value : Bytes) (r : Request) : refField name value r.framed =
    ((fieldOf name).elim (.ok r) fun field => applyField zstd field value r).map Request.framed := by
  have hhost : eqlIgnoreCase name (ascii "host") = decide (fieldOf name = some .host) :=
    eqlIgnoreCase_spelled name .host
  have hconnection : eqlIgnoreCase name (ascii "connection") = decide (fieldOf name = some .connection) :=
    eqlIgnoreCase_spelled name .connection
  have hlength : eqlIgnoreCase name (ascii "content-length") =
      decide (fieldOf name = some .contentLength) := eqlIgnoreCase_spelled name .contentLength
  have hcoding : eqlIgnoreCase name (ascii "transfer-encoding") =
      decide (fieldOf name = some .transferEncoding) := eqlIgnoreCase_spelled name .transferEncoding
  rw [refField, hhost, hconnection, hlength, hcoding]
  rcases fieldOf name with _ | field
  · rfl
  · rw [Option.elim_some]
    cases field with
    | host =>
      rw [if_pos (by decide), applyField, refAuthority_eq]
      show (if r.hasHost = true then _ else _) = _
      by_cases hhas : r.hasHost = true
      · rw [if_pos hhas, if_pos hhas]
        rfl
      · rw [if_neg hhas, if_neg hhas]
        by_cases hlong : value.length > 0
        · rw [if_pos hlong, decide_eq_true hlong, Bool.true_and]
          cases authorityOk value false <;> rfl
        · rw [if_neg hlong, decide_eq_false hlong, Bool.false_and]
          rfl
    | expect =>
      show Except.ok r.framed = _
      rw [applyField]
      split_ifs <;> rfl
    | connection =>
      rw [if_neg (by decide), if_pos (by decide), applyField, applyConnection_list, connectionList,
        hasOption_eq, hasOption_eq]
      have hframed : r.framed.minorVersion = r.minorVersion := rfl
      dsimp only
      rw [setKeepAlive, hframed]
      cases ((value.splitOn 44).map trimBlanks).any (eqlIgnoreCase · (ascii "close")) with
      | true => cases (Text.findIgnoreCase value (ascii "upgrade")).isSome <;> rfl
      | false =>
        cases ((value.splitOn 44).map trimBlanks).any (eqlIgnoreCase · (ascii "keep-alive")) with
        | true =>
          by_cases hminor : r.minorVersion = 0
          · rw [if_pos hminor, decide_eq_true hminor]
            cases (Text.findIgnoreCase value (ascii "upgrade")).isSome <;> rfl
          · rw [if_neg hminor, decide_eq_false hminor]
            cases (Text.findIgnoreCase value (ascii "upgrade")).isSome <;> rfl
        | false => cases (Text.findIgnoreCase value (ascii "upgrade")).isSome <;> rfl
    | contentLength =>
      rw [if_neg (by decide), if_neg (by decide), if_pos (by decide), applyField, digitsOnly]
      show (if r.chunked = true then _ else _) = _
      by_cases hchunked : r.chunked = true
      · rw [if_pos hchunked, if_pos hchunked]
        rfl
      · rw [if_neg hchunked, if_neg hchunked]
        by_cases hnil : value = []
        · rw [if_pos hnil, if_pos (Or.inl hnil)]
          rfl
        · rw [if_neg hnil]
          cases hdigits : value.all Text.isDigit with
          | false =>
            rw [if_pos (Or.inr Bool.false_ne_true)]
            rfl
          | true =>
            rw [if_neg (not_or.mpr ⟨hnil, not_not.mpr rfl⟩)]
            cases Text.parseU64 value with
            | none => rfl
            | some n =>
              show (if r.hasContentLength = true ∧ n ≠ r.contentLength then _ else _) = _
              dsimp only
              split_ifs <;> rfl
    | contentEncoding => rfl
    | transferEncoding =>
      rw [if_neg (by decide), if_neg (by decide), if_neg (by decide), if_pos (by decide), applyField,
        chunkedState_eq]
      show (if r.chunked = true then _ else _) = _
      by_cases hchunked : r.chunked = true
      · rw [if_pos hchunked, if_pos hchunked]
        rfl
      · rw [if_neg hchunked, if_neg hchunked]
        dsimp only
        cases eqlIgnoreCase (trimBlanks ((value.splitOn 44).getLast?.getD [])) (ascii "chunked") with
        | false => rfl
        | true =>
          by_cases hlong : (value.splitOn 44).length > 1
          · rw [if_pos hlong, if_pos hlong]
            rfl
          · rw [if_neg hlong, if_neg hlong]
            show (if r.hasContentLength = true then _ else _) = _
            by_cases hhas : r.hasContentLength = true
            · rw [if_pos hhas, Bool.not_true, if_neg Bool.false_ne_true, if_pos hhas]
              rfl
            · rw [if_neg hhas, Bool.not_true, if_neg Bool.false_ne_true, if_neg hhas]
              rfl

/-! ## A line of fields -/

/-- A name that is a token has no blank in it, so the two that are looked for first change nothing. -/
theorem refApplyHeader_eq (zstd : Bool) (line : Bytes) (r : Request) :
    refApplyHeader line r.framed = (readField zstd line r).map Request.framed := by
  rw [refApplyHeader, refStray_eq, Bool.not_true, readField]
  by_cases hstray : holdsStray false line = true
  · rw [if_pos hstray, if_pos hstray]
    rfl
  · rw [if_neg hstray, if_neg hstray, ← applyHeader_eq, applyHeader]
    by_cases hblank : line.head?.any isBlank = true
    · rw [if_pos hblank, if_pos hblank]
      rfl
    · rw [if_neg hblank, if_neg hblank]
      cases hcolon : line.idxOf? 58 with
      | none => rfl
      | some colon =>
        have hlt : colon < line.length := (List.getElem?_eq_some_iff.mp (idxOf?_some.mp hcolon).1).1
        have hname : Text.between line 0 colon = line.take colon := by
          rw [Text.between, List.drop_zero, Nat.sub_zero]
        have hvalue : headerValue line colon line.length = trimBlanks (line.drop (colon + 1)) := by
          rw [headerValue, Text.between, List.take_of_length_le (by rw [List.length_drop])]
        dsimp only
        rw [applyHeaderAt, hname, hvalue, refField_eq zstd]
        split_ifs
        · rfl
        · rfl
        · rfl
        · cases fieldOf (line.take colon) <;> rfl

/-- A coding or an expectation is all that a line says and the harness does not hear. -/
theorem Said.apply_beyond {s : Said} {r r' : Request} (h : s.apply r = some r') :
    r'.contentEncoding = s.coding?.getD r.contentEncoding ∧
      r'.encodingDeferred = r.encodingDeferred ∧
      r'.expectContinue = (r.expectContinue || s == .expect) := by
  cases s with
  | refused => cases h
  | nothing =>
    cases h
    exact ⟨rfl, rfl, (Bool.or_false _).symm⟩
  | host =>
    rw [Said.apply] at h
    split_ifs at h
    cases h
    exact ⟨rfl, rfl, (Bool.or_false _).symm⟩
  | expect =>
    cases h
    exact ⟨rfl, rfl, (Bool.or_true _).symm⟩
  | connection value =>
    cases h
    have hkept : (applyConnection value r).contentEncoding = r.contentEncoding ∧
        (applyConnection value r).encodingDeferred = r.encodingDeferred ∧
        (applyConnection value r).expectContinue = r.expectContinue := by
      rw [applyConnection, connectionList, setKeepAlive]
      split_ifs <;> exact ⟨rfl, rfl, rfl⟩
    exact ⟨hkept.1, hkept.2.1, hkept.2.2.trans (Bool.or_false _).symm⟩
  | length n =>
    rw [Said.apply] at h
    split_ifs at h
    cases h
    exact ⟨rfl, rfl, (Bool.or_false _).symm⟩
  | coding c =>
    cases h
    exact ⟨rfl, rfl, (Bool.or_false _).symm⟩
  | chunked =>
    rw [Said.apply] at h
    split_ifs at h
    cases h
    exact ⟨rfl, rfl, (Bool.or_false _).symm⟩

/-! ## A head -/

/-- What the lines of fields say, those up to the first blank one. -/
def toldIn (zstd : Bool) (lines : List Bytes) : List Said :=
  (lines.takeWhile fun raw => trimCR raw != []).map (said zstd)

/-- A request with what only the parser hears. -/
def Request.hearing (s r : Request) (told : List Said) : Request :=
  { s with
    contentEncoding := (lastCoding told).getD r.contentEncoding
    encodingDeferred := r.encodingDeferred
    expectContinue := r.expectContinue || told.contains .expect }

theorem hearing_cons {s : Said} {r r' : Request} (h : s.apply r = some r') (t : Request)
    (told : List Said) : t.hearing r' told = t.hearing r (s :: told) := by
  obtain ⟨hcoding, hdeferred, hexpect⟩ := s.apply_beyond h
  rw [Request.hearing, Request.hearing, hcoding, hdeferred, hexpect, lastCoding, lastCoding,
    List.filterMap_cons, List.contains_cons, Bool.or_assoc]
  have hsay : (s == Said.expect) = (Said.expect == s) := Bool.beq_comm
  rw [hsay]
  cases s.coding? with
  | none => rfl
  | some c =>
    dsimp only
    rw [List.getLast?_cons]
    cases (told.filterMap Said.coding?).getLast? <;> rfl

theorem toldIn_cons (zstd : Bool) {raw : Bytes} (h : trimCR raw ≠ []) (lines : List Bytes) :
    toldIn zstd (raw :: lines) = said zstd raw :: toldIn zstd lines := by
  have hkeep : (trimCR raw != []) = true := bne_iff_ne.mpr h
  rw [toldIn, List.takeWhile_cons, if_pos hkeep, List.map_cons, toldIn]

theorem framed_hearing (r : Request) : r.framed.hearing r [] = r := by
  rw [Request.hearing, lastCoding, Request.framed]
  exact congrArg (fun b => { r with expectContinue := b }) (Bool.or_false _)

/-- What the parser hears in the lines of fields, beside what frames the request. -/
theorem stepLines_hearing (zstd : Bool) {lines : List Bytes} : ∀ {r r' : Request},
    stepLines zstd false lines r = .ok r' → r' = r'.framed.hearing r (toldIn zstd lines) := by
  induction lines with
  | nil =>
    intro r r' h
    cases h
    exact (framed_hearing r).symm
  | cons raw lines ih =>
    intro r r' h
    rw [stepLines, stepLine, if_neg Bool.false_ne_true] at h
    by_cases hblank : trimCR raw = []
    · have hstop : ¬ (trimCR raw != []) = true := fun hne => bne_iff_ne.mp hne hblank
      rw [if_pos hblank] at h
      cases h
      rw [toldIn, List.takeWhile_cons, if_neg hstop]
      exact (framed_hearing r).symm
    · rw [if_neg hblank] at h
      have hsaid := readField_said zstd raw r
      cases hread : readField zstd (trimCR raw) r with
      | error e =>
        rw [hread] at h
        cases h
      | ok s =>
        rw [hread] at h hsaid
        rw [toldIn_cons zstd hblank, ← hearing_cons hsaid.symm]
        exact ih h

theorem refLines_more {line : Bytes} (hline : lf ∉ line) (head rest : Bytes) (firstLine : Bool)
    (r : Request) : refLines head firstLine (line ++ lf :: rest) r =
      if firstLine then refParseRequestLine (trimCR line) r >>= refLines head false rest
      else if trimCR line = [] then refFinish r
      else refApplyHeader (trimCR line) r >>= refLines head false rest := by
  have hne : line ++ lf :: rest ≠ [] := List.append_ne_nil_of_right_ne_nil _ (List.cons_ne_nil _ _)
  have hcut := (cut_eq (List.mem_append_right line List.mem_cons_self : lf ∈ line ++ lf :: rest)).1
  rw [Text.cut_append hline, Prod.mk.injEq, Option.some_inj] at hcut
  obtain ⟨htake, hdrop⟩ := hcut
  rw [← htake] at hdrop
  rw [refLines, dif_neg hne, ← htake]
  dsimp only
  rw [← hdrop]

theorem refLines_last {line : Bytes} (hline : lf ∉ line) (hne : line ≠ []) (head : Bytes)
    (firstLine : Bool) (r : Request) : refLines head firstLine line r =
      if firstLine then refParseRequestLine (trimCR line) r >>= refFinish
      else if trimCR line = [] then refFinish r
      else refApplyHeader (trimCR line) r >>= refFinish := by
  have htake : line.takeWhile (· != lf) = line := by
    rw [List.takeWhile_eq_self_iff]
    intro ch hch
    refine bne_iff_ne.mpr ?_
    rintro rfl
    exact hline hch
  have hend : refLines head false [] = refFinish := by
    funext s
    rw [refLines, dif_pos rfl, if_neg Bool.false_ne_true]
  rw [refLines, dif_neg hne, htake]
  dsimp only
  rw [List.drop_eq_nil_of_le (Nat.le_succ _), hend]

/-- The lines of fields are the same lines either way. -/
theorem refLines_eq (zstd : Bool) (head rest : Bytes) : ∀ r : Request,
    refLines head false rest r.framed =
      (stepLines zstd false (rest.splitOn lf) r).map Request.framed >>= refFinish := by
  induction rest using lineInduction with
  | last line hline =>
    intro r
    rw [List.splitOn_eq_singleton hline, stepLines, stepLine, if_neg Bool.false_ne_true]
    by_cases hnil : line = []
    · subst hnil
      rw [refLines]
      rfl
    · rw [refLines_last hline hnil, if_neg Bool.false_ne_true]
      by_cases hblank : trimCR line = []
      · rw [if_pos hblank, if_pos hblank]
        rfl
      · rw [if_neg hblank, if_neg hblank, refApplyHeader_eq zstd]
        cases readField zstd (trimCR line) r <;> rfl
  | more line rest hline ih =>
    intro r
    rw [List.splitOn_append_cons_of_beq _ _ (beq_self_eq_true lf), List.splitOn_eq_singleton hline,
      List.singleton_append, stepLines, stepLine, if_neg Bool.false_ne_true, refLines_more hline,
      if_neg Bool.false_ne_true]
    by_cases hblank : trimCR line = []
    · rw [if_pos hblank, if_pos hblank]
      rfl
    · rw [if_neg hblank, if_neg hblank, refApplyHeader_eq zstd]
      cases readField zstd (trimCR line) r with
      | error e => rfl
      | ok s => exact ih s

theorem applyForm_framed (r : Request) :
    applyForm r.framed = (applyForm r).map Request.framed := by
  have htarget : r.framed.target = r.target := rfl
  have hmethod : r.framed.method = r.method := rfl
  rw [applyForm, applyForm, htarget, hmethod]
  by_cases horigin : r.target.head? = some 47
  · rw [if_pos horigin, if_pos horigin]
    rfl
  · rw [if_neg horigin, if_neg horigin]
    rcases absoluteForm r.target with e | _ | ⟨authority, path⟩
    · rfl
    · dsimp only
      by_cases hstar : r.target = ascii "*"
      · rw [if_pos hstar, if_pos hstar]
        by_cases hoptions : r.method = ascii "OPTIONS"
        · rw [if_pos hoptions, if_pos hoptions]
          rfl
        · rw [if_neg hoptions, if_neg hoptions]
          rfl
      · rw [if_neg hstar, if_neg hstar]
        by_cases hconnect : r.method = ascii "CONNECT"
        · rw [if_pos hconnect, if_pos hconnect]
          cases authorityOk r.target true <;> rfl
        · rw [if_neg hconnect, if_neg hconnect]
          rfl
    · rfl

/-- A request line says nothing that the harness does not hear. -/
theorem parseRequestLine_framed (line : Bytes) (r : Request) :
    parseRequestLine line r.framed = (parseRequestLine line r).map Request.framed := by
  rw [parseRequestLine, parseRequestLine]
  rcases Text.cut 32 line with ⟨method, _ | behind⟩
  · rfl
  · dsimp only
    rcases Text.cut 32 behind with ⟨target, _ | version⟩
    · rfl
    · dsimp only
      by_cases hnil : method = [] ∨ target = []
      · rw [if_pos hnil, if_pos hnil]
        rfl
      · rw [if_neg hnil, if_neg hnil]
        rcases versionOf version with e | ⟨minorVersion, keepAlive⟩
        · rfl
        · dsimp only
          cases tokenAt line 0 method.length with
          | false => rfl
          | true => exact applyForm_framed { r with minorVersion, keepAlive, method, target }

/-- What a head as a whole has to be, and what only the parser asks of it. -/
theorem finish_framed (r : Request) : finish r =
    (match refFinish r.framed with
    | .error e => .error e
    | .ok s =>
      if r.contentEncoding = .other ∧ ¬ r.encodingDeferred ∧ (s.chunked ∨ s.contentLength > 0) then
        .error .unsupportedContentEncoding
      else .ok { s with
        contentEncoding := r.contentEncoding
        encodingDeferred := r.encodingDeferred
        expectContinue := r.expectContinue }) := by
  rw [finish, refFinish]
  by_cases hhost : r.minorVersion = 1 ∧ ¬ r.hasHost = true ∧ r.authority = []
  · have hhost' : r.framed.minorVersion = 1 ∧ ¬ r.framed.hasHost = true ∧ r.framed.authority = [] := hhost
    rw [if_pos hhost, if_pos hhost']
  · have hhost' : ¬ (r.framed.minorVersion = 1 ∧ ¬ r.framed.hasHost = true ∧ r.framed.authority = []) :=
      hhost
    rw [if_neg hhost, if_neg hhost']
    by_cases hold : r.minorVersion = 0 ∧ r.chunked = true
    · have hold' : r.framed.minorVersion = 0 ∧ r.framed.chunked = true := hold
      rw [if_pos hold, if_pos hold']
      rfl
    · have hold' : ¬ (r.framed.minorVersion = 0 ∧ r.framed.chunked = true) := hold
      rw [if_neg hold, if_neg hold']
      rfl

/-- The head as the harness reads it, and what the parser reads of it. -/
theorem refParseHead_eq (zstd : Bool) (head : Bytes) (r : Request) :
    refParseHead head r.framed =
      (readLines zstd head r true).map Request.framed >>= refFinish := by
  have hfirst (line : Bytes) : refParseRequestLine line r.framed =
      (if holdsStray true line then .error .badRequestLine else parseRequestLine line r).map
        Request.framed := by
    rw [refParseRequestLine_eq, parseRequestLine_framed]
    cases holdsStray true line <;> rfl
  rw [refParseHead, readLines_eq, readPlain]
  by_cases hlf : lf ∈ head
  · obtain ⟨line, rest, rfl, hline⟩ := List.eq_append_cons_of_mem hlf
    rw [List.splitOn_append_cons_of_beq _ _ (beq_self_eq_true lf), List.splitOn_eq_singleton hline,
      List.singleton_append, stepLines, stepLine, if_pos rfl, refLines_more hline, if_pos rfl, hfirst]
    cases holdsStray true (trimCR line) with
    | true => rfl
    | false =>
      cases parseRequestLine (trimCR line) r with
      | error e => rfl
      | ok s => exact refLines_eq zstd _ rest s
  · rw [List.splitOn_eq_singleton hlf, stepLines, stepLine, if_pos rfl]
    by_cases hnil : head = []
    · subst hnil
      rw [refLines, dif_pos rfl, if_pos rfl, hfirst]
      rfl
    · rw [refLines_last hlf hnil, if_pos rfl, hfirst]
      cases holdsStray true (trimCR head) with
      | true => rfl
      | false => cases parseRequestLine (trimCR head) r <;> rfl

theorem readLines_hearing {zstd : Bool} {head : Bytes} {r r' : Request}
    (h : readLines zstd head r true = .ok r') :
    r' = r'.framed.hearing r (toldIn zstd (head.splitOn lf).tail) := by
  rw [readLines_eq, readPlain] at h
  cases hsplit : head.splitOn lf with
  | nil => exact absurd hsplit (List.splitOn_ne_nil lf head)
  | cons raw lines =>
    rw [hsplit, stepLines, stepLine, if_pos rfl] at h
    split_ifs at h
    cases hline : parseRequestLine (trimCR raw) r with
    | error e =>
      rw [hline] at h
      cases h
    | ok s =>
      rw [hline] at h
      have hheard := stepLines_hearing zstd (show stepLines zstd false lines s = .ok r' from h)
      -- the request line leaves the coding and the expectation as they were
      obtain ⟨_, _, _, _, _, rfl⟩ := parseRequestLine_ok hline
      exact hheard

/-- Parsing a head is reading it the slow obvious way, and of what only the parser hears the coding of a
body is refused where it is one that is not read. -/
theorem parseHead_eq_ref (zstd : Bool) (head : Bytes) (r : Request) :
    parseHead zstd head r =
      (refParseHead head r.framed >>= fun s =>
        let read := s.hearing r (toldIn zstd (head.splitOn lf).tail)
        if read.contentEncoding = .other ∧ ¬ read.encodingDeferred ∧
            (read.chunked ∨ read.contentLength > 0) then .error .unsupportedContentEncoding
        else .ok read) := by
  rw [refParseHead_eq zstd]
  show readLines zstd head r true >>= finish = _
  cases hread : readLines zstd head r true with
  | error e => rfl
  | ok r' =>
    have hheard := readLines_hearing hread
    show finish r' = refFinish r'.framed >>= _
    rw [finish_framed]
    cases hfinish : refFinish r'.framed with
    | error e => rfl
    | ok s =>
      have hcoding := congrArg Request.contentEncoding hheard
      have hdeferred := congrArg Request.encodingDeferred hheard
      have hexpect := congrArg Request.expectContinue hheard
      show _ = if _ then _ else _
      dsimp only
      rw [hcoding, hdeferred, hexpect]
      rfl

end Nilo.Http1
