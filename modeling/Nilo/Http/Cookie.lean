import Nilo.Std.Decimal
import Mathlib.Data.List.SplitOn

/-!
# Cookies (`http/cookie.zig`)

`check` lets no byte through that ends a name, a value or an attribute, so what `write` prints splits
back into what was declared, and `find` reads a cookie back from a header of them.
-/

namespace Nilo.Cookie

open Text (Bytes ascii cut trimBlanks between signed digitsOf)

inductive SameSite where
  | strict
  | lax
  | none
  | unset
deriving DecidableEq

structure Cookie where
  name : Bytes
  value : Bytes
  path : Bytes := ascii "/"
  domain : Bytes := []
  maxAge : Option Int := none
  expires : Bytes := []
  secure : Bool := true
  httpOnly : Bool := true
  sameSite : SameSite := .lax

inductive Error where
  | cookieNameEmpty
  | cookieNameInvalid
  | cookieValueInvalid
  | cookieNeedsSecure
  | cookieAttributeInvalid
deriving DecidableEq

/-! ## Reading -/

structure Pair where
  name : Bytes
  value : Bytes
deriving DecidableEq

/-- A value without its quotes. -/
def unquoted (value : Bytes) : Bytes :=
  if value.length ≥ 2 ∧ value.getD 0 0 = 34 ∧ value.getD (value.length - 1) 0 = 34 then
    between value 1 (value.length - 1)
  else value

/-- A run between two semicolons; none is a `continue` of `next`. -/
def pairOf (run : Bytes) : Option Pair :=
  match cut 61 (trimBlanks run) with
  | (_, none) => none
  | (name, some value) =>
    if (trimBlanks name).length = 0 then none
    else some { name := trimBlanks name, value := unquoted (trimBlanks value) }

theorem length_after (ch : UInt8) {text : Bytes} (h : 0 < text.length) :
    ((cut ch text).2.getD []).length < text.length := by
  rw [cut]
  cases hdrop : text.dropWhile (· != ch) with
  | nil => exact h
  | cons c rest =>
    have hlength := (List.dropWhile_sublist (· != ch) (l := text)).length_le
    rw [hdrop, List.length_cons] at hlength
    exact hlength

/-- The next pair, with what is behind it. -/
def next (rest : Bytes) : Option (Pair × Bytes) :=
  if 0 < rest.length then
    match pairOf (cut 59 rest).1 with
    | none => next ((cut 59 rest).2.getD [])
    | some pair => some (pair, (cut 59 rest).2.getD [])
  else none
termination_by rest.length
decreasing_by exact length_after 59 ‹_›

theorem next_length {rest after : Bytes} {pair : Pair} (h : next rest = some (pair, after)) :
    after.length < rest.length := by
  induction hn : rest.length using Nat.strong_induction_on generalizing rest with
  | _ n ih =>
    rw [next] at h
    split_ifs at h with hpos
    have hlt := length_after 59 hpos
    cases hpair : pairOf (cut 59 rest).1 with
    | none =>
      rw [hpair] at h
      exact Nat.lt_trans (ih _ (hn ▸ hlt) h rfl) (hn ▸ hlt)
    | some found =>
      rw [hpair] at h
      cases h
      exact hn ▸ hlt

/-- The value of the first cookie of that name. -/
def find (header name : Bytes) : Option Bytes :=
  match h : next header with
  | none => none
  | some (pair, rest) => if pair.name = name then some pair.value else find rest name
termination_by header.length
decreasing_by exact next_length h

/-! ## Writing -/

/-- RFC 6265's `av-octet`. -/
def isAttributeByte (ch : UInt8) : Bool := 0x20 ≤ ch && ch < 0x7f && ch != 59

/-- RFC 9110's `token`. -/
def isTokenByte (ch : UInt8) : Bool :=
  Text.isAlphanumeric ch || (ascii "!#$%&'*+-.^_\x60|~").contains ch

/-- RFC 6265's `cookie-octet`. -/
def isValueByte (ch : UInt8) : Bool :=
  ch == 0x21 || (0x23 ≤ ch && ch ≤ 0x2b) || (0x2d ≤ ch && ch ≤ 0x3a) || (0x3c ≤ ch && ch ≤ 0x5b) ||
    (0x5d ≤ ch && ch ≤ 0x7e)

def check (c : Cookie) : Except Error Unit :=
  if c.name.length = 0 then .error .cookieNameEmpty
  else if !c.name.all isTokenByte then .error .cookieNameInvalid
  else if !c.value.all isValueByte then .error .cookieValueInvalid
  else if !([c.path, c.domain, c.expires] : List Bytes).all (·.all isAttributeByte) then .error .cookieAttributeInvalid
  else if c.sameSite = .none ∧ c.secure = false then .error .cookieNeedsSecure
  else .ok ()

/-- The loop of `decimalLen`. -/
def tens (left : Nat) : Nat := if left ≥ 10 then tens (left / 10) + 1 else 0

def decimalLen (value : Int) : Nat := (if value < 0 then 1 else 0) + 1 + tens value.natAbs

def sameSiteName : SameSite → Option Bytes
  | .strict => some (ascii "Strict")
  | .lax => some (ascii "Lax")
  | .none => some (ascii "None")
  | .unset => none

/-- How long the header value will be. -/
def lengthOf (c : Cookie) : Nat :=
  c.name.length + 1 + c.value.length +
    (if c.path.length > 0 then (ascii "; Path=").length + c.path.length else 0) +
    (if c.domain.length > 0 then (ascii "; Domain=").length + c.domain.length else 0) +
    (match c.maxAge with
    | some seconds => (ascii "; Max-Age=").length + decimalLen seconds
    | none => 0) +
    (if c.expires.length > 0 then (ascii "; Expires=").length + c.expires.length else 0) +
    (if c.secure then (ascii "; Secure").length else 0) +
    (if c.httpOnly then (ascii "; HttpOnly").length else 0) +
    (match sameSiteName c.sameSite with
    | some name => (ascii "; SameSite=").length + name.length
    | none => 0)

/-- The `Set-Cookie` value. -/
def write (c : Cookie) : Bytes :=
  c.name ++ [61] ++ c.value ++
    (if c.path.length > 0 then ascii "; Path=" ++ c.path else []) ++
    (if c.domain.length > 0 then ascii "; Domain=" ++ c.domain else []) ++
    (match c.maxAge with
    | some seconds => ascii "; Max-Age=" ++ signed seconds
    | none => []) ++
    (if c.expires.length > 0 then ascii "; Expires=" ++ c.expires else []) ++
    (if c.secure then ascii "; Secure" else []) ++
    (if c.httpOnly then ascii "; HttpOnly" else []) ++
    (match sameSiteName c.sameSite with
    | some name => ascii "; SameSite=" ++ name
    | none => [])

/-! ## What a cookie declares -/

/-- `name=value`. -/
def pairText (c : Cookie) : Bytes := c.name ++ 61 :: c.value

/-- An attribute that holds a text, if it is not left empty. -/
def valued (name : String) (value : Bytes) : List (Bytes × Option Bytes) :=
  if value = [] then [] else [(ascii name, some value)]

def flag (name : String) (on : Bool) : List (Bytes × Option Bytes) :=
  if on then [(ascii name, none)] else []

/-- The attributes with their values, in the order of the declaration. -/
def attributes (c : Cookie) : List (Bytes × Option Bytes) :=
  valued "Path" c.path ++ valued "Domain" c.domain ++ valued "Max-Age" ((c.maxAge.map signed).getD []) ++
    valued "Expires" c.expires ++ flag "Secure" c.secure ++ flag "HttpOnly" c.httpOnly ++
    valued "SameSite" ((sameSiteName c.sameSite).getD [])

def attributeText : Bytes × Option Bytes → Bytes
  | (name, some value) => name ++ 61 :: value
  | (name, none) => name

def printed (a : Bytes × Option Bytes) : Bytes := ascii "; " ++ attributeText a

theorem valued_flatMap (name : String) (value : Bytes) : (valued name value).flatMap printed =
    if value.length > 0 then ascii "; " ++ ascii name ++ [61] ++ value else [] := by
  rw [valued]
  cases value with
  | nil => rfl
  | cons ch value =>
    rw [if_neg (List.cons_ne_nil ch value), if_pos (show (ch :: value).length > 0 from Nat.succ_pos _),
      List.flatMap_singleton, printed, attributeText]
    simp only [List.append_assoc, List.cons_append, List.nil_append]

theorem flag_flatMap (name : String) (on : Bool) :
    (flag name on).flatMap printed = if on then ascii "; " ++ ascii name else [] := by
  cases on <;> simp [flag, printed, attributeText]

theorem signed_length_pos (n : Int) : (signed n).length > 0 := by
  rw [signed, List.length_append]
  exact Nat.add_pos_right _ (Text.length_digitsOf_pos _)

theorem write_eq (c : Cookie) : write c = pairText c ++ (attributes c).flatMap printed := by
  have hage : (match c.maxAge with
      | some seconds => ascii "; Max-Age=" ++ signed seconds
      | none => []) = (valued "Max-Age" ((c.maxAge.map signed).getD [])).flatMap printed := by
    rw [valued_flatMap]
    cases c.maxAge with
    | none => rfl
    | some seconds => exact (if_pos (signed_length_pos seconds)).symm
  have hsite : (match sameSiteName c.sameSite with
      | some name => ascii "; SameSite=" ++ name
      | none => []) = (valued "SameSite" ((sameSiteName c.sameSite).getD [])).flatMap printed := by
    rw [valued_flatMap]
    cases c.sameSite <;> decide
  rw [write, hage, hsite, attributes]
  simp only [List.flatMap_append, valued_flatMap, flag_flatMap, pairText, List.append_assoc,
    List.cons_append, List.nil_append]
  rfl

/-! ## Its length -/

theorem length_digitsOf (n : Nat) : (digitsOf n).length = tens n + 1 := by
  induction n using Nat.strong_induction_on with
  | _ n ih =>
    rw [Text.digitsOf_eq, tens]
    by_cases hsmall : n < 10
    · rw [if_pos hsmall, if_neg (by omega)]
      rfl
    · rw [if_neg hsmall, if_pos (by omega), List.length_append, ih (n / 10) (by omega)]
      rfl

theorem length_signed (value : Int) : (signed value).length = decimalLen value := by
  rw [signed, List.length_append, length_digitsOf, decimalLen]
  split_ifs <;> simp only [List.length_singleton, List.length_nil] <;> omega

theorem length_write (c : Cookie) : (write c).length = lengthOf c := by
  rw [write, lengthOf]
  simp only [List.length_append, apply_ite List.length, List.length_singleton, List.length_nil]
  congr 1
  · cases c.maxAge with
    | none => rfl
    | some seconds =>
      dsimp only
      rw [List.length_append, length_signed]
  · cases c.sameSite <;> rfl

/-! ## The pieces of a header -/

theorem check_ok {c : Cookie} (h : check c = .ok ()) :
    c.name ≠ [] ∧ c.name.all isTokenByte = true ∧ c.value.all isValueByte = true ∧
      c.path.all isAttributeByte = true ∧ c.domain.all isAttributeByte = true ∧
        c.expires.all isAttributeByte = true := by
  rw [check] at h
  split_ifs at h with hempty hname hvalue hattr
  simp only [List.all_cons, List.all_nil, Bool.and_true, Bool.not_eq_true', Bool.not_eq_false,
    Bool.and_eq_true] at hname hvalue hattr
  exact ⟨fun hnil => hempty (by rw [hnil]; rfl), hname, hvalue, hattr⟩

theorem token_byte (ch : UInt8) :
    isTokenByte ch = true → ch ≠ 59 ∧ ch ≠ 61 ∧ ch ≠ 32 ∧ ch ≠ 9 := by
  revert ch
  exact Text.forall_byte (by decide)

theorem value_byte (ch : UInt8) :
    isValueByte ch = true → ch ≠ 59 ∧ ch ≠ 34 ∧ ch ≠ 32 ∧ ch ≠ 9 := by
  revert ch
  exact Text.forall_byte (by decide)

theorem not_mem_of_all {p : UInt8 → Bool} {text : Bytes} {ch : UInt8} (h : text.all p = true)
    (hp : p ch = false) : ch ∉ text := by
  intro hmem
  rw [List.all_eq_true.mp h ch hmem] at hp
  cases hp

theorem pairText_whole {c : Cookie} (h : check c = .ok ()) : 59 ∉ pairText c := by
  obtain ⟨-, hname, hvalue, -⟩ := check_ok h
  rw [pairText, List.mem_append, List.mem_cons, not_or, not_or]
  exact ⟨not_mem_of_all hname (by decide), by decide, not_mem_of_all hvalue (by decide)⟩

theorem signed_whole (n : Int) : 59 ∉ signed n := by
  rw [signed, List.mem_append, not_or]
  refine ⟨?_, not_mem_of_all (Text.all_digitsOf _) (by decide)⟩
  split_ifs <;> decide

theorem valued_whole {name : String} {value : Bytes} (h : 59 ∉ ascii name) (h' : 59 ∉ value) :
    ∀ a ∈ valued name value, 59 ∉ attributeText a := by
  rw [valued]
  split_ifs
  · exact List.forall_mem_nil _
  · refine List.forall_mem_singleton.mpr ?_
    rw [attributeText, List.mem_append, List.mem_cons, not_or, not_or]
    exact ⟨h, by decide, h'⟩

theorem flag_whole {name : String} (h : 59 ∉ ascii name) (on : Bool) :
    ∀ a ∈ flag name on, 59 ∉ attributeText a := by
  cases on
  · exact List.forall_mem_nil _
  · exact List.forall_mem_singleton.mpr h

theorem attributes_whole {c : Cookie} (h : check c = .ok ()) :
    ∀ a ∈ attributes c, 59 ∉ attributeText a := by
  obtain ⟨-, -, -, hpath, hdomain, hexpires⟩ := check_ok h
  have hage : 59 ∉ (c.maxAge.map signed).getD [] := by
    cases c.maxAge with
    | none => exact List.not_mem_nil
    | some seconds => exact signed_whole seconds
  have hsite : 59 ∉ (sameSiteName c.sameSite).getD [] := by cases c.sameSite <;> decide
  have hattr {value : Bytes} (hvalue : value.all isAttributeByte = true) : 59 ∉ value :=
    not_mem_of_all hvalue (by decide)
  rw [attributes]
  intro a ha
  simp only [List.mem_append] at ha
  rcases ha with (((((ha | ha) | ha) | ha) | ha) | ha) | ha
  · exact valued_whole (by decide) (hattr hpath) a ha
  · exact valued_whole (by decide) (hattr hdomain) a ha
  · exact valued_whole (by decide) hage a ha
  · exact valued_whole (by decide) (hattr hexpires) a ha
  · exact flag_whole (by decide) c.secure a ha
  · exact flag_whole (by decide) c.httpOnly a ha
  · exact valued_whole (by decide) hsite a ha

theorem valued_name (name : String) (value : Bytes) :
    ((valued name value).map Prod.fst).Sublist [ascii name] := by
  rw [valued]
  split_ifs
  · exact List.nil_sublist _
  · exact List.Sublist.refl _

theorem flag_name (name : String) (on : Bool) : ((flag name on).map Prod.fst).Sublist [ascii name] := by
  cases on
  · exact List.nil_sublist _
  · exact List.Sublist.refl _

/-- No attribute is declared twice. -/
theorem attributes_once (c : Cookie) : ((attributes c).map Prod.fst).Nodup := by
  have hsub : ((attributes c).map Prod.fst).Sublist
      ([ascii "Path"] ++ [ascii "Domain"] ++ [ascii "Max-Age"] ++ [ascii "Expires"] ++ [ascii "Secure"] ++
        [ascii "HttpOnly"] ++ [ascii "SameSite"]) := by
    rw [attributes]
    simp only [List.map_append]
    exact (((((((valued_name _ _).append (valued_name _ _)).append (valued_name _ _)).append
      (valued_name _ _)).append (flag_name _ _)).append (flag_name _ _)).append (valued_name _ _))
  exact hsub.nodup (by decide)

/-- Runs behind semicolons and blanks. -/
theorem append_flatMap {α : Type} (text : α → Bytes) (first : Bytes) (rest : List α) :
    first ++ rest.flatMap (fun a => ascii "; " ++ text a) =
      [59].intercalate (first :: rest.map fun a => 32 :: text a) := by
  induction rest generalizing first with
  | nil => rw [List.flatMap_nil, List.map_nil, List.intercalate_singleton, List.append_nil]
  | cons a rest ih =>
    rw [List.flatMap_cons, List.map_cons, List.intercalate_cons_cons, ← ih (32 :: text a),
      List.append_assoc, List.append_assoc]
    rfl

theorem write_split {c : Cookie} (h : check c = .ok ()) :
    (write c).splitOn 59 = pairText c :: (attributes c).map fun a => 32 :: attributeText a := by
  have hjoin := append_flatMap attributeText (pairText c) (attributes c)
  rw [write_eq]
  refine (congrArg (List.splitOn 59) hjoin).trans (List.splitOn_intercalate 59 ?_ (List.cons_ne_nil _ _))
  refine List.forall_mem_cons.mpr ⟨pairText_whole h, List.forall_mem_map.mpr fun a ha => ?_⟩
  exact List.not_mem_cons_of_ne_of_not_mem (by decide) (attributes_whole h a ha)

/-! ## The pairs of a header -/

theorem find_eq (header name : Bytes) : find header name =
    match next header with
    | none => none
    | some (pair, rest) => if pair.name = name then some pair.value else find rest name := by
  rw [find]
  split <;> rename_i h <;> rw [h]

theorem find_nil (name : Bytes) : find [] name = none := by
  rw [find_eq, next]
  rfl

/-- One run of a header. -/
theorem find_run {header run : Bytes} {after : Option Bytes} (hpos : 0 < header.length)
    (hcut : cut 59 header = (run, after)) (name : Bytes) : find header name =
      ((pairOf run).bind fun pair => if pair.name = name then some pair.value else none).or
        (find (after.getD []) name) := by
  rw [find_eq, next, if_pos hpos, hcut]
  dsimp only
  cases pairOf run with
  | none =>
    dsimp only
    rw [← find_eq]
    rfl
  | some pair =>
    dsimp only [Option.bind]
    split_ifs <;> rfl

theorem find?_runs (run : Bytes) (runs : List Bytes) (name : Bytes) :
    (((run :: runs).filterMap pairOf).find? fun pair => pair.name == name).map Pair.value =
      ((pairOf run).bind fun pair => if pair.name = name then some pair.value else none).or
        (((runs.filterMap pairOf).find? fun pair => pair.name == name).map Pair.value) := by
  cases hpair : pairOf run with
  | none =>
    rw [List.filterMap_cons_none hpair]
    rfl
  | some pair =>
    rw [List.filterMap_cons_some hpair, List.find?_cons]
    dsimp only [Option.bind]
    by_cases hname : pair.name = name
    · rw [beq_iff_eq.mpr hname, if_pos hname]
      rfl
    · rw [beq_eq_false_iff_ne.mpr hname, if_neg hname]
      rfl

/-- `find` looks through the runs between the semicolons. -/
theorem find_runs {runs : List Bytes} (h : ∀ run ∈ runs, 59 ∉ run) (name : Bytes) :
    find ([59].intercalate runs) name =
      ((runs.filterMap pairOf).find? fun pair => pair.name == name).map Pair.value := by
  induction runs with
  | nil => exact find_nil name
  | cons run runs ih =>
    obtain ⟨hrun, hruns⟩ := List.forall_mem_cons.mp h
    rw [find?_runs]
    cases runs with
    | nil =>
      rw [List.intercalate_singleton]
      by_cases hnil : run = []
      · rw [hnil, find_nil]
        rfl
      · rw [find_run (List.length_pos_iff.mpr hnil) (Text.cut_none hrun), Option.getD_none, find_nil]
        rfl
    | cons second runs =>
      have hpos : 0 < (run ++ 59 :: [59].intercalate (second :: runs)).length := by
        rw [List.length_append, List.length_cons]
        omega
      rw [← ih hruns, List.intercalate_cons_cons, List.append_assoc, List.singleton_append,
        find_run hpos (Text.cut_append hrun _), Option.getD_some]

theorem dropWhile_id {p : UInt8 → Bool} {text : Bytes} (h : ∀ ch ∈ text, p ch = false) :
    text.dropWhile p = text := by
  cases text with
  | nil => rfl
  | cons ch text => exact List.dropWhile_cons_of_neg (by rw [h ch List.mem_cons_self]; decide)

/-- A text without blanks is not trimmed, and a blank in front of it is. -/
theorem trimBlanks_id {text : Bytes} (h : ∀ ch ∈ text, ch ≠ 32 ∧ ch ≠ 9) :
    trimBlanks text = text ∧ trimBlanks (32 :: text) = text := by
  have hblank (l : Bytes) (hl : ∀ ch ∈ l, ch ≠ 32 ∧ ch ≠ 9) :
      l.dropWhile (fun ch => ch == 32 || ch == 9) = l := by
    refine dropWhile_id fun ch hch => ?_
    obtain ⟨hspace, htab⟩ := hl ch hch
    rw [beq_eq_false_iff_ne.mpr hspace, beq_eq_false_iff_ne.mpr htab]
    rfl
  have hid : trimBlanks text = text := by
    rw [trimBlanks, hblank text h, hblank _ fun ch hch => h ch (List.mem_reverse.mp hch),
      List.reverse_reverse]
  exact ⟨hid, hid⟩

theorem unquoted_id {value : Bytes} (h : 34 ∉ value) : unquoted value = value := by
  refine if_neg ?_
  rintro ⟨hlen, hfirst, -⟩
  cases value with
  | nil => cases hlen
  | cons ch value =>
    rw [List.getD_cons_zero] at hfirst
    exact h (hfirst ▸ List.mem_cons_self)

theorem pairOf_pairText {c : Cookie} (h : check c = .ok ()) :
    pairOf (pairText c) = some ⟨c.name, c.value⟩ ∧
      pairOf (32 :: pairText c) = some ⟨c.name, c.value⟩ := by
  obtain ⟨hname, htoken, hvalue, -⟩ := check_ok h
  have hname' : ∀ ch ∈ c.name, ch ≠ 32 ∧ ch ≠ 9 := fun ch hch =>
    (token_byte ch (List.all_eq_true.mp htoken ch hch)).2.2
  have hvalue' : ∀ ch ∈ c.value, ch ≠ 32 ∧ ch ≠ 9 := fun ch hch =>
    (value_byte ch (List.all_eq_true.mp hvalue ch hch)).2.2
  have htext : ∀ ch ∈ pairText c, ch ≠ 32 ∧ ch ≠ 9 :=
    List.forall_mem_append.mpr ⟨hname', List.forall_mem_cons.mpr ⟨by decide, hvalue'⟩⟩
  have hcut : cut 61 (pairText c) = (c.name, some c.value) :=
    Text.cut_append (not_mem_of_all htoken (by decide)) c.value
  have hread : (match cut 61 (pairText c) with
      | (_, none) => none
      | (name, some value) =>
        if (trimBlanks name).length = 0 then none
        else some (Pair.mk (trimBlanks name) (unquoted (trimBlanks value)))) =
      some ⟨c.name, c.value⟩ := by
    rw [hcut]
    dsimp only
    rw [(trimBlanks_id hname').1, (trimBlanks_id hvalue').1,
      unquoted_id (not_mem_of_all hvalue (by decide)), if_neg (mt List.length_eq_zero_iff.mp hname)]
  rw [pairOf, pairOf, (trimBlanks_id htext).1, (trimBlanks_id htext).2]
  exact ⟨hread, hread⟩

theorem intercalate_map {α : Type} (text : α → Bytes) (first : Bytes) (rest : List α) :
    (ascii "; ").intercalate (first :: rest.map text) =
      first ++ rest.flatMap fun a => ascii "; " ++ text a := by
  induction rest generalizing first with
  | nil => rw [List.map_nil, List.intercalate_singleton, List.flatMap_nil, List.append_nil]
  | cons a rest ih =>
    rw [List.map_cons, List.intercalate_cons_cons, ih, List.flatMap_cons, List.append_assoc,
      List.append_assoc]

theorem find_joined {cookies : List Cookie} (h : ∀ c ∈ cookies, check c = .ok ()) (name : Bytes) :
    find ((ascii "; ").intercalate (cookies.map pairText)) name =
      (cookies.find? fun c => c.name == name).map Cookie.value := by
  cases cookies with
  | nil => exact find_nil name
  | cons first rest =>
    obtain ⟨hfirst, hrest⟩ := List.forall_mem_cons.mp h
    have hwhole : ∀ run ∈ pairText first :: rest.map (32 :: pairText ·), 59 ∉ run := by
      refine List.forall_mem_cons.mpr ⟨pairText_whole hfirst, List.forall_mem_map.mpr fun c hc => ?_⟩
      exact List.not_mem_cons_of_ne_of_not_mem (by decide) (pairText_whole (hrest c hc))
    have hpairs : (pairText first :: rest.map (32 :: pairText ·)).filterMap pairOf =
        (first :: rest).map fun c => ⟨c.name, c.value⟩ := by
      rw [List.filterMap_cons_some (pairOf_pairText hfirst).1, List.filterMap_map, List.map_cons,
        ← List.filterMap_eq_map]
      refine congrArg (_ :: ·) (List.filterMap_congr fun c hc => ?_)
      exact (pairOf_pairText (hrest c hc)).2
    rw [List.map_cons, intercalate_map, append_flatMap, find_runs hwhole, hpairs, List.find?_map,
      Option.map_map]
    rfl

/-- A cookie that passes `check` is written as its name and value and each attribute it declares, once,
between the semicolons; its length is the one that is allocated; and in a header of such cookies the
first of a name is found. -/
theorem written_and_found :
    (∀ c, check c = .ok () →
      (write c).splitOn 59 = pairText c :: ((attributes c).map fun a => 32 :: attributeText a) ∧
      ((attributes c).map Prod.fst).Nodup ∧ (write c).length = lengthOf c) ∧
    ∀ cookies : List Cookie, (∀ c ∈ cookies, check c = .ok ()) → ∀ name,
      find ((ascii "; ").intercalate (cookies.map pairText)) name =
        (cookies.find? fun c => c.name == name).map Cookie.value :=
  ⟨fun c h => ⟨write_split h, attributes_once c, length_write c⟩, fun _ h name => find_joined h name⟩

end Nilo.Cookie
