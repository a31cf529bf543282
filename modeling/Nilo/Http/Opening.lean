import Mathlib.Data.List.Perm.Basic
import Nilo.Http.Tagged

/-!
# The order of a tagged union's keys (`Reader` in `http/jsonmark.zig`, `readFields` in `http/json.zig`)

An object that opens with its discriminator is read once (`readOpening`), any other is looked through
for it first (`readAnywhere`). Which of the two reads an object is a guess at its first bytes
(`opensWithTag`), and it does not matter: what is read goes by the members alone and not by their order
(`order_free`).
-/

namespace Nilo.Opening

open Text (Bytes ascii)
open Json (Json skip expect stringRest)
open Tagged (ParseError Options Members Payload TaggedUnion Value Options.inner fieldOf isKnown
  letsThrough findTag complete)

variable {β : Type}

/-! ## The unions it is for -/

/-- `singlePass`: a discriminator that is spelled one way in JSON, but for escapes that are not needed,
and structs that do not read themselves. (A field that is declared under the discriminator's name and
goes out under another one is refused there too; nothing here rests on it.) -/
def singlePass (u : TaggedUnion β) : Bool :=
  u.tag.all (fun ch => !(ch == 34 || ch == 92 || ch < 0x20)) &&
    u.variants.all fun v => match v.2 with
      | none => true
      | some p => p.own.isNone

/-- `checkTag`: no field goes out under the discriminator's name. -/
def checkTag (u : TaggedUnion β) : Bool :=
  u.tag != [] && u.variants.all fun v => match v.2 with
    | none => true
    | some p => p.fields.all fun f => f.wire != u.tag

/-! ## The readers -/

def isSpace (ch : UInt8) : Bool := ch == 32 || ch == 9 || ch == 13 || ch == 10

/-- The discriminator's key, as it is written without an escape. -/
def quoted (tag : Bytes) : Bytes := 34 :: (tag ++ [34])

def opensWithTag (tag input : Bytes) : Bool :=
  match input with
  | 123 :: rest =>
    if Text.startsWith (rest.dropWhile isSpace) (quoted tag) then
      match ((rest.dropWhile isSpace).drop (quoted tag).length).dropWhile isSpace with
      | 58 :: rest => (rest.dropWhile isSpace).head? == some 34
      | _ => false
    else false
  | _ => false

/-- The loop of `readFields`: a key that no field has is the discriminator again, or unknown. -/
def readMembers (p : Payload β) (tag : Bytes) (tagAgain : Bool) (options nested : Options) :
    List (Option β) → Members → Except ParseError (List (Option β))
  | seen, [] => .ok seen
  | seen, (name, value) :: rest =>
    match fieldOf p name with
    | some i =>
      if (seen.getD i none).isSome && options.duplicateFieldBehavior = .error then
        .error .duplicateField
      else match (p.fields.get i).read nested value with
        | .error e => .error e
        | .ok read =>
          if (seen.getD i none).isSome && options.duplicateFieldBehavior = .useFirst then
            readMembers p tag tagAgain options nested seen rest
          else readMembers p tag tagAgain options nested (seen.set i (some read)) rest
    | none =>
      if name = tag then
        if tagAgain then .error .duplicateField
        else readMembers p tag tagAgain options nested seen rest
      else if options.ignoreUnknownFields || p.ignoresUnknown then
        readMembers p tag tagAgain options nested seen rest
      else .error .unknownField

def readFields (p : Payload β) (tag : Bytes) (tagAgain : Bool) (members : Members)
    (options nested : Options) : Except ParseError (List β) :=
  match readMembers p tag tagAgain options nested (p.fields.map fun _ => none) members with
  | .error e => .error e
  | .ok seen => complete p.fields seen

/-- The keys beside a variant that carries nothing. -/
def readNothing (tag : Bytes) (first : Bool) (options : Options) : Members → Except ParseError Unit
  | [] => .ok ()
  | (name, _) :: rest =>
    if name = tag then
      if first then .error .duplicateField else readNothing tag first options rest
    else if options.ignoreUnknownFields then readNothing tag first options rest
    else .error .unknownField

/-- The variant `arm` names, of the members behind the discriminator when `first`, and of all of them
otherwise. -/
def variantOf (u : TaggedUnion β) (first : Bool) (arm : Bytes) (members : Members) (options : Options) :
    Except ParseError (Value β) :=
  match Tagged.variantOf u arm with
  | none => .error .invalidEnumTag
  | some (name, none) =>
    match readNothing u.tag first options members with
    | .error e => .error e
    | .ok () => .ok (name, none)
  | some (name, some p) =>
    match readFields p u.tag first members options options.inner with
    | .error e => .error e
    | .ok payload => .ok (name, some payload)

/-- One object, read once: its first key is taken to be the discriminator. -/
def readOpening (u : TaggedUnion β) (members : Members) (options : Options) :
    Except ParseError (Value β) :=
  match members with
  | (_, .string arm) :: rest => variantOf u true arm rest options
  | _ => .error .unexpectedToken

/-- An object whose discriminator may be anywhere. -/
def readAnywhere (u : TaggedUnion β) (members : Members) (options : Options) :
    Except ParseError (Value β) :=
  match findTag u.tag none members with
  | .error e => .error e
  | .ok none => .error .missingField
  | .ok (some arm) => variantOf u false arm members options

/-- The object that the bytes are, or start with. -/
def object (text : Bytes) : Option Members :=
  match Json.value (text.length + 1) text with
  | some (.object members, _) => some members
  | _ => none

/-- `Reader.parse` of a union that is read in one pass. Bytes that are no JSON are refused for what is
met first; here all of them alike. -/
def parse (u : TaggedUnion β) (text : Bytes) (options : Options) : Except ParseError (Value β) :=
  match Json.value (text.length + 1) text with
  | none => .error .syntaxError
  | some (.object members, _) =>
    if opensWithTag u.tag (skip text) then readOpening u members options
    else readAnywhere u members options
  | some _ => .error .unexpectedToken

/-! ## The guess -/

theorem dropWhile_isSpace (text : Bytes) : text.dropWhile isSpace = skip text := by
  rw [skip]
  congr 1
  funext ch
  rw [isSpace, Bool.or_right_comm]

theorem startsWith_split {text front : Bytes} (h : Text.startsWith text front = true) :
    text = front ++ text.drop front.length := by
  obtain ⟨rest, rfl⟩ := List.isPrefixOf_iff_prefix.mp h
  rw [List.drop_left]

/-- The key of a discriminator stands for itself. -/
theorem stringRest_literal {tag : Bytes}
    (h : tag.all (fun ch => !(ch == 34 || ch == 92 || ch < 0x20)) = true) (rest : Bytes) :
    stringRest (tag ++ 34 :: rest) = some (tag, rest) := by
  induction tag with
  | nil => exact Json.stringRest_quote rest
  | cons ch tag ih =>
    rw [List.all_cons, Bool.and_eq_true] at h
    obtain ⟨hch, htag⟩ := h
    simp only [Bool.not_eq_true', Bool.or_eq_false_iff, beq_eq_false_iff_ne, decide_eq_false_iff_not] at hch
    rw [List.cons_append, Json.stringRest_plain hch.1.1 hch.1.2 hch.2, ih htag]
    rfl

theorem opensWithTag_split {tag input : Bytes} (h : opensWithTag tag input = true) :
    ∃ opened keyed given, input = 123 :: opened ∧ skip opened = quoted tag ++ keyed ∧
      skip keyed = 58 :: given ∧ (skip given).head? = some 34 := by
  rw [opensWithTag.eq_def] at h
  split at h
  · next opened =>
    simp only [dropWhile_isSpace] at h
    split_ifs at h with hkey
    split at h
    · next given hgiven =>
      exact ⟨opened, _, given, rfl, startsWith_split hkey, hgiven, beq_iff_eq.mp h⟩
    · cases h
  · cases h

theorem expect_of_skip {text rest : Bytes} {ch : UInt8} (h : skip text = ch :: rest) :
    expect ch text = some rest := by
  rw [expect, h]
  exact if_pos rfl

theorem expect_none_of_skip {text rest : Bytes} {ch c : UInt8} (h : skip text = c :: rest) (hne : c ≠ ch) :
    expect ch text = none := by
  rw [expect, h]
  exact if_neg fun heq => hne (Option.some.inj heq)

/-- A value that opens with a quote is a string. -/
theorem value_string {n : Nat} {text rest : Bytes} {v : Json} (h : (skip text).head? = some 34)
    (hvalue : Json.value n text = some (v, rest)) : ∃ arm, v = .string arm := by
  obtain ⟨body, hbody⟩ := List.head?_eq_some_iff.mp h
  cases n with
  | zero => cases hvalue
  | succ n =>
    rw [Json.value, hbody] at hvalue
    dsimp only at hvalue
    rw [if_pos rfl] at hvalue
    obtain ⟨⟨arm, behind⟩, -, heq⟩ := Option.map_eq_some_iff.mp hvalue
    cases heq
    exact ⟨arm, rfl⟩

/-- The members of an object whose first key is `tag` as it stands, with a quote behind its colon. -/
theorem members_opening {n : Nat} {tag text keyed given rest : Bytes} {members : Members}
    (htag : tag.all (fun ch => !(ch == 34 || ch == 92 || ch < 0x20)) = true)
    (hkey : skip text = quoted tag ++ keyed) (hcolon : skip keyed = 58 :: given)
    (hquote : (skip given).head? = some 34) (h : Json.members n text = some (members, rest)) :
    ∃ arm others, members = (tag, .string arm) :: others := by
  cases n with
  | zero => cases h
  | succ n =>
    have hname : (expect 34 text).bind stringRest = some (tag, keyed) := by
      have hsplit : quoted tag ++ keyed = 34 :: (tag ++ 34 :: keyed) := by
        rw [quoted, List.cons_append, List.append_assoc, List.singleton_append]
      rw [expect_of_skip (hkey.trans hsplit), Option.bind_some]
      exact stringRest_literal htag keyed
    rw [Json.members, hname] at h
    dsimp only at h
    rw [expect_of_skip hcolon, Option.bind_some] at h
    cases hvalue : Json.value n given with
    | none =>
      rw [hvalue] at h
      cases h
    | some read =>
      obtain ⟨v, behind⟩ := read
      obtain ⟨arm, rfl⟩ := value_string hquote hvalue
      rw [hvalue] at h
      dsimp only at h
      split at h
      · obtain ⟨⟨others, _⟩, -, heq⟩ := Option.map_eq_some_iff.mp h
        cases heq
        exact ⟨arm, others, rfl⟩
      · obtain ⟨_, -, heq⟩ := Option.map_eq_some_iff.mp h
        cases heq
        exact ⟨arm, [], rfl⟩

/-- An object that the guess takes for one that opens with its discriminator does. -/
theorem opening_of_opensWithTag {u : TaggedUnion β} {text : Bytes} {members : Members}
    (hsingle : singlePass u = true) (hobject : object text = some members)
    (h : opensWithTag u.tag (skip text) = true) : ∃ arm rest, members = (u.tag, .string arm) :: rest := by
  obtain ⟨opened, keyed, given, hopen, hkey, hcolon, hquote⟩ := opensWithTag_split h
  have htag := (Bool.and_eq_true _ _ ▸ hsingle : _ ∧ _).1
  have hbrace : expect 125 opened = none := expect_none_of_skip hkey (by decide)
  rw [object, Json.value, hopen] at hobject
  dsimp only at hobject
  rw [if_neg (by decide), if_neg (by decide), if_pos rfl, hbrace] at hobject
  dsimp only at hobject
  cases hmembers : Json.members text.length opened with
  | none =>
    rw [hmembers] at hobject
    cases hobject
  | some read =>
    obtain ⟨all, behind⟩ := read
    rw [hmembers] at hobject
    cases hobject
    exact members_opening htag hkey hcolon hquote hmembers

/-! ## Members in any order -/

section
variable {u : TaggedUnion β} {p : Payload β} {tag : Bytes} {options nested : Options}
  {first second members : Members}

/-- The members under one key. -/
def keyed (tag : Bytes) (members : Members) : Members := members.filter fun m => m.1 == tag

theorem keyed_same {name : Bytes} {value : Json} (h : name = tag) :
    keyed tag ((name, value) :: members) = (name, value) :: keyed tag members :=
  List.filter_cons_of_pos (beq_iff_eq.mpr h)

theorem keyed_other {name : Bytes} {value : Json} (h : name ≠ tag) :
    keyed tag ((name, value) :: members) = keyed tag members :=
  List.filter_cons_of_neg fun heq => h (beq_iff_eq.mp heq)

/-- The discriminator's value, of an object that has it once and as a string. -/
def armIn (tag : Bytes) (members : Members) : Option Bytes :=
  match keyed tag members with
  | [(_, .string arm)] => some arm
  | _ => none

theorem findTag_other {found : Option Bytes} {name : Bytes} {value : Json} (h : name ≠ tag) :
    findTag tag found ((name, value) :: members) = findTag tag found members := if_pos h

theorem findTag_twice {name arm : Bytes} {value : Json} (h : name = tag) :
    findTag tag (some arm) ((name, value) :: members) = .error .duplicateField :=
  (if_neg (not_not.mpr h)).trans (if_pos (Option.some_ne_none arm))

theorem findTag_first {name arm : Bytes} (h : name = tag) :
    findTag tag none ((name, .string arm) :: members) = findTag tag (some arm) members :=
  (if_neg (not_not.mpr h)).trans (if_neg (not_not.mpr rfl))

/-- A discriminator that is no string. -/
theorem findTag_odd {name : Bytes} {value : Json} (h : name = tag) (hodd : ∀ arm, value ≠ .string arm) :
    findTag tag none ((name, value) :: members) = .error .unexpectedToken := by
  refine (if_neg (not_not.mpr h)).trans ((if_neg (not_not.mpr rfl)).trans ?_)
  cases value with
  | string arm => exact absurd rfl (hodd arm)
  | _ => rfl

theorem findTag_found (arm : Bytes) : (findTag tag (some arm) members).toOption =
    if keyed tag members = [] then some (some arm) else none := by
  induction members with
  | nil => rfl
  | cons m rest ih =>
    obtain ⟨name, value⟩ := m
    by_cases hname : name = tag
    · rw [findTag_twice hname, keyed_same hname, if_neg (List.cons_ne_nil _ _)]
      rfl
    · rw [findTag_other hname, ih, keyed_other hname]

theorem armIn_odd {name : Bytes} {value : Json} (h : name = tag) (hodd : ∀ arm, value ≠ .string arm) :
    armIn tag ((name, value) :: members) = none := by
  rw [armIn, keyed_same h]
  cases value with
  | string arm => exact absurd rfl (hodd arm)
  | _ => rfl

theorem findTag_eq : (findTag tag none members).toOption.join = armIn tag members := by
  induction members with
  | nil => rfl
  | cons m rest ih =>
    obtain ⟨name, value⟩ := m
    by_cases hname : name = tag
    · by_cases hodd : ∀ arm, value ≠ .string arm
      · rw [findTag_odd hname hodd, armIn_odd hname hodd]
        rfl
      · obtain ⟨arm, hvalue⟩ := not_forall.mp hodd
        obtain rfl := not_not.mp hvalue
        rw [findTag_first hname, findTag_found, armIn, keyed_same hname]
        cases keyed tag rest <;> rfl
    · rw [findTag_other hname, ih, armIn, armIn, keyed_other hname]

theorem armIn_iff {arm : Bytes} :
    armIn tag members = some arm ↔ keyed tag members = [(tag, .string arm)] := by
  have hkeys : ∀ m ∈ keyed tag members, m.1 = tag :=
    fun m hm => beq_iff_eq.mp (List.mem_filter.mp hm).2
  rw [armIn]
  constructor
  · intro h
    split at h
    · next name found heq =>
      cases h
      rw [heq] at hkeys
      have hname : name = tag := hkeys _ List.mem_cons_self
      rw [heq, hname]
    · cases h
  · intro h
    rw [h]

theorem armIn_perm (h : first.Perm second) : armIn tag first = armIn tag second := by
  have hkeyed : (keyed tag first).Perm (keyed tag second) := h.filter _
  refine Option.ext fun arm => ?_
  rw [armIn_iff, armIn_iff]
  constructor
  · intro hone
    rw [hone] at hkeyed
    exact List.perm_singleton.mp hkeyed.symm
  · intro hone
    rw [hone] at hkeyed
    exact List.perm_singleton.mp hkeyed

/-- What a member is to what was read: nothing where it is refused, and else the field that it fills, if
any. -/
def effect (p : Payload β) (tag : Bytes) (options nested : Options) (member : Bytes × Json) :
    Option (Option (Nat × β)) :=
  match fieldOf p member.1 with
  | some i => ((p.fields.get i).read nested member.2).toOption.map fun read => some (i.val, read)
  | none =>
    if member.1 = tag ∨ (options.ignoreUnknownFields || p.ignoresUnknown) = true then some none else none

/-- A field that is filled twice is refused. -/
def fill (seen : List (Option β)) : Option (Nat × β) → Option (List (Option β))
  | none => some seen
  | some (i, read) => if (seen.getD i none).isSome then none else some (seen.set i (some read))

def take (p : Payload β) (tag : Bytes) (options nested : Options) (seen : Option (List (Option β)))
    (member : Bytes × Json) : Option (List (Option β)) :=
  seen.bind fun seen => (effect p tag options nested member).bind (fill seen)

theorem foldl_take_none : members.foldl (take p tag options nested) none = none := by
  induction members with
  | nil => rfl
  | cons m rest ih => exact ih

theorem readMembers_eq (hdup : options.duplicateFieldBehavior = .error) (seen : List (Option β)) :
    (readMembers p tag false options nested seen members).toOption =
      members.foldl (take p tag options nested) (some seen) := by
  induction members generalizing seen with
  | nil => rfl
  | cons m rest ih =>
    obtain ⟨name, value⟩ := m
    rw [readMembers, List.foldl_cons, take, Option.bind_some, effect]
    dsimp only
    cases fieldOf p name with
    | none =>
      dsimp only
      by_cases hname : name = tag
      · rw [if_pos hname, if_neg Bool.false_ne_true, if_pos (Or.inl hname)]
        exact ih seen
      · rw [if_neg hname]
        by_cases hpass : (options.ignoreUnknownFields || p.ignoresUnknown) = true
        · rw [if_pos hpass, if_pos (Or.inr hpass)]
          exact ih seen
        · rw [if_neg hpass, if_neg (fun h => h.elim hname hpass), Option.bind_none, foldl_take_none]
          rfl
    | some i =>
      dsimp only
      rw [hdup]
      cases hread : (p.fields.get i).read nested value with
      | error e =>
        dsimp only [Except.toOption, Option.map_none, Option.bind_none]
        rw [foldl_take_none]
        split_ifs <;> rfl
      | ok read =>
        dsimp only [Except.toOption, Option.map_some, Option.bind_some, fill]
        cases (seen.getD i none).isSome with
        | true => exact foldl_take_none.symm
        | false => exact ih _

theorem fill_some {seen : List (Option β)} {i : Nat} (read : β) (h : (seen.getD i none).isSome = true) :
    fill seen (some (i, read)) = none := if_pos h

theorem fill_none {seen : List (Option β)} {i : Nat} (read : β) (h : (seen.getD i none).isSome = false) :
    fill seen (some (i, read)) = some (seen.set i (some read)) := if_neg (h ▸ Bool.false_ne_true)

theorem getD_set_ne {seen : List (Option β)} {i j : Nat} (h : i ≠ j) (o : Option β) :
    (seen.set i o).getD j none = seen.getD j none := by
  rw [List.getD_eq_getElem?_getD, List.getElem?_set_ne h, List.getD_eq_getElem?_getD]

/-- A field that was filled stays so, whatever it was filled with. -/
theorem fill_again (seen : List (Option β)) (i : Nat) (read other : β) :
    (fill seen (some (i, read))).bind (fun s => fill s (some (i, other))) =
      if i < seen.length then none else some seen := by
  split_ifs with hlt
  · cases hseen : (seen.getD i none).isSome with
    | true => rw [fill_some read hseen, Option.bind_none]
    | false =>
      have hset : ((seen.set i (some read)).getD i none).isSome = true := by
        rw [List.getD_eq_getElem?_getD, List.getElem?_set_self hlt]
        rfl
      rw [fill_none read hseen, Option.bind_some, fill_some other hset]
  · have hpast : ∀ o : Option β, seen.set i o = seen :=
      fun o => List.set_eq_of_length_le (Nat.le_of_not_lt hlt)
    have hseen : (seen.getD i none).isSome = false := by
      rw [List.getD_eq_getElem?_getD, List.getElem?_eq_none (Nat.le_of_not_lt hlt)]
      rfl
    rw [fill_none read hseen, hpast, Option.bind_some, fill_none other hseen, hpast]

/-- Two fields are filled in any order. -/
theorem fill_comm (seen : List (Option β)) (i j : Nat) (read other : β) :
    (fill seen (some (i, read))).bind (fun s => fill s (some (j, other))) =
      (fill seen (some (j, other))).bind fun s => fill s (some (i, read)) := by
  by_cases hij : i = j
  · subst hij
    rw [fill_again, fill_again]
  · cases hi : (seen.getD i none).isSome with
    | true =>
      rw [fill_some read hi, Option.bind_none]
      cases hj : (seen.getD j none).isSome with
      | true => rw [fill_some other hj, Option.bind_none]
      | false =>
        have hi' := (congrArg Option.isSome (getD_set_ne (Ne.symm hij) (some other))).trans hi
        rw [fill_none other hj, Option.bind_some, fill_some read hi']
    | false =>
      rw [fill_none read hi, Option.bind_some]
      cases hj : (seen.getD j none).isSome with
      | true =>
        have hj' := (congrArg Option.isSome (getD_set_ne hij (some read))).trans hj
        rw [fill_some other hj, Option.bind_none, fill_some other hj']
      | false =>
        have hi' := (congrArg Option.isSome (getD_set_ne (Ne.symm hij) (some other))).trans hi
        have hj' := (congrArg Option.isSome (getD_set_ne hij (some read))).trans hj
        rw [fill_none other hj, Option.bind_some, fill_none other hj', fill_none read hi',
          List.set_comm _ _ hij]

theorem take_comm (seen : Option (List (Option β))) (m k : Bytes × Json) :
    take p tag options nested (take p tag options nested seen m) k =
      take p tag options nested (take p tag options nested seen k) m := by
  cases seen with
  | none => rfl
  | some seen =>
    simp only [take, Option.bind_some, Option.bind_assoc]
    cases effect p tag options nested m with
    | none =>
      cases effect p tag options nested k with
      | none => rfl
      | some filled =>
        simp
    | some first =>
      cases effect p tag options nested k with
      | none => simp
      | some second =>
        rw [Option.bind_some, Option.bind_some]
        cases first with
        | none =>
          cases second with
          | none => rfl
          | some filled => simp [fill]
        | some first =>
          cases second with
          | none => simp [fill]
          | some second => exact fill_comm seen first.1 second.1 first.2 second.2

theorem readMembers_perm (hdup : options.duplicateFieldBehavior = .error) (h : first.Perm second)
    (seen : List (Option β)) : (readMembers p tag false options nested seen first).toOption =
      (readMembers p tag false options nested seen second).toOption := by
  rw [readMembers_eq hdup, readMembers_eq hdup]
  exact h.foldl_eq' (fun m _ k _ seen => take_comm seen m k) _

theorem readFields_eq (again : Bool) : (readFields p tag again members options nested).toOption =
    (readMembers p tag again options nested (p.fields.map fun _ => none) members).toOption.bind
      fun seen => (complete p.fields seen).toOption := by
  rw [readFields]
  cases readMembers p tag again options nested (p.fields.map fun _ => none) members <;> rfl

theorem readFields_perm (hdup : options.duplicateFieldBehavior = .error) (h : first.Perm second) :
    (readFields p tag false first options nested).toOption =
      (readFields p tag false second options nested).toOption := by
  rw [readFields_eq, readFields_eq, readMembers_perm hdup h]

theorem readNothing_eq : (readNothing tag false options members).toOption =
    if members.all (fun m => m.1 == tag || options.ignoreUnknownFields) then some () else none := by
  induction members with
  | nil => rfl
  | cons m rest ih =>
    obtain ⟨name, value⟩ := m
    rw [readNothing, List.all_cons]
    dsimp only
    by_cases hname : name = tag
    · rw [if_pos hname, beq_iff_eq.mpr hname]
      exact ih
    · rw [if_neg hname, beq_eq_false_iff_ne.mpr hname]
      cases hpass : options.ignoreUnknownFields with
      | true =>
        rw [hpass] at ih
        exact ih
      | false => rfl

theorem readNothing_perm (h : first.Perm second) : (readNothing tag false options first).toOption =
    (readNothing tag false options second).toOption := by
  rw [readNothing_eq, readNothing_eq, h.all_eq]

/-- What a variant carries, of the members that are there. -/
def carried (tag : Bytes) (again : Bool) (payload : Option (Payload β)) (members : Members)
    (options : Options) : Option (Option (List β)) :=
  match payload with
  | none => (readNothing tag again options members).toOption.map fun _ => none
  | some p => (readFields p tag again members options options.inner).toOption.map some

theorem variantOf_eq (again : Bool) (arm : Bytes) :
    (variantOf u again arm members options).toOption = (Tagged.variantOf u arm).bind fun v =>
      (carried u.tag again v.2 members options).map fun read => (v.1, read) := by
  rw [variantOf]
  rcases Tagged.variantOf u arm with _ | ⟨name, _ | p⟩
  · rfl
  · dsimp only [Option.bind_some, carried]
    cases readNothing u.tag again options members <;> rfl
  · dsimp only [Option.bind_some, carried]
    cases readFields p u.tag again members options options.inner <;> rfl

theorem readAnywhere_eq : (readAnywhere u members options).toOption =
    (armIn u.tag members).bind fun arm => (variantOf u false arm members options).toOption := by
  rw [readAnywhere, ← findTag_eq]
  rcases findTag u.tag none members with _ | _ | arm <;> rfl

theorem carried_perm {payload : Option (Payload β)} (hdup : options.duplicateFieldBehavior = .error)
    (h : first.Perm second) :
    carried tag false payload first options = carried tag false payload second options := by
  cases payload with
  | none => rw [carried, carried, readNothing_perm h]
  | some p => rw [carried, carried, readFields_perm hdup h]

/-- What is read of an object goes by its members and not by their order. -/
theorem readAnywhere_perm (hdup : options.duplicateFieldBehavior = .error) (h : first.Perm second) :
    (readAnywhere u first options).toOption = (readAnywhere u second options).toOption := by
  rw [readAnywhere_eq, readAnywhere_eq, armIn_perm h]
  congr 1
  funext arm
  rw [variantOf_eq, variantOf_eq]
  congr 1
  funext v
  rw [carried_perm hdup h]

/-! ## One pass or two -/

theorem readMembers_again (hfield : fieldOf p tag = none) (seen : List (Option β)) :
    (readMembers p tag true options nested seen members).toOption =
      if keyed tag members = [] then (readMembers p tag false options nested seen members).toOption
      else none := by
  induction members generalizing seen with
  | nil => rfl
  | cons m rest ih =>
    obtain ⟨name, value⟩ := m
    by_cases hname : name = tag
    · rw [keyed_same hname, if_neg (List.cons_ne_nil _ _), readMembers, hname, hfield]
      dsimp only
      rw [if_pos rfl, if_pos rfl]
      rfl
    · rw [keyed_other hname, readMembers, readMembers]
      cases fieldOf p name with
      | none =>
        dsimp only
        rw [if_neg hname, if_neg hname]
        by_cases hpass : (options.ignoreUnknownFields || p.ignoresUnknown) = true
        · rw [if_pos hpass, if_pos hpass]
          exact ih seen
        · rw [if_neg hpass, if_neg hpass]
          exact (ite_self none).symm
      | some i =>
        dsimp only
        by_cases hagain : ((seen.getD i none).isSome &&
            decide (options.duplicateFieldBehavior = .error)) = true
        · rw [if_pos hagain, if_pos hagain]
          exact (ite_self none).symm
        · rw [if_neg hagain, if_neg hagain]
          cases (p.fields.get i).read nested value with
          | error e => exact (ite_self none).symm
          | ok read =>
            dsimp only
            by_cases hkept : ((seen.getD i none).isSome &&
                decide (options.duplicateFieldBehavior = .useFirst)) = true
            · rw [if_pos hkept, if_pos hkept]
              exact ih seen
            · rw [if_neg hkept, if_neg hkept]
              exact ih _

theorem readNothing_again : (readNothing tag true options members).toOption =
    if keyed tag members = [] then (readNothing tag false options members).toOption else none := by
  induction members with
  | nil => rfl
  | cons m rest ih =>
    obtain ⟨name, value⟩ := m
    by_cases hname : name = tag
    · rw [keyed_same hname, if_neg (List.cons_ne_nil _ _), readNothing, if_pos hname, if_pos rfl]
      rfl
    · rw [keyed_other hname, readNothing, readNothing, if_neg hname, if_neg hname]
      cases options.ignoreUnknownFields with
      | true => exact ih
      | false => exact (ite_self none).symm

/-- Behind the discriminator what is read is what is read of the whole object, unless it is there
again. -/
theorem carried_behind {payload : Option (Payload β)} (arm : Bytes)
    (hfield : ∀ p, payload = some p → fieldOf p tag = none) :
    carried tag true payload members options =
      if keyed tag members = [] then carried tag false payload ((tag, .string arm) :: members) options
      else none := by
  cases payload with
  | none =>
    rw [carried, carried, readNothing_again, readNothing, if_pos rfl, if_neg Bool.false_ne_true]
    split_ifs <;> rfl
  | some p =>
    have hskip (seen : List (Option β)) :
        readMembers p tag false options options.inner seen ((tag, .string arm) :: members) =
          readMembers p tag false options options.inner seen members := by
      rw [readMembers, hfield p rfl]
      exact (if_pos rfl).trans (if_neg Bool.false_ne_true)
    rw [carried, carried, readFields_eq, readFields_eq, readMembers_again (hfield p rfl), hskip]
    split_ifs <;> rfl

theorem fieldOf_tag (htag : checkTag u = true) {v : Bytes × Option (Payload β)} (hv : v ∈ u.variants)
    (hp : v.2 = some p) : fieldOf p u.tag = none := by
  rw [checkTag, Bool.and_eq_true, List.all_eq_true] at htag
  have hfields := htag.2 v hv
  rw [hp] at hfields
  rw [fieldOf, List.findFinIdx?_eq_none_iff]
  intro f hf
  have hne : f.wire ≠ u.tag := bne_iff_ne.mp (List.all_eq_true.mp hfields f hf)
  rw [beq_eq_false_iff_ne.mpr hne, Bool.and_false]
  exact Bool.false_ne_true

/-- The reader that takes the discriminator first and the reader that looks for it read the same. -/
theorem readOpening_eq (htag : checkTag u = true) (arm : Bytes) (rest : Members) :
    (readOpening u ((u.tag, .string arm) :: rest) options).toOption =
      (readAnywhere u ((u.tag, .string arm) :: rest) options).toOption := by
  rw [readOpening, readAnywhere_eq, variantOf_eq, armIn, keyed_same rfl]
  cases hagain : keyed u.tag rest with
  | nil =>
    dsimp only
    rw [Option.bind_some, variantOf_eq]
    cases hv : Tagged.variantOf u arm with
    | none => rfl
    | some v =>
      have hmem := List.mem_of_find?_eq_some hv
      rw [Option.bind_some, Option.bind_some, carried_behind arm (fun p => fieldOf_tag htag hmem),
        if_pos hagain]
  | cons m more =>
    dsimp only
    rw [Option.bind_none]
    cases hv : Tagged.variantOf u arm with
    | none => rfl
    | some v =>
      have hmem := List.mem_of_find?_eq_some hv
      rw [Option.bind_some, carried_behind arm (fun p => fieldOf_tag htag hmem), hagain,
        if_neg (List.cons_ne_nil _ _)]
      rfl

/-! ## What is refused -/

/-- What is wrong with an object, wherever its keys stand. -/
inductive Wrong (u : TaggedUnion β) (options : Options) (members : Members) : Prop
  | noTag : keyed u.tag members = [] → Wrong u options members
  | tagTwice {m k : Bytes × Json} : [m, k].Sublist members → m.1 = u.tag → k.1 = u.tag →
      Wrong u options members
  | noVariant {arm : Bytes} : (u.tag, .string arm) ∈ members → Tagged.variantOf u arm = none →
      Wrong u options members
  | fieldTwice {arm name : Bytes} {p : Payload β} {i : Fin p.fields.length} {m k : Bytes × Json} :
      (u.tag, .string arm) ∈ members → Tagged.variantOf u arm = some (name, some p) →
      [m, k].Sublist members → fieldOf p m.1 = some i → fieldOf p k.1 = some i → Wrong u options members
  | missing {arm name : Bytes} {p : Payload β} {i : Fin p.fields.length} :
      (u.tag, .string arm) ∈ members → Tagged.variantOf u arm = some (name, some p) →
      (∀ m ∈ members, fieldOf p m.1 ≠ some i) → (p.fields.get i).absent = none → Wrong u options members
  | unknown {arm name : Bytes} {payload : Option (Payload β)} {m : Bytes × Json} :
      (u.tag, .string arm) ∈ members → Tagged.variantOf u arm = some (name, payload) → m ∈ members →
      isKnown u.tag payload m.1 = false → options.ignoreUnknownFields = false →
      letsThrough payload = false → Wrong u options members

theorem foldl_take_refused {m : Bytes × Json} (hm : m ∈ members)
    (h : effect p tag options nested m = none) (seen : Option (List (Option β))) :
    members.foldl (take p tag options nested) seen = none := by
  obtain ⟨front, back, rfl⟩ := List.append_of_mem hm
  have hnone (seen : Option (List (Option β))) : take p tag options nested seen m = none := by
    rw [take, h]
    exact Option.bind_fun_none seen
  rw [List.foldl_append, List.foldl_cons, hnone, foldl_take_none]

/-- Two values for one field. -/
theorem foldl_take_twice {i : Fin p.fields.length} {m k : Bytes × Json} (hsub : [m, k].Sublist members)
    (hm : fieldOf p m.1 = some i) (hk : fieldOf p k.1 = some i) {seen : List (Option β)}
    (hlt : i.val < seen.length) :
    members.foldl (take p tag options nested) (some seen) = none := by
  obtain ⟨rest, hperm⟩ := hsub.exists_perm_append
  rw [hperm.foldl_eq' (fun x _ y _ seen => take_comm seen x y), List.cons_append, List.foldl_cons,
    List.cons_append, List.foldl_cons, List.nil_append]
  suffices hnone : take p tag options nested (take p tag options nested (some seen) m) k = none by
    rw [hnone, foldl_take_none]
  rw [take, take, Option.bind_some, effect, effect, hm, hk]
  dsimp only
  cases (p.fields.get i).read nested m.2 with
  | error e => rfl
  | ok read =>
    cases (p.fields.get i).read nested k.2 with
    | error e =>
      show (fill seen (some (i.val, read))).bind (fun _ => none) = none
      exact Option.bind_fun_none _
    | ok other =>
      show (fill seen (some (i.val, read))).bind (fun s => fill s (some (i.val, other))) = none
      rw [fill_again, if_pos hlt]

/-- What is filled was filled before, or by one of the members. -/
theorem foldl_take_filled {seen out : List (Option β)} {i : Nat}
    (h : members.foldl (take p tag options nested) (some seen) = some out)
    (hout : (out.getD i none).isSome = true) : (seen.getD i none).isSome = true ∨
      ∃ m ∈ members, (fieldOf p m.1).map Fin.val = some i := by
  induction members generalizing seen with
  | nil =>
    cases h
    exact .inl hout
  | cons m rest ih =>
    rw [List.foldl_cons, take, Option.bind_some] at h
    cases hfield : fieldOf p m.1 with
    | none =>
      rw [effect, hfield] at h
      dsimp only at h
      split_ifs at h with hpass
      · rcases ih h with hseen | ⟨k, hk, hki⟩
        · exact .inl hseen
        · exact .inr ⟨k, List.mem_cons_of_mem m hk, hki⟩
      · rw [Option.bind_none, foldl_take_none] at h
        cases h
    | some j =>
      rw [effect, hfield] at h
      dsimp only at h
      by_cases hij : j.val = i
      · exact .inr ⟨m, List.mem_cons_self, by rw [hfield, Option.map_some, hij]⟩
      · cases hread : (p.fields.get j).read nested m.2 with
        | error e =>
          rw [hread] at h
          cases foldl_take_none.symm.trans h
        | ok read =>
          rw [hread] at h
          have h : rest.foldl (take p tag options nested) (fill seen (some (j.val, read))) = some out := h
          cases hseen : (seen.getD j none).isSome with
          | true =>
            rw [fill_some read hseen, foldl_take_none] at h
            cases h
          | false =>
            rw [fill_none read hseen] at h
            rcases ih h with hset | ⟨k, hk, hki⟩
            · rw [getD_set_ne hij] at hset
              exact .inl hset
            · exact .inr ⟨k, List.mem_cons_of_mem m hk, hki⟩

theorem complete_some {fields : List (Tagged.Field β)} {seen : List (Option β)} {out : List β}
    (h : (complete fields seen).toOption = some out) (i : Fin fields.length) :
    (seen.getD i none).isSome = true ∨ (fields.get i).absent.isSome = true := by
  induction fields generalizing seen out with
  | nil => exact i.elim0
  | cons f fields ih =>
    rw [complete] at h
    cases hfirst : (seen.head?.join).or f.absent with
    | none =>
      rw [hfirst] at h
      cases h
    | some read =>
      rw [hfirst] at h
      dsimp only at h
      cases hrest : complete fields seen.tail with
      | error e =>
        rw [hrest] at h
        cases h
      | ok rest =>
        induction i using Fin.cases with
        | zero =>
          have hsome : ((seen.head?.join).or f.absent).isSome = true := by rw [hfirst]; rfl
          rw [Option.isSome_or, Bool.or_eq_true] at hsome
          refine hsome.imp (fun hseen => ?_) id
          cases seen with
          | nil => cases hseen
          | cons o seen => exact hseen
        | succ i =>
          have htail := ih (congrArg Except.toOption hrest) i
          refine htail.imp (fun hseen => ?_) id
          cases seen with
          | nil => cases hseen
          | cons o seen => exact hseen

theorem armIn_of_mem {arm found : Bytes} (hmem : (tag, Json.string arm) ∈ members)
    (h : armIn tag members = some found) : found = arm := by
  have hkeyed : (tag, Json.string arm) ∈ keyed tag members :=
    List.mem_filter.mpr ⟨hmem, beq_self_eq_true tag⟩
  rw [armIn_iff.mp h, List.mem_singleton] at hkeyed
  cases hkeyed
  rfl

/-- An object that names a variant is read as that variant or not at all. -/
theorem readAnywhere_named {arm : Bytes} (hmem : (u.tag, Json.string arm) ∈ members)
    {v : Bytes × Option (Payload β)} (hv : Tagged.variantOf u arm = some v)
    (h : carried u.tag false v.2 members options = none) :
    (readAnywhere u members options).toOption = none := by
  rw [readAnywhere_eq]
  cases harm : armIn u.tag members with
  | none => rfl
  | some found =>
    obtain rfl := armIn_of_mem hmem harm
    rw [Option.bind_some, variantOf_eq, hv, Option.bind_some, h]
    rfl

/-- The payload is refused where its members are. -/
theorem carried_none (hdup : options.duplicateFieldBehavior = .error)
    (h : (members.foldl (take p tag options options.inner)
      (some (p.fields.map fun _ => none))).bind (fun seen => (complete p.fields seen).toOption) = none) :
    carried tag false (some p) members options = none := by
  rw [carried, readFields_eq, readMembers_eq hdup, h]
  rfl

theorem effect_unknown {m : Bytes × Json} (hknown : isKnown tag (some p) m.1 = false)
    (hopen : options.ignoreUnknownFields = false) (hthrough : p.ignoresUnknown = false) :
    effect p tag options nested m = none := by
  obtain ⟨hname, hfield⟩ := Bool.or_eq_false_iff.mp hknown
  have hfield : fieldOf p m.1 = none := Option.isNone_iff_eq_none.mp (Option.isSome_eq_false_iff.mp hfield)
  rw [effect, hfield]
  refine if_neg ?_
  rintro (heq | hpass)
  · exact absurd heq (beq_eq_false_iff_ne.mp hname)
  · rw [hopen, hthrough] at hpass
    cases hpass

/-- What is wrong is refused. -/
theorem readAnywhere_wrong (hdup : options.duplicateFieldBehavior = .error)
    (h : Wrong u options members) : (readAnywhere u members options).toOption = none := by
  cases h with
  | noTag hnone =>
    rw [readAnywhere_eq, armIn, hnone]
    rfl
  | @tagTwice m k hsub hm hk =>
    obtain ⟨name, value⟩ := m
    obtain ⟨again, other⟩ := k
    have hboth : (keyed u.tag [(name, value), (again, other)]).Sublist (keyed u.tag members) :=
      hsub.filter _
    rw [keyed_same hm, keyed_same hk] at hboth
    rw [readAnywhere_eq]
    cases harm : armIn u.tag members with
    | none => rfl
    | some found =>
      have hlength := hboth.length_le
      rw [armIn_iff.mp harm] at hlength
      exact absurd (show 2 ≤ 1 from hlength) (by decide)
  | noVariant hmem hv =>
    rw [readAnywhere_eq]
    cases harm : armIn u.tag members with
    | none => rfl
    | some found =>
      obtain rfl := armIn_of_mem hmem harm
      rw [Option.bind_some, variantOf_eq, hv]
      rfl
  | fieldTwice hmem hv hsub hm hk =>
    refine readAnywhere_named hmem hv (carried_none hdup ?_)
    rw [foldl_take_twice hsub hm hk (by rw [List.length_map]; exact Fin.isLt _)]
    rfl
  | @missing arm name p i hmem hv hno habsent =>
    refine readAnywhere_named hmem hv (carried_none hdup ?_)
    cases hseen : members.foldl (take p u.tag options options.inner)
        (some (p.fields.map fun _ => none)) with
    | none => rfl
    | some seen =>
      cases hout : (complete p.fields seen).toOption with
      | none => exact hout
      | some out =>
        rcases complete_some hout i with hfilled | hdefault
        · rcases foldl_take_filled hseen hfilled with hbefore | ⟨m, hm, hfield⟩
          · rw [List.getD_eq_getElem?_getD, List.getElem?_map] at hbefore
            cases hnone : p.fields[i.val]? <;> rw [hnone] at hbefore <;> cases hbefore
          · obtain ⟨j, hj, hval⟩ := Option.map_eq_some_iff.mp hfield
            exact absurd (hj.trans (congrArg some (Fin.ext hval))) (hno m hm)
        · rw [habsent] at hdefault
          cases hdefault
  | @unknown arm name payload m hmem hv hm hknown hopen hthrough =>
    refine readAnywhere_named hmem hv ?_
    cases payload with
    | none =>
      rw [carried, readNothing_eq, if_neg]
      · rfl
      · intro hall
        have hname := List.all_eq_true.mp hall m hm
        rw [hopen, Bool.or_false] at hname
        rw [isKnown, hname] at hknown
        cases hknown
    | some p =>
      refine carried_none hdup ?_
      rw [foldl_take_refused hm (effect_unknown hknown hopen hthrough)]
      rfl

/-- Whichever reader the first bytes of an object choose, what is read is what the two passes read. -/
theorem parse_eq {text : Bytes} (hsingle : singlePass u = true) (htag : checkTag u = true)
    (hobject : object text = some members) :
    (parse u text options).toOption = (readAnywhere u members options).toOption := by
  have hopen := opening_of_opensWithTag hsingle hobject
  rw [object] at hobject
  rw [parse]
  rcases hvalue : Json.value (text.length + 1) text with _ | ⟨value, behind⟩
  · rw [hvalue] at hobject
    cases hobject
  · rw [hvalue] at hobject
    cases value with
    | object all =>
      cases hobject
      dsimp only
      split_ifs with hguess
      · obtain ⟨arm, rest, rfl⟩ := hopen hguess
        exact readOpening_eq htag arm rest
      · rfl
    | _ => cases hobject

/-- An object is read alike with its keys in any order, in one pass or in two, and what is wrong with
it is refused wherever it stands. -/
theorem order_free {one two : Bytes} (hsingle : singlePass u = true) (htag : checkTag u = true)
    (hdup : options.duplicateFieldBehavior = .error) (hone : object one = some first)
    (htwo : object two = some second) :
    (first.Perm second → (parse u one options).toOption = (parse u two options).toOption) ∧
    (∀ arm rest, first = (u.tag, .string arm) :: rest →
      (readOpening u first options).toOption = (readAnywhere u first options).toOption) ∧
    (parse u one options).toOption = (readAnywhere u first options).toOption ∧
    (Wrong u options first → (parse u one options).toOption = none) := by
  have heq : (parse u one options).toOption = (readAnywhere u first options).toOption :=
    parse_eq hsingle htag hone
  refine ⟨fun hperm => ?_, ?_, heq, fun hwrong => heq.trans (readAnywhere_wrong hdup hwrong)⟩
  · rw [heq, parse_eq hsingle htag htwo]
    exact readAnywhere_perm hdup hperm
  · rintro arm rest rfl
    exact readOpening_eq htag arm rest

end

/-- A union of a variant with one field and one with none. -/
def lamps : TaggedUnion Json where
  tag := ascii "is"
  variants := [(ascii "set", some { fields := [{ wire := ascii "to", read := fun _ value => .ok value }] }),
    (ascii "off", none)]

theorem object_tagFirst : object (ascii "\x7b\"is\":\"set\",\"to\":\"on\"\x7d") =
    some [(ascii "is", .string (ascii "set")), (ascii "to", .string (ascii "on"))] := by
  simp [object, Json.value, Json.members, skip, expect, stringRest, Json.prepend, ascii]

theorem object_tagLast : object (ascii "\x7b\"to\":\"on\", \"is\":\"set\"\x7d") =
    some [(ascii "to", .string (ascii "on")), (ascii "is", .string (ascii "set"))] := by
  simp [object, Json.value, Json.members, skip, expect, stringRest, Json.prepend, ascii]

theorem order_free_lamps : (parse lamps (ascii "\x7b\"is\":\"set\",\"to\":\"on\"\x7d") {}).toOption =
    (parse lamps (ascii "\x7b\"to\":\"on\", \"is\":\"set\"\x7d") {}).toOption :=
  (order_free (by decide) (by decide) rfl object_tagFirst object_tagLast).1 (.swap _ _ _)

end Nilo.Opening
