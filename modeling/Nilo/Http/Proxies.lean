import Nilo.Std.Text
import Mathlib.Tactic.SplitIfs

/-!
# Which proxies may say who the client is (`http/proxies.zig`)

A proxy is trusted by the network its address is in. `clientFrom` walks the entries of every
`X-Forwarded-For` field from the right and answers with the first that no trusted proxy wrote its
own address into. `clientFrom_eq` is that walk over the plain list of entries, and
`clientFrom_unforged` what follows of it: nothing to the left of that entry has any influence.

`parse` stands for `std.Io.net.IpAddress.parse`.
-/

namespace Nilo.Proxies

open Text (Bytes ascii cut lastIndexOf trimBlanks parseUnsigned)

/-! ## Networks -/

/-- `std.Io.net.IpAddress`, as far as it is read here. -/
inductive IpAddress where
  | ip4 (bytes : Vector UInt8 4)
  | ip6 (bytes : Vector UInt8 16)
deriving DecidableEq

/-- A network: an address in its 128-bit form and how many leading bits of it matter. -/
structure Cidr where
  bytes : Vector UInt8 16
  bits : Nat
  within : bits ≤ 128
deriving DecidableEq

/-- The first `spare` bits of a byte. -/
def mask (spare : Nat) : UInt8 := ((0xff : UInt16) <<< UInt16.ofNat (8 - spare)).toUInt8

def Cidr.containsBytes (self : Cidr) (address : Vector UInt8 16) : Bool :=
  let whole := self.bits / 8
  let spare := self.bits % 8
  if self.bytes.toList.take whole != address.toList.take whole then false
  else if h : spare = 0 then true
  else
    have hwhole : whole < 16 := by
      have := self.within
      omega
    self.bytes[whole] &&& mask spare == address[whole] &&& mask spare

def v4mapped (four : Vector UInt8 4) : Vector UInt8 16 :=
  #v[0, 0, 0, 0, 0, 0, 0, 0, 0, 0, 0xff, 0xff, four[0], four[1], four[2], four[3]]

def IpAddress.mapped : IpAddress → Vector UInt8 16
  | .ip4 four => v4mapped four
  | .ip6 bytes => bytes

variable (parse : Bytes → Option IpAddress)

/-- An address as its 128-bit form, whichever way it was written. -/
def mapped (text : Bytes) : Option (Vector UInt8 16) := (parse text).map IpAddress.mapped

def Cidr.contains (self : Cidr) (address : Bytes) : Bool :=
  match mapped parse address with
  | none => false
  | some parsed => self.containsBytes parsed

def holds (rules : List Cidr) (address : Bytes) : Bool :=
  if rules.length = 0 then false
  else
    match mapped parse address with
    | none => false
    | some parsed => rules.any (·.containsBytes parsed)

/-! ## Written rules -/

inductive ParseError where
  | trustedProxyNotAnAddress
deriving DecidableEq, Repr

def IpAddress.ceiling : IpAddress → Nat
  | .ip4 _ => 32
  | .ip6 _ => 128

/-- Where the bits of a family begin in the 128-bit form. -/
def IpAddress.lead : IpAddress → Nat
  | .ip4 _ => 96
  | .ip6 _ => 0

theorem IpAddress.ceiling_add_lead (a : IpAddress) : a.ceiling + a.lead = 128 := by
  cases a <;> rfl

/-- `10.0.0.0/8`, or a bare address meaning only itself. -/
def parseOne (rule : Bytes) : Except ParseError Cidr :=
  let (address, prefixText) := cut 47 rule
  match parse address with
  | none => .error .trustedProxyNotAnAddress
  | some parsed =>
    let written :=
      match prefixText with
      | some text => parseUnsigned 256 text
      | none => some parsed.ceiling
    match written with
    | none => .error .trustedProxyNotAnAddress
    | some written =>
      if h : written > parsed.ceiling then .error .trustedProxyNotAnAddress
      else
        have hwithin : written + parsed.lead ≤ 128 := by
          have := parsed.ceiling_add_lead
          omega
        .ok ⟨parsed.mapped, written + parsed.lead, hwithin⟩

def named.loopback : List Bytes := [ascii "127.0.0.0/8", ascii "::1/128"]

def named.private_ : List Bytes :=
  [ascii "10.0.0.0/8", ascii "172.16.0.0/12", ascii "192.168.0.0/16", ascii "100.64.0.0/10",
    ascii "169.254.0.0/16", ascii "fe80::/10", ascii "fc00::/7"] ++ named.loopback

/-- The networks that one written rule stands for. -/
def parseInto (rule : Bytes) : Except ParseError (List Cidr) :=
  if rule = ascii "private" then named.private_.mapM (parseOne parse)
  else if rule = ascii "loopback" then named.loopback.mapM (parseOne parse)
  else (parseOne parse rule).map fun one => [one]

/-! ## The entries of the forwarded fields -/

def comma : UInt8 := 44

/-- The entries of every field, handed out from the rightmost. -/
structure Forwarded where
  fields : List Bytes
  /-- What is left of the field being walked. -/
  rest : Bytes
  /-- Fields already walked to their leftmost entry. -/
  done : Nat

def Forwarded.init (fields : List Bytes) : Forwarded := ⟨fields, fields.getLast?.getD [], 0⟩

/-- The loop of `next`; each turn of it but the last takes up another field. -/
def Forwarded.nextWithin : Nat → Forwarded → Option (Bytes × Forwarded)
  | 0, _ => none
  | n + 1, self =>
    if self.rest.length > 0 then
      match lastIndexOf comma self.rest with
      | some i => some (trimBlanks (self.rest.drop (i + 1)), { self with rest := self.rest.take i })
      | none => some (trimBlanks self.rest, { self with rest := [] })
    else if h : self.done + 1 ≥ self.fields.length then none
    else
      let done := self.done + 1
      nextWithin n { self with done := done, rest := self.fields[self.fields.length - 1 - done] }

/-- The next entry from the right, trimmed of the blanks around a comma. -/
def Forwarded.next (self : Forwarded) : Option (Bytes × Forwarded) :=
  self.nextWithin (self.fields.length - self.done + 1)

/-- The loop of `clientFrom`; every entry is at least a byte of the fields. -/
def clientWithin (rules : List Cidr) : Nat → Forwarded → Option Bytes
  | 0, _ => none
  | n + 1, entries =>
    match entries.next with
    | none => none
    | some (entry, entries) =>
      if entry.length > 0 && !holds parse rules entry then some entry
      else clientWithin rules n entries

def bytesOf (fields : List Bytes) : Nat := (fields.map List.length).sum

/-- The client's address, out of what proxies in `rules` wrote. `isLocal` is the source's `local`:
the connection came over a unix socket. -/
def clientFrom (rules : List Cidr) (peer : Bytes) (isLocal : Bool) (fields : List Bytes) :
    Option Bytes :=
  if !isLocal && !holds parse rules peer then none
  else clientWithin parse rules (bytesOf fields + 1) (Forwarded.init fields)

/-! ## Containment is a comparison of leading bits -/

/-- The bit at `i` of an address, counted from the front. -/
def bit (address : Vector UInt8 16) (i : Nat) : Bool :=
  (address.toList.getD (i / 8) 0).toNat.testBit (7 - i % 8)

theorem mask_testBit {spare : Nat} (h : spare < 8) {j : Nat} (hj : j < 8) :
    (mask spare).toNat.testBit j = decide (8 - spare ≤ j) := by
  have hall : ∀ spare : Fin 8, ∀ j : Fin 8,
      (mask spare).toNat.testBit j = decide (8 - spare.val ≤ j.val) := by decide
  exact hall ⟨spare, h⟩ ⟨j, hj⟩

theorem testBit_eq_false (b : UInt8) {j : Nat} (hj : 8 ≤ j) : b.toNat.testBit j = false :=
  Nat.testBit_lt_two_pow (Nat.lt_of_lt_of_le b.toNat_lt (Nat.pow_le_pow_right (by decide) hj))

theorem masked_eq {spare : Nat} (h : spare < 8) {x y : UInt8} :
    x &&& mask spare = y &&& mask spare ↔
      ∀ i < spare, x.toNat.testBit (7 - i) = y.toNat.testBit (7 - i) := by
  rw [← UInt8.toNat_inj, UInt8.toNat_and, UInt8.toNat_and]
  constructor
  · intro heq i hi
    have hbit := congrArg (·.testBit (7 - i)) heq
    simp only [Nat.testBit_and, mask_testBit h (show 7 - i < 8 by omega)] at hbit
    have hle : 8 - spare ≤ 7 - i := by omega
    simpa only [decide_eq_true hle, Bool.and_true] using hbit
  · intro hbits
    refine Nat.eq_of_testBit_eq fun j => ?_
    rw [Nat.testBit_and, Nat.testBit_and]
    by_cases hj : j < 8
    · rw [mask_testBit h hj]
      by_cases hle : 8 - spare ≤ j
      · have hbit := hbits (7 - j) (by omega)
        rw [show 7 - (7 - j) = j by omega] at hbit
        rw [hbit]
      · rw [decide_eq_false hle, Bool.and_false, Bool.and_false]
    · rw [testBit_eq_false x (by omega), testBit_eq_false y (by omega)]

/-- A byte is its eight bits. -/
theorem byte_eq {x y : UInt8} (h : ∀ i < 8, x.toNat.testBit (7 - i) = y.toNat.testBit (7 - i)) :
    x = y := by
  refine UInt8.toNat_inj.mp (Nat.eq_of_testBit_eq fun j => ?_)
  by_cases hj : j < 8
  · have hbit := h (7 - j) (by omega)
    rwa [show 7 - (7 - j) = j by omega] at hbit
  · rw [testBit_eq_false x (by omega), testBit_eq_false y (by omega)]

theorem getElem?_toList (a : Vector UInt8 16) {i : Nat} (hi : i < 16) :
    a.toList[i]? = some a[i] := by
  rw [List.getElem?_eq_getElem (by rwa [Vector.length_toList]), Vector.getElem_toList]

theorem getD_toList (a : Vector UInt8 16) {i : Nat} (hi : i < 16) : a.toList.getD i 0 = a[i] := by
  rw [List.getD_eq_getElem?_getD, getElem?_toList a hi, Option.getD_some]

theorem take_eq_iff {n : Nat} {a b : Vector UInt8 16} (hn : n ≤ 16) :
    a.toList.take n = b.toList.take n ↔ ∀ i < n, a.toList.getD i 0 = b.toList.getD i 0 := by
  constructor
  · intro heq i hi
    have hget := congrArg (·[i]?) heq
    simp only [List.getElem?_take_of_lt hi] at hget
    rw [List.getD_eq_getElem?_getD, List.getD_eq_getElem?_getD, hget]
  · intro hall
    refine List.ext_getElem? fun i => ?_
    by_cases hi : i < n
    · rw [List.getElem?_take_of_lt hi, List.getElem?_take_of_lt hi]
      have hget := hall i hi
      have hlt : i < 16 := by omega
      rw [getD_toList a hlt, getD_toList b hlt] at hget
      rw [getElem?_toList a hlt, getElem?_toList b hlt, hget]
    · rw [List.getElem?_take_eq_none (by omega), List.getElem?_take_eq_none (by omega)]

/-- A network holds the addresses that share its leading bits. -/
theorem Cidr.containsBytes_iff (self : Cidr) (address : Vector UInt8 16) :
    self.containsBytes address = true ↔ ∀ i < self.bits, bit self.bytes i = bit address i := by
  have hwithin := self.within
  have hwhole : self.bits / 8 ≤ 16 := by omega
  have hspare : self.bits % 8 < 8 := Nat.mod_lt _ (by decide)
  -- The whole bytes, and the bits of the byte behind them.
  have hleft : (∀ i < self.bits, bit self.bytes i = bit address i) ↔
      (∀ j < self.bits / 8, self.bytes.toList.getD j 0 = address.toList.getD j 0) ∧
        ∀ i < self.bits % 8, (self.bytes.toList.getD (self.bits / 8) 0).toNat.testBit (7 - i) =
          (address.toList.getD (self.bits / 8) 0).toNat.testBit (7 - i) := by
    constructor
    · intro hall
      refine ⟨fun j hj => byte_eq fun i hi => ?_, fun i hi => ?_⟩
      · have hbit := hall (8 * j + i) (by omega)
        rwa [bit, bit, show (8 * j + i) / 8 = j by omega, show (8 * j + i) % 8 = i by omega] at hbit
      · have hbit := hall (8 * (self.bits / 8) + i) (by omega)
        rwa [bit, bit, show (8 * (self.bits / 8) + i) / 8 = self.bits / 8 by omega,
          show (8 * (self.bits / 8) + i) % 8 = i by omega] at hbit
    · rintro ⟨hbytes, hbits⟩ i hi
      rw [bit, bit]
      by_cases hj : i / 8 < self.bits / 8
      · rw [hbytes _ hj]
      · have heq : i / 8 = self.bits / 8 := by omega
        rw [heq]
        exact hbits (i % 8) (by omega)
  rw [hleft, ← take_eq_iff hwhole, containsBytes]
  split_ifs with hne hzero
  · refine ⟨fun h => (by cases h), fun h => ?_⟩
    rw [h.1, bne_self_eq_false] at hne
    cases hne
  · have heq : self.bytes.toList.take (self.bits / 8) = address.toList.take (self.bits / 8) := by
      simpa only [bne_iff_ne, not_not] using hne
    refine ⟨fun _ => ⟨heq, fun i hi => ?_⟩, fun _ => rfl⟩
    rw [hzero] at hi
    cases hi
  · have heq : self.bytes.toList.take (self.bits / 8) = address.toList.take (self.bits / 8) := by
      simpa only [bne_iff_ne, not_not] using hne
    have hlt : self.bits / 8 < 16 := by omega
    rw [getD_toList _ hlt, getD_toList _ hlt, ← masked_eq hspare, beq_iff_eq]
    exact ⟨fun h => ⟨heq, h⟩, fun h => h.2⟩

/-! ## The walk, over the plain list of entries -/

/-- The entries between the commas of a field. -/
def entriesOf (field : Bytes) : List Bytes := (field.splitOn comma).map trimBlanks

/-- The entries of every field, read as one list in the order they were written. -/
def written (fields : List Bytes) : List Bytes := fields.flatMap entriesOf

theorem entriesOf_last {field : Bytes} {i : Nat} (h : lastIndexOf comma field = some i) :
    entriesOf field = entriesOf (field.take i) ++ [trimBlanks (field.drop (i + 1))] := by
  obtain ⟨heq, hmem⟩ := Text.lastIndexOf_some h
  have hsplit : field.splitOn comma = (field.take i).splitOn comma ++ [field.drop (i + 1)] := by
    conv_lhs => rw [heq]
    rw [List.splitOn_append_cons_of_beq _ _ (beq_self_eq_true comma), List.splitOn_eq_singleton hmem]
  rw [entriesOf, hsplit, List.map_append]
  rfl

theorem entriesOf_one {field : Bytes} (h : lastIndexOf comma field = none) :
    entriesOf field = [trimBlanks field] := by
  rw [entriesOf, List.splitOn_eq_singleton (Text.lastIndexOf_none h)]
  rfl

def shown (entries : List Bytes) : List Bytes := entries.filter (·.length > 0)

theorem shown_append (xs ys : List Bytes) : shown (xs ++ ys) = shown xs ++ shown ys :=
  List.filter_append ..

/-- The fields that are still to be taken up. -/
def Forwarded.ahead (self : Forwarded) : List Bytes :=
  self.fields.take (self.fields.length - 1 - self.done)

/-- What is still to be handed out, empty entries left aside. -/
def Forwarded.pending (self : Forwarded) : List Bytes :=
  (shown (written self.ahead ++ entriesOf self.rest)).reverse

def Forwarded.size (self : Forwarded) : Nat := bytesOf self.ahead + self.rest.length

/-- The field to the left of the one that is walked to its end. -/
def Forwarded.takeUp (self : Forwarded) (h : self.done + 1 < self.fields.length) : Forwarded :=
  { self with
    done := self.done + 1
    rest := self.fields[self.fields.length - 1 - (self.done + 1)] }

theorem Forwarded.ahead_takeUp {self : Forwarded} (h : self.done + 1 < self.fields.length) :
    self.ahead = (self.takeUp h).ahead ++ [(self.takeUp h).rest] := by
  rw [ahead, ahead, show self.fields.length - 1 - self.done =
    self.fields.length - 1 - (self.done + 1) + 1 by omega]
  exact List.take_succ_eq_append_getElem (by omega)

theorem entriesOf_nil : entriesOf [] = [[]] := rfl

theorem Forwarded.pending_takeUp {self : Forwarded} (hrest : self.rest = [])
    (h : self.done + 1 < self.fields.length) :
    self.pending = (self.takeUp h).pending ∧ self.size = (self.takeUp h).size := by
  refine ⟨?_, ?_⟩
  · rw [pending, pending, ahead_takeUp h, hrest, written, List.flatMap_append,
      List.flatMap_singleton, shown_append]
    exact congrArg List.reverse (List.append_nil _)
  · rw [size, size, ahead_takeUp h, hrest, bytesOf, List.map_append, List.sum_append]
    rfl

theorem Forwarded.pending_end {self : Forwarded} (hrest : self.rest = [])
    (h : self.done + 1 ≥ self.fields.length) : self.pending = [] := by
  have hahead : self.ahead = [] := by
    rw [ahead, show self.fields.length - 1 - self.done = 0 by omega, List.take_zero]
  rw [pending, hahead, hrest]
  rfl

theorem Forwarded.nextWithin_none {n : Nat} {self : Forwarded}
    (hn : self.fields.length - self.done < n) (h : self.nextWithin n = none) : self.pending = [] := by
  induction n generalizing self with
  | zero => cases hn
  | succ n ih =>
    rw [nextWithin] at h
    split_ifs at h with hrest hdone
    · cases hlast : lastIndexOf comma self.rest with
      | some i =>
        rw [hlast] at h
        cases h
      | none =>
        rw [hlast] at h
        cases h
    · exact pending_end (List.length_eq_zero_iff.mp (Nat.eq_zero_of_not_pos hrest)) hdone
    · have hnil := List.length_eq_zero_iff.mp (Nat.eq_zero_of_not_pos hrest)
      have hlt := Nat.lt_of_not_le hdone
      rw [(pending_takeUp hnil hlt).1]
      have hn' : self.fields.length - (self.done + 1) < n := by omega
      exact @ih (self.takeUp hlt) hn' h

/-- What is handed out is the rightmost of what was still to come. -/
theorem Forwarded.nextWithin_some {n : Nat} {self it : Forwarded} {entry : Bytes}
    (hn : self.fields.length - self.done < n) (h : self.nextWithin n = some (entry, it)) :
    self.pending = shown [entry] ++ it.pending ∧ it.size < self.size := by
  have hone (entry : Bytes) : (shown [entry]).reverse = shown [entry] := by
    by_cases hentry : entry.length > 0 <;> simp [shown, hentry]
  induction n generalizing self with
  | zero => cases hn
  | succ n ih =>
    rw [nextWithin] at h
    split_ifs at h with hrest hdone
    · cases hlast : lastIndexOf comma self.rest with
      | some i =>
        rw [hlast] at h
        cases h
        have hlength := congrArg List.length (Text.lastIndexOf_some hlast).1
        rw [List.length_append, List.length_cons] at hlength
        refine ⟨?_, ?_⟩
        · rw [pending, entriesOf_last hlast, ← List.append_assoc, shown_append, List.reverse_append,
            hone]
          rfl
        · show bytesOf self.ahead + (self.rest.take i).length < bytesOf self.ahead + self.rest.length
          omega
      | none =>
        rw [hlast] at h
        cases h
        refine ⟨?_, ?_⟩
        · rw [pending, entriesOf_one hlast, shown_append, List.reverse_append, hone]
          congr 1
          rw [pending, entriesOf_nil, shown_append]
          exact congrArg List.reverse (List.append_nil _).symm
        · show bytesOf self.ahead + 0 < bytesOf self.ahead + self.rest.length
          omega
    · have hnil := List.length_eq_zero_iff.mp (Nat.eq_zero_of_not_pos hrest)
      have hlt := Nat.lt_of_not_le hdone
      obtain ⟨hpending, hsize⟩ := pending_takeUp hnil hlt
      rw [hpending, hsize]
      have hn' : self.fields.length - (self.done + 1) < n := by omega
      exact @ih (self.takeUp hlt) hn' h

/-- An entry that no trusted proxy's address is in. -/
def isClient (rules : List Cidr) (entry : Bytes) : Bool :=
  entry.length > 0 && !holds parse rules entry

theorem find_shown (rules : List Cidr) (entries : List Bytes) :
    (shown entries).find? (isClient parse rules) = entries.find? (isClient parse rules) := by
  rw [shown, List.find?_filter]
  refine congrArg (List.find? · entries) (funext fun entry => ?_)
  rw [isClient]
  by_cases hentry : entry.length > 0 <;> simp [hentry]

theorem clientWithin_eq (rules : List Cidr) {n : Nat} {it : Forwarded} (h : it.size < n) :
    clientWithin parse rules n it = it.pending.find? (isClient parse rules) := by
  induction n generalizing it with
  | zero => cases h
  | succ n ih =>
    have hn : it.fields.length - it.done < it.fields.length - it.done + 1 := Nat.lt_succ_self _
    rw [clientWithin]
    cases hnext : it.next with
    | none => rw [Forwarded.nextWithin_none hn hnext, List.find?_nil]
    | some got =>
      obtain ⟨entry, it'⟩ := got
      obtain ⟨hpending, hsize⟩ := Forwarded.nextWithin_some hn hnext
      dsimp only
      rw [hpending, List.find?_append, find_shown]
      show (if isClient parse rules entry = true then _ else _) = _
      split_ifs with hclient
      · rw [List.find?_cons_of_pos hclient, Option.some_or]
      · rw [List.find?_cons_of_neg hclient, List.find?_nil, Option.none_or, ih (by omega)]

theorem pending_init (fields : List Bytes) :
    (Forwarded.init fields).pending = (shown (written fields)).reverse ∧
      (Forwarded.init fields).size = bytesOf fields := by
  rcases List.eq_nil_or_concat fields with rfl | ⟨front, last, heq⟩
  · exact ⟨rfl, rfl⟩
  · rw [List.concat_eq_append] at heq
    subst heq
    have hahead : (Forwarded.init (front ++ [last])).ahead = front := by
      rw [Forwarded.ahead, Forwarded.init]
      simp
    have hrest : (Forwarded.init (front ++ [last])).rest = last := by simp [Forwarded.init]
    refine ⟨?_, ?_⟩
    · rw [Forwarded.pending, hahead, hrest, written, written, List.flatMap_append,
        List.flatMap_singleton]
    · rw [Forwarded.size, hahead, hrest, bytesOf, bytesOf, List.map_append, List.sum_append]
      rfl

/-- The client is the first entry from the right that is not a trusted proxy. -/
theorem clientFrom_eq (rules : List Cidr) (peer : Bytes) (isLocal : Bool) (fields : List Bytes) :
    clientFrom parse rules peer isLocal fields =
      if !isLocal && !holds parse rules peer then none
      else (written fields).reverse.find? (isClient parse rules) := by
  obtain ⟨hpending, hsize⟩ := pending_init fields
  have hloop : clientWithin parse rules (bytesOf fields + 1) (Forwarded.init fields) =
      (written fields).reverse.find? (isClient parse rules) := by
    rw [clientWithin_eq parse rules (by omega), hpending, shown, ← List.filter_reverse]
    exact find_shown parse rules (written fields).reverse
  rw [clientFrom, hloop]

/-! ## What is to the left of the client -/

/-- The entries from the right, up to the first that is not a trusted proxy and with it. -/
def read (rules : List Cidr) (fields : List Bytes) : List Bytes :=
  let entries := (written fields).reverse
  entries.take (entries.findIdx (isClient parse rules) + 1)

theorem find_take {α : Type} (p : α → Bool) (l : List α) :
    (l.take (l.findIdx p + 1)).find? p = l.find? p := by
  induction l with
  | nil => rfl
  | cons x l ih =>
    by_cases hx : p x = true
    · rw [List.findIdx_cons, hx, cond_true, List.take_succ_cons, List.find?_cons_of_pos hx,
        List.find?_cons_of_pos hx]
    · rw [List.findIdx_cons, Bool.eq_false_iff.mpr hx, cond_false, List.take_succ_cons,
        List.find?_cons_of_neg hx, List.find?_cons_of_neg hx, ih]

/-- A client cannot say who it is. -/
theorem clientFrom_unforged (rules : List Cidr) (peer : Bytes) (isLocal : Bool) :
    (isLocal = false → holds parse rules peer = false →
      ∀ fields, clientFrom parse rules peer isLocal fields = none) ∧
    (∀ fields fields', read parse rules fields = read parse rules fields' →
      clientFrom parse rules peer isLocal fields = clientFrom parse rules peer isLocal fields') ∧
    ∀ (rule : Cidr) (address : Bytes), rule.contains parse address = true ↔
      ∃ parsed, mapped parse address = some parsed ∧
        ∀ i < rule.bits, bit rule.bytes i = bit parsed i := by
  refine ⟨?_, ?_, ?_⟩
  · intro hlocal hpeer fields
    rw [clientFrom, hlocal, hpeer]
    rfl
  · intro fields fields' hread
    have hfind := congrArg (List.find? (isClient parse rules)) hread
    rw [read, read, find_take, find_take] at hfind
    rw [clientFrom_eq, clientFrom_eq, hfind]
  · intro rule address
    rw [Cidr.contains]
    cases mapped parse address with
    | none => exact ⟨fun h => (by cases h), fun ⟨_, h, _⟩ => (by cases h)⟩
    | some parsed =>
      rw [rule.containsBytes_iff]
      exact ⟨fun h => ⟨parsed, rfl, h⟩, fun ⟨_, h, hbits⟩ => (by cases h; exact hbits)⟩

/-- The addresses of the example below, as they parse. -/
def fewAddresses (text : Bytes) : Option IpAddress :=
  if text = ascii "10.0.0.7" then some (.ip4 #v[10, 0, 0, 7])
  else if text = ascii "203.0.113.9" then some (.ip4 #v[203, 0, 113, 9])
  else if text = ascii "1.2.3.4" then some (.ip4 #v[1, 2, 3, 4])
  else none

theorem clientFrom_unforged_example :
    let rules : List Cidr := [⟨v4mapped #v[10, 0, 0, 0], 104, by decide⟩]
    clientFrom fewAddresses rules (ascii "203.0.113.9") false [ascii "1.2.3.4"] = none ∧
      clientFrom fewAddresses rules (ascii "10.0.0.7") false
          [ascii "1.2.3.4", ascii "203.0.113.9, 10.0.0.7"] =
        clientFrom fewAddresses rules (ascii "10.0.0.7") false [ascii "203.0.113.9,10.0.0.7"] := by
  refine ⟨(clientFrom_unforged fewAddresses _ _ false).1 rfl (by decide) _, ?_⟩
  refine (clientFrom_unforged fewAddresses _ _ false).2.1 _ _ ?_
  decide

end Nilo.Proxies
