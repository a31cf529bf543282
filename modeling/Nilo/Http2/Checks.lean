import Nilo.Hpack.Table
import Nilo.Http2.Request
import Nilo.Lib.Lanes
import Nilo.Std.Mem
import Mathlib.Tactic.IntervalCases

/-!
# One pass against a pass each (`scan` and `reference` in `http/h2conn.zig`)

The source holds `scan` to the checks as they were written before, one pass each (`Reference`), on
the lists its test makes. `scan_eq_reference` says it of every list. The test of a value reads
eight bytes at a time (`hasByte`), and is the test of each byte (`valueCleanWords_eq`).
-/

namespace Nilo.Http2

open Nilo.Text
open Lib (Lanes.word Lanes.ones Lanes.Marked)

/-! ## The test of a value, a word at a time -/

/-- `ones`: a one in every byte of a word. -/
def ones : UInt64 := 0x0101010101010101

/-- Whether `w` has a byte equal to `b`, eight at a time. -/
def hasByte (w : UInt64) (b : UInt8) : Bool :=
  let x := w ^^^ (ones * b.toUInt64)
  ((x - ones) &&& ~~~x &&& (ones <<< 7)) != 0

/-- The loop over the words of a value, and then over the bytes that are left. -/
def valueCleanFrom (value : Bytes) : Nat → Nat → Bool
  | 0, _ => true
  | n + 1, i =>
    if i + 8 ≤ value.length then
      let w := UInt64.ofNat (Mem.readLe ((value.drop i).take 8))
      if hasByte w 0 || hasByte w 13 || hasByte w 10 then false else valueCleanFrom value n (i + 8)
    else (value.drop i).all fun ch => !(ch == 0 || ch == 13 || ch == 10)

/-- `valueClean`, as the source reads it. -/
def valueCleanWords (value : Bytes) : Bool := valueCleanFrom value (value.length + 1) 0

theorem readLe_eq_word (bytes : Bytes) : Mem.readLe bytes = Lanes.word bytes := by
  induction bytes with
  | nil => rfl
  | cons b rest ih => rw [Mem.readLe, Lanes.word, ih]

/-- The high bits of the eight lanes. -/
theorem testBit_highs {j : Nat} (hj : j < 64) :
    (0x8080808080808080 : Nat).testBit j = decide (j % 8 = 7) := by
  revert hj
  revert j
  decide

/-- What is left under the mask is the high bits of the marked lanes. -/
theorem marks_ne_zero (x : UInt64) :
    ((x - ones) &&& ~~~x &&& (ones <<< 7)) ≠ 0 ↔
      ∃ i < 8, Lanes.Marked x.toNat 8 i := by
  have hx : x.toNat < 2 ^ 64 := x.toNat_lt
  have hbit (j : Nat) : ((x - ones) &&& ~~~x &&& (ones <<< 7)).toNat.testBit j
      = (decide (j < 64) && (x.toNat + (256 ^ 8 - Lanes.ones 8)).testBit j && !x.toNat.testBit j &&
        decide (j % 8 = 7)) := by
    by_cases hj : j < 64
    · have hmask : (ones <<< 7).toNat = 0x8080808080808080 := by decide
      have hnot : (~~~x).toNat = 2 ^ 64 - (x.toNat + 1) := by
        rw [UInt64.toNat_not, Nat.add_comm, Nat.sub_add_eq]
        rfl
      have htaken : (x - ones).toNat = (x.toNat + (256 ^ 8 - Lanes.ones 8)) % 2 ^ 64 := by
        rw [UInt64.toNat_sub, Nat.add_comm]
        rfl
      rw [UInt64.toNat_and, UInt64.toNat_and, hmask, hnot, htaken, Nat.testBit_and, Nat.testBit_and,
        testBit_highs hj, Nat.testBit_two_pow_sub_succ hx, Nat.testBit_mod_two_pow]
      rw [decide_eq_true hj, Bool.true_and, Bool.true_and]
    · rw [decide_eq_false hj, Bool.false_and, Bool.false_and, Bool.false_and]
      refine Nat.testBit_lt_two_pow (Nat.lt_of_lt_of_le (UInt64.toNat_lt _) ?_)
      exact Nat.pow_le_pow_right (by decide) (Nat.le_of_not_lt hj)
  constructor
  · intro hne
    have hnat : ((x - ones) &&& ~~~x &&& (ones <<< 7)).toNat ≠ 0 := by
      intro hzero
      exact hne (UInt64.toNat_inj.mp hzero)
    obtain ⟨j, hj⟩ := Nat.exists_testBit_of_ne_zero hnat
    rw [hbit, Bool.and_eq_true, Bool.and_eq_true, Bool.and_eq_true, decide_eq_true_eq,
      decide_eq_true_eq, Bool.not_eq_true'] at hj
    obtain ⟨⟨⟨hlt, hafter⟩, hbefore⟩, hlane⟩ := hj
    refine ⟨j / 8, by omega, ?_, ?_⟩
    · rwa [show 8 * (j / 8) + 7 = j by omega]
    · rwa [show 8 * (j / 8) + 7 = j by omega]
  · rintro ⟨i, hi, hafter, hbefore⟩ hzero
    have hj := hbit (8 * i + 7)
    rw [hzero, hafter, hbefore, decide_eq_true (by omega), decide_eq_true (by omega)] at hj
    rw [UInt64.toNat_zero, Nat.zero_testBit] at hj
    cases hj

/-- The borrow of a lane never makes the test wrong: a word is marked exactly where a byte of it is
the one looked for. -/
theorem hasByte_iff {bytes : Bytes} (hlength : bytes.length = 8) (b : UInt8) :
    hasByte (UInt64.ofNat (Mem.readLe bytes)) b = true ↔ b ∈ bytes := by
  have hword : (UInt64.ofNat (Mem.readLe bytes)).toNat = Lanes.word bytes := by
    have hlt := Lib.Lanes.word_lt bytes
    rw [readLe_eq_word, UInt64.toNat_ofNat', Nat.mod_eq_of_lt]
    rwa [hlength] at hlt
  have hspread : (ones * b.toUInt64).toNat = Lanes.ones 8 * b.toNat := by
    have hb : b.toNat < 256 := b.toNat_lt
    have hones : Lanes.ones 8 = 0x0101010101010101 := by decide
    rw [UInt64.toNat_mul, UInt8.toNat_toUInt64, hones]
    exact Nat.mod_eq_of_lt (by change 0x0101010101010101 * b.toNat < _; omega)
  have hx : (UInt64.ofNat (Mem.readLe bytes) ^^^ (ones * b.toUInt64)).toNat =
      Lanes.word (bytes.map (· ^^^ b)) := by
    rw [UInt64.toNat_xor, hword, hspread, ← hlength, Lib.Lanes.word_xor]
  have hmem : 0 ∈ bytes.map (· ^^^ b) ↔ b ∈ bytes := by
    rw [List.mem_map]
    constructor
    · rintro ⟨c, hc, hzero⟩
      rwa [UInt8.xor_eq_zero_iff.mp hzero] at hc
    · intro hb
      exact ⟨b, hb, UInt8.xor_self⟩
  have hmarked := Lib.Lanes.exists_marked (bytes.map (· ^^^ b))
  rw [List.length_map, hlength] at hmarked
  rw [hasByte, bne_iff_ne, marks_ne_zero, hx, hmarked, hmem]

/-- The three tests of a word, as one of its bytes. -/
theorem any_word {bytes : Bytes} (hlength : bytes.length = 8) :
    (hasByte (UInt64.ofNat (Mem.readLe bytes)) 0 || hasByte (UInt64.ofNat (Mem.readLe bytes)) 13 ||
      hasByte (UInt64.ofNat (Mem.readLe bytes)) 10) =
      !bytes.all fun ch => !(ch == 0 || ch == 13 || ch == 10) := by
  rw [Bool.eq_iff_iff, Bool.not_eq_true', List.all_eq_false]
  rw [Bool.or_eq_true, Bool.or_eq_true, hasByte_iff hlength, hasByte_iff hlength, hasByte_iff hlength]
  constructor
  · rintro ((hmem | hmem) | hmem)
    · exact ⟨0, hmem, by decide⟩
    · exact ⟨13, hmem, by decide⟩
    · exact ⟨10, hmem, by decide⟩
  · rintro ⟨ch, hch, hunclean⟩
    rw [Bool.not_eq_true, Bool.not_eq_false', Bool.or_eq_true, Bool.or_eq_true, beq_iff_eq,
      beq_iff_eq, beq_iff_eq] at hunclean
    rcases hunclean with (rfl | rfl) | rfl
    · exact Or.inl (Or.inl hch)
    · exact Or.inl (Or.inr hch)
    · exact Or.inr hch

theorem valueCleanFrom_eq (value : Bytes) (n : Nat) : ∀ {i : Nat}, value.length < i + n →
    valueCleanFrom value n i = (value.drop i).all fun ch => !(ch == 0 || ch == 13 || ch == 10) := by
  induction n with
  | zero =>
    intro i hfuel
    rw [valueCleanFrom, List.drop_of_length_le (by omega), List.all_nil]
  | succ n ih =>
    intro i hfuel
    by_cases hblock : i + 8 ≤ value.length
    · have hlength : ((value.drop i).take 8).length = 8 := by
        rw [List.length_take, List.length_drop]
        omega
      have hsplit := congrArg (List.all · fun ch => !(ch == 0 || ch == 13 || ch == 10))
        (List.take_append_drop 8 (value.drop i))
      rw [valueCleanFrom, if_pos hblock, ← hsplit, List.all_append, List.drop_drop, ← ih (by omega)]
      dsimp only
      rw [any_word hlength]
      cases (List.take 8 (value.drop i)).all fun ch => !(ch == 0 || ch == 13 || ch == 10)
      · rfl
      · rfl
    · rw [valueCleanFrom, if_neg hblock]

/-! ## The checks, a pass each -/

namespace Reference

/-- `validPseudo`: the four of the source, in its order. -/
def pseudoNames : List Bytes := [ascii ":method", ascii ":scheme", ascii ":path", ascii ":authority"]

/-- The loop of `validPseudo`, from what it has seen. -/
def validPseudoFrom (seen : List Bool) (regular : Bool) : List Field → Bool
  | [] => seen.getD 0 false && seen.getD 1 false && seen.getD 2 false
  | f :: rest =>
    if f.name.head? ≠ some 58 then validPseudoFrom seen true rest
    else if regular then false
    else match pseudoNames.idxOf? f.name with
      | none => false
      | some i => if seen.getD i false then false else validPseudoFrom (seen.set i true) regular rest

def validPseudo (fields : List Field) : Bool :=
  validPseudoFrom (List.replicate pseudoNames.length false) false fields

/-- The names that belong to a connection. -/
def connectionNames : List Bytes :=
  [ascii "connection", ascii "keep-alive", ascii "proxy-connection", ascii "transfer-encoding",
    ascii "upgrade"]

def validConnectionFields (fields : List Field) : Bool :=
  fields.all fun f =>
    f.name.head?.all (· == 58) || (!connectionNames.contains f.name &&
      !(f.name == ascii "te" && !eqlIgnoreCase f.value (ascii "trailers")))

/-- The bytes a name may have, as the switch of `validField` lists them. -/
def nameByte (ch : UInt8) : Bool :=
  (97 ≤ ch && ch ≤ 122) || (48 ≤ ch && ch ≤ 57) ||
    [33, 35, 36, 37, 38, 39, 42, 43, 45, 46, 94, 95, 96, 124, 126].contains ch

def validField (f : Field) : Bool :=
  match f.name with
  | [] => false
  | first :: tail =>
    let name := if first == 58 then tail else first :: tail
    !name.isEmpty && name.all nameByte && f.value.all fun ch => !(ch == 0 || ch == 13 || ch == 10)

def first (fields : List Field) (name : Bytes) : Option Bytes := fieldOf fields name

end Reference

/-! ## The two agree -/

/-- A name the decoder took from the static table is one of the table's. -/
def FromTable (fields : List Field) : Prop :=
  ∀ f ∈ fields, f.static = true → f.name ∈ Hpack.staticTable.map Hpack.Field.name

instance (fields : List Field) : Decidable (FromTable fields) :=
  inferInstanceAs (Decidable (∀ f ∈ fields, f.static = true → f.name ∈ Hpack.staticTable.map Hpack.Field.name))

theorem lowerToken_eq (ch : UInt8) : lowerToken ch = Reference.nameByte ch := by
  revert ch
  exact Text.forall_byte (by decide)

/-- What the scan asks of a name it reads. -/
def nameRead (name : Bytes) : Bool :=
  match name with
  | [] => false
  | first :: tail =>
    let token := if first == 58 then tail else first :: tail
    token.all lowerToken && !(first == 58 && tail.isEmpty)

theorem nameRead_static : ∀ name ∈ Hpack.staticTable.map Hpack.Field.name, nameRead name = true := by
  decide

theorem validField_eq (f : Field) : Reference.validField f = (nameRead f.name && valueClean f.value) := by
  have hclean : (f.value.all fun ch => !(ch == 0 || ch == 13 || ch == 10)) = valueClean f.value := by
    rw [valueClean]
    congr 1
    funext ch
    rw [Bool.not_or, Bool.not_or]
    rfl
  have htoken : Reference.nameByte = lowerToken := (funext lowerToken_eq).symm
  rw [Reference.validField, hclean, htoken]
  cases f.name with
  | nil => rfl
  | cons first tail =>
    dsimp only [nameRead]
    by_cases hpseudo : (first == 58) = true
    · rw [hpseudo, if_pos rfl, Bool.true_and, Bool.and_comm (!tail.isEmpty)]
    · rw [if_neg hpseudo, Bool.eq_false_iff.mpr hpseudo, Bool.false_and, Bool.not_false,
        Bool.and_true, List.isEmpty_cons, Bool.not_false, Bool.true_and]

section Pass

variable {f : Field} {rest : List Field} {r : Scan} {seen : Seen} {regular : Bool}

def Pseudo.name : Pseudo → Bytes
  | .method => ascii ":method"
  | .scheme => ascii ":scheme"
  | .path => ascii ":path"
  | .authority => ascii ":authority"

/-- Its place in the list of `validPseudo`. -/
def Pseudo.index : Pseudo → Nat
  | .method => 0
  | .scheme => 1
  | .path => 2
  | .authority => 3

/-- What `validPseudo` has seen, where the pass has seen this. -/
def Seen.list (seen : Seen) : List Bool := [seen.method, seen.scheme, seen.path, seen.authority]

theorem pseudoOf_name (bit : Pseudo) : pseudoOf bit.name = some bit := by
  cases bit with
  | method => rfl
  | scheme => rfl
  | path => rfl
  | authority => rfl

theorem pseudoOf_some {name : Bytes} {bit : Pseudo} (h : pseudoOf name = some bit) : name = bit.name := by
  rw [pseudoOf] at h
  split_ifs at h with hmethod hscheme hpath hauthority
  · cases h
    exact hmethod
  · cases h
    exact hscheme
  · cases h
    exact hpath
  · cases h
    exact hauthority

/-- The source's switch on a pseudo-header's name finds it where the list has it. -/
theorem idxOf?_pseudoNames (name : Bytes) :
    Reference.pseudoNames.idxOf? name = (pseudoOf name).map Pseudo.index := by
  cases hbit : pseudoOf name with
  | some bit =>
    rw [pseudoOf_some hbit]
    cases bit with
    | method => rfl
    | scheme => rfl
    | path => rfl
    | authority => rfl
  | none =>
    rw [Option.map_none, List.idxOf?_eq_none_iff]
    intro hmem
    rw [Reference.pseudoNames, List.mem_cons, List.mem_cons, List.mem_cons, List.mem_singleton] at hmem
    rcases hmem with rfl | rfl | rfl | rfl
    · cases hbit
    · cases hbit
    · cases hbit
    · cases hbit

theorem Seen.getD_list (seen : Seen) (bit : Pseudo) : seen.list.getD bit.index false = seen.has bit := by
  cases bit with
  | method => rfl
  | scheme => rfl
  | path => rfl
  | authority => rfl

theorem Seen.list_add (seen : Seen) (bit : Pseudo) : (seen.add bit).list = seen.list.set bit.index true := by
  cases bit with
  | method => rfl
  | scheme => rfl
  | path => rfl
  | authority => rfl

theorem fieldOf_cons (name : Bytes) :
    fieldOf (f :: rest) name = if f.name = name then some f.value else fieldOf rest name := by
  rw [fieldOf, List.find?_cons, fieldOf]
  by_cases hname : f.name = name
  · rw [if_pos hname, beq_iff_eq.mpr hname]
    rfl
  · rw [if_neg hname, beq_eq_false_iff_ne.mpr hname]

/-- What the pass has found once it has read a pseudo-header that is one of the four. -/
def Scan.sees (r : Scan) (bit : Pseudo) (value : Bytes) (misplaced : Bool) : Scan :=
  { r with
    pseudoOk := r.pseudoOk && !misplaced
    method := if bit = .method ∧ r.method = none then some value else r.method
    path := if bit = .path ∧ r.path = none then some value else r.path }

/-- What it has found once it has read a regular field. -/
def Scan.reads (r : Scan) (f : Field) : Scan :=
  { r with
    connectionOk := r.connectionOk && !forbidden f
    hasLength := r.hasLength || f.name == ascii "content-length" }

/-- One turn of the pass: it stops at the first field that is not valid, and a name of the static
table is valid unread. -/
theorem scanFrom_cons (hstatic : f.static = true → nameRead f.name = true) :
    scanFrom r seen regular (f :: rest) =
      if Reference.validField f = false then { r with fieldsOk := false }
      else if f.name.head? = some 58 then
        match pseudoOf f.name with
        | none => scanFrom { r with pseudoOk := false } seen regular rest
        | some bit =>
          scanFrom (r.sees bit f.value (regular || seen.has bit)) (seen.add bit) regular rest
      else scanFrom (r.reads f) seen true rest := by
  rw [validField_eq, scanFrom]
  cases hname : f.name with
  | nil => rfl
  | cons first tail =>
    rw [hname] at hstatic
    have hstop : (!f.static && (!(if (first == 58) = true then tail else first :: tail).all lowerToken ||
        (first == 58 && tail.isEmpty))) = !nameRead (first :: tail) := by
      rw [nameRead, Bool.not_and, Bool.not_not]
      cases hread : f.static with
      | false => rfl
      | true =>
        have hok := hstatic hread
        rw [nameRead, Bool.and_eq_true, Bool.not_eq_true'] at hok
        rw [hok.1, hok.2]
        rfl
    dsimp only
    rw [hstop]
    cases nameRead (first :: tail) with
    | false => rfl
    | true =>
      cases valueClean f.value with
      | false => rfl
      | true =>
        have hhead : (first :: tail).head? = some 58 ↔ (first == 58) = true := by
          rw [List.head?_cons, Option.some_inj, beq_iff_eq]
        by_cases hpseudo : (first == 58) = true
        · simp only [Bool.not_true, Bool.false_eq_true, Bool.and_self, Bool.true_eq_false, if_false,
            if_pos hpseudo, if_pos (hhead.mpr hpseudo)]
          cases pseudoOf (first :: tail) with
          | none => rfl
          | some bit =>
            dsimp only
            congr 1
            rw [Scan.sees]
            cases regular || seen.has bit with
            | false => cases bit <;> cases r <;> simp <;> split_ifs <;> rfl
            | true => cases bit <;> cases r <;> simp <;> split_ifs <;> rfl
        · simp only [Bool.not_true, Bool.false_eq_true, Bool.and_self, Bool.true_eq_false, if_false,
            if_neg hpseudo, if_neg fun h => hpseudo (hhead.mp h)]
          congr 1
          rw [Scan.reads, hname]
          cases forbidden f with
          | false =>
            by_cases hlength : first :: tail = ascii "content-length"
            · simp [if_pos hlength, beq_iff_eq.mpr hlength]
            · simp [if_neg hlength, beq_eq_false_iff_ne.mpr hlength]
          | true =>
            by_cases hlength : first :: tail = ascii "content-length"
            · simp [if_pos hlength, beq_iff_eq.mpr hlength]
            · simp [if_neg hlength, beq_eq_false_iff_ne.mpr hlength]

theorem not_head_of_regular (bit : Pseudo) (h : f.name.head? ≠ some 58) : f.name ≠ bit.name := by
  intro hname
  rw [hname] at h
  cases bit with
  | method => exact h rfl
  | scheme => exact h rfl
  | path => exact h rfl
  | authority => exact h rfl

/-- The name of a regular field is not a pseudo-header's, nor the other way about. -/
theorem not_contentLength (h : f.name.head? = some 58) : f.name ≠ ascii "content-length" := by
  intro hname
  rw [hname] at h
  exact absurd h (by decide)

/-- What the pass says of fields that are all valid, from what it has found before them. -/
def Scan.agreed (r : Scan) (seen : Seen) (regular : Bool) (fields : List Field) : Scan where
  method := r.method.or (Reference.first fields Pseudo.method.name)
  path := r.path.or (Reference.first fields Pseudo.path.name)
  fieldsOk := r.fieldsOk
  pseudoOk := r.pseudoOk && Reference.validPseudoFrom seen.list regular fields
  connectionOk := r.connectionOk && Reference.validConnectionFields fields
  hasLength := r.hasLength || (Reference.first fields (ascii "content-length")).isSome

theorem agreed_nil : scanFrom r seen regular [] = r.agreed seen regular [] := by
  have hseen : Reference.validPseudoFrom seen.list regular [] =
      (seen.method && seen.scheme && seen.path) := rfl
  rw [scanFrom, Scan.agreed, hseen]
  cases seen.method && seen.scheme && seen.path with
  | false => simp [Reference.first, fieldOf, Reference.validConnectionFields]
  | true => simp [Reference.first, fieldOf, Reference.validConnectionFields]

theorem first_cons (name : Bytes) : Reference.first (f :: rest) name =
    if f.name = name then some f.value else Reference.first rest name := fieldOf_cons name

theorem first_ne {name : Bytes} (h : f.name ≠ name) :
    Reference.first (f :: rest) name = Reference.first rest name := by
  rw [first_cons, if_neg h]

theorem validConnection_pseudo (hpseudo : f.name.head? = some 58) :
    Reference.validConnectionFields (f :: rest) = Reference.validConnectionFields rest := by
  rw [Reference.validConnectionFields, List.all_cons, hpseudo]
  rfl

theorem validPseudo_pseudo {seen : List Bool} (hpseudo : f.name.head? = some 58) :
    Reference.validPseudoFrom seen regular (f :: rest) =
      if regular then false
      else match (pseudoOf f.name).map Pseudo.index with
        | none => false
        | some i =>
          if seen.getD i false then false
          else Reference.validPseudoFrom (seen.set i true) regular rest := by
  rw [Reference.validPseudoFrom, if_neg (not_not_intro hpseudo), idxOf?_pseudoNames]

/-- A pseudo-header that is not one of the four. -/
theorem agreed_unknown (hpseudo : f.name.head? = some 58) (hbit : pseudoOf f.name = none) :
    ({ r with pseudoOk := false } : Scan).agreed seen regular rest =
      r.agreed seen regular (f :: rest) := by
  have hname (bit : Pseudo) : f.name ≠ bit.name := by
    intro hname
    rw [hname, pseudoOf_name] at hbit
    cases hbit
  have hvalid : Reference.validPseudoFrom seen.list regular (f :: rest) = false := by
    rw [validPseudo_pseudo hpseudo, hbit]
    cases regular with
    | false => rfl
    | true => rfl
  rw [Scan.agreed, Scan.agreed, hvalid, first_ne (hname .method), first_ne (hname .path),
    first_ne (not_contentLength hpseudo), validConnection_pseudo hpseudo, Bool.false_and,
    Bool.and_false]

/-- The first `:method` or `:path` is taken, and no other. -/
theorem sees_or (bit got : Pseudo) (held : Option Bytes) (hname : f.name = bit.name) :
    (if bit = got ∧ held = none then some f.value else held).or (Reference.first rest got.name) =
      held.or (Reference.first (f :: rest) got.name) := by
  rw [first_cons, hname]
  by_cases hgot : bit = got
  · rw [hgot, if_pos rfl]
    cases held with
    | none => rw [if_pos ⟨rfl, rfl⟩, Option.some_or, Option.none_or]
    | some value => rw [if_neg (fun h => nomatch h.2), Option.some_or, Option.some_or]
  · have hdiffer : bit.name ≠ got.name := by
      intro heq
      have hsame := congrArg pseudoOf heq
      rw [pseudoOf_name, pseudoOf_name] at hsame
      exact hgot (Option.some_inj.mp hsame)
    rw [if_neg (fun h => hgot h.1), if_neg hdiffer]

theorem agreed_pseudo (hpseudo : f.name.head? = some 58) {bit : Pseudo} (hbit : pseudoOf f.name = some bit) :
    (r.sees bit f.value (regular || seen.has bit)).agreed (seen.add bit) regular rest =
      r.agreed seen regular (f :: rest) := by
  have hname := pseudoOf_some hbit
  have hvalid : (!(regular || seen.has bit) && Reference.validPseudoFrom (seen.add bit).list regular rest) =
      Reference.validPseudoFrom seen.list regular (f :: rest) := by
    rw [validPseudo_pseudo hpseudo, hbit, Option.map_some, Seen.list_add]
    dsimp only
    rw [Seen.getD_list]
    cases regular with
    | true => rfl
    | false =>
      cases seen.has bit with
      | true => rfl
      | false => rfl
  rw [Scan.agreed, Scan.agreed, ← hvalid, Scan.sees, validConnection_pseudo hpseudo,
    first_ne (not_contentLength hpseudo)]
  dsimp only
  rw [sees_or bit .method r.method hname, sees_or bit .path r.path hname, Bool.and_assoc]

theorem validConnection_regular (hregular : f.name.head? ≠ some 58) :
    Reference.validConnectionFields (f :: rest) =
      (!forbidden f && Reference.validConnectionFields rest) := by
  have hnames : Reference.connectionNames.contains f.name =
      [ascii "upgrade", ascii "connection", ascii "keep-alive", ascii "proxy-connection",
        ascii "transfer-encoding"].contains f.name := by
    rw [Bool.eq_iff_iff, List.contains_iff_mem, List.contains_iff_mem]
    exact List.Perm.mem_iff (by decide)
  rw [Reference.validConnectionFields, List.all_cons, hnames, forbidden, Bool.not_or,
    Bool.and_comm (!_) (!List.contains _ _)]
  cases hname : f.name with
  | nil => rfl
  | cons first tail =>
    have hfirst : (first == 58) = false := by
      rw [hname, List.head?_cons] at hregular
      exact beq_eq_false_iff_ne.mpr fun h => hregular (congrArg some h)
    rw [List.head?_cons, Option.all_some, hfirst, Bool.false_or]
    rfl

theorem agreed_regular (hregular : f.name.head? ≠ some 58) :
    (r.reads f).agreed seen true rest = r.agreed seen regular (f :: rest) := by
  have hvalid : Reference.validPseudoFrom seen.list regular (f :: rest) =
      Reference.validPseudoFrom seen.list true rest := by
    rw [Reference.validPseudoFrom, if_pos hregular]
  have hlength : (r.hasLength || f.name == ascii "content-length" ||
      (Reference.first rest (ascii "content-length")).isSome) =
      (r.hasLength || (Reference.first (f :: rest) (ascii "content-length")).isSome) := by
    rw [first_cons]
    by_cases hname : f.name = ascii "content-length"
    · rw [if_pos hname, beq_iff_eq.mpr hname, Bool.or_assoc, Bool.true_or, Option.isSome_some]
    · rw [if_neg hname, beq_eq_false_iff_ne.mpr hname, Bool.or_false]
  have hconnection : (r.connectionOk && !forbidden f && Reference.validConnectionFields rest) =
      (r.connectionOk && Reference.validConnectionFields (f :: rest)) := by
    rw [validConnection_regular hregular, Bool.and_assoc]
  rw [Scan.agreed, Scan.agreed, hvalid, Scan.reads, first_ne (not_head_of_regular .method hregular),
    first_ne (not_head_of_regular .path hregular), ← hlength, ← hconnection]

/-- The run: the pass is right about whether the fields are valid, and where they are, about the
rest. -/
theorem scanFrom_eq (fields : List Field) : ∀ {r : Scan} {seen : Seen} {regular : Bool},
    FromTable fields → r.fieldsOk = true →
    (scanFrom r seen regular fields).fieldsOk = fields.all Reference.validField ∧
    (fields.all Reference.validField = true →
      scanFrom r seen regular fields = r.agreed seen regular fields) := by
  induction fields with
  | nil =>
    intro r seen regular _ hok
    refine ⟨?_, fun _ => agreed_nil⟩
    rw [agreed_nil, Scan.agreed, hok, List.all_nil]
  | cons f rest ih =>
    intro r seen regular htable hok
    have hrest : FromTable rest := fun g hg => htable g (List.mem_cons_of_mem f hg)
    have hstatic : f.static = true → nameRead f.name = true := fun h =>
      nameRead_static _ (htable f (List.mem_cons_self ..) h)
    rw [scanFrom_cons hstatic, List.all_cons]
    cases hvalid : Reference.validField f with
    | false =>
      rw [if_pos rfl, Bool.false_and]
      exact ⟨rfl, nofun⟩
    | true =>
      rw [if_neg (by decide), Bool.true_and]
      by_cases hpseudo : f.name.head? = some 58
      · rw [if_pos hpseudo]
        cases hbit : pseudoOf f.name with
        | none =>
          obtain ⟨hfields, hagreed⟩ := @ih { r with pseudoOk := false } seen regular hrest hok
          exact ⟨hfields, fun h => (hagreed h).trans (agreed_unknown hpseudo hbit)⟩
        | some bit =>
          obtain ⟨hfields, hagreed⟩ :=
            @ih (r.sees bit f.value (regular || seen.has bit)) (seen.add bit) regular hrest hok
          exact ⟨hfields, fun h => (hagreed h).trans (agreed_pseudo hpseudo hbit)⟩
      · rw [if_neg hpseudo]
        obtain ⟨hfields, hagreed⟩ := @ih (r.reads f) seen true hrest hok
        exact ⟨hfields, fun h => (hagreed h).trans (agreed_regular hpseudo)⟩

end Pass

/-- For every list, the one pass accepts exactly where the passes that read the list once for each
rule do. It finds the same field that is not valid; where there is none it is right about each rule,
and takes the same method, path and length. The test of a value reads words for bytes on every
value. -/
theorem scan_eq_reference (fields : List Field) (htable : FromTable fields) :
    ((scan fields).fieldsOk && (scan fields).pseudoOk && (scan fields).connectionOk) =
      (fields.all Reference.validField && Reference.validPseudo fields &&
        Reference.validConnectionFields fields) ∧
    (scan fields).fieldsOk = fields.all Reference.validField ∧
    (fields.all Reference.validField = true →
      (scan fields).pseudoOk = Reference.validPseudo fields ∧
      (scan fields).connectionOk = Reference.validConnectionFields fields ∧
      (scan fields).method = Reference.first fields (ascii ":method") ∧
      (scan fields).path = Reference.first fields (ascii ":path") ∧
      (scan fields).hasLength = (Reference.first fields (ascii "content-length")).isSome) ∧
    ∀ value, valueCleanWords value = value.all fun ch => !(ch == 0 || ch == 13 || ch == 10) := by
  obtain ⟨hfields, hagreed⟩ := @scanFrom_eq fields {} {} false htable rfl
  have hdata (h : fields.all Reference.validField = true) :
      (scan fields).pseudoOk = Reference.validPseudo fields ∧
      (scan fields).connectionOk = Reference.validConnectionFields fields ∧
      (scan fields).method = Reference.first fields (ascii ":method") ∧
      (scan fields).path = Reference.first fields (ascii ":path") ∧
      (scan fields).hasLength = (Reference.first fields (ascii "content-length")).isSome := by
    rw [scan, hagreed h]
    exact ⟨rfl, rfl, rfl, rfl, rfl⟩
  refine ⟨?_, hfields, hdata, ?_⟩
  · rw [scan, hfields]
    cases hvalid : fields.all Reference.validField with
    | false => rfl
    | true =>
      obtain ⟨hpseudo, hconnection, -⟩ := hdata hvalid
      rw [scan] at hpseudo hconnection
      rw [hpseudo, hconnection]
  · intro value
    rw [valueCleanWords, valueCleanFrom_eq value _ (by omega), List.drop_zero]

/-- A request whose pseudo-headers were sent by index, with a `:path` twice. -/
def twoPaths : List Field := [
  ⟨ascii ":method", ascii "GET", true⟩, ⟨ascii ":scheme", ascii "https", true⟩,
  ⟨ascii ":path", ascii "/a", true⟩, ⟨ascii ":path", ascii "/b", false⟩,
  ⟨ascii "te", ascii "Trailers", false⟩]

/-- The hypothesis of `scan_eq_reference` holds there: the fields are valid, the second `:path` is
refused by both, and the path is the first. -/
theorem scan_eq_reference_twoPaths :
    (scan twoPaths).fieldsOk = true ∧ (scan twoPaths).pseudoOk = Reference.validPseudo twoPaths ∧
      Reference.validPseudo twoPaths = false ∧ (scan twoPaths).path = some (ascii "/a") := by
  obtain ⟨-, hfields, hdata, -⟩ := scan_eq_reference twoPaths (by decide)
  have hvalid : twoPaths.all Reference.validField = true := by decide
  obtain ⟨hpseudo, -, -, hpath, -⟩ := hdata hvalid
  exact ⟨hfields.trans hvalid, hpseudo, by decide, hpath.trans (by decide)⟩

end Nilo.Http2
