import Nilo.Std.Text

/-!
# Percent-encoding (`core/percent.zig`)

The decoder goes over a text twice, once to measure it and once to write; the encoder writes into a
buffer or straight out, run by run. Both directions are total, and the decoder undoes the encoder
(`decodeInto_encodeInto`).
-/

namespace Nilo.Percent

open Text (Bytes ascii)

/-! ## Decoding -/

def hex (ch : UInt8) : Option UInt8 :=
  if 48 ≤ ch ∧ ch ≤ 57 then some (ch - 48)
  else if 97 ≤ ch ∧ ch ≤ 102 then some (ch - 97 + 10)
  else if 65 ≤ ch ∧ ch ≤ 70 then some (ch - 65 + 10)
  else none

/-- The byte that a `%XX` at the front stands for. -/
def escapeAt : Bytes → Option UInt8
  | percent :: a :: b :: _ =>
    if percent ≠ 37 then none
    else match hex a, hex b with
      | some hi, some lo => some (hi <<< 4 ||| lo)
      | _, _ => none
  | _ => none

/-- What one pass over a text learns. -/
structure Shape where
  anything : Bool
  decodedLen : Nat

/-- The loop of `scan`: the escapes, and whether there is a `+` to be read as a space. -/
def scanFrom (plusAsSpace : Bool) (escapes : Nat) (plus : Bool) : Bytes → Nat × Bool
  | [] => (escapes, plus)
  | ch :: rest =>
    if ch = 37 ∧ escapeAt (ch :: rest) ≠ none then
      scanFrom plusAsSpace (escapes + 1) plus (rest.drop 2)
    else scanFrom plusAsSpace escapes (plus || plusAsSpace && ch == 43) rest
termination_by raw => raw.length
decreasing_by
  · simp only [List.length_drop, List.length_cons]
    omega
  · simp

def scan (raw : Bytes) (plusAsSpace : Bool) : Shape :=
  let (escapes, plus) := scanFrom plusAsSpace 0 false raw
  { anything := escapes > 0 || plus, decodedLen := raw.length - escapes * 2 }

def decodedLen (raw : Bytes) : Nat := (scan raw false).decodedLen

def decodeInto (plusAsSpace : Bool) : Bytes → Bytes
  | [] => []
  | ch :: rest =>
    match escapeAt (ch :: rest) with
    | some byte => byte :: decodeInto plusAsSpace (rest.drop 2)
    | none => (if plusAsSpace ∧ ch = 43 then 32 else ch) :: decodeInto plusAsSpace rest
termination_by raw => raw.length
decreasing_by
  · simp only [List.length_drop, List.length_cons]
    omega
  · simp

/-- The text as it is where there is nothing to decode. -/
def decode (raw : Bytes) (plusAsSpace : Bool) : Bytes :=
  if !(scan raw plusAsSpace).anything then raw else decodeInto plusAsSpace raw

/-! ## Encoding -/

/-- Which characters survive as themselves: the two differ over the slash. -/
inductive Reserved where
  | unreserved
  | path
deriving DecidableEq

def safe (ch : UInt8) (set : Reserved) : Bool :=
  (65 ≤ ch && ch ≤ 90) || (97 ≤ ch && ch ≤ 122) || (48 ≤ ch && ch ≤ 57) || ch == 45 || ch == 46 ||
    ch == 95 || ch == 126 || (ch == 47 && set = .path)

def upperHex : Bytes := ascii "0123456789ABCDEF"

/-- `%XX`. -/
def escape (ch : UInt8) : Bytes :=
  [37, upperHex.getD (ch >>> 4).toNat 0, upperHex.getD (ch &&& 0xf).toNat 0]

/-- Every byte becomes one or three. -/
def encodedLen (raw : Bytes) (set : Reserved) : Nat :=
  raw.length + raw.countP (fun ch => !safe ch set) * 2

def encodeInto (raw : Bytes) (set : Reserved) : Bytes :=
  raw.flatMap fun ch => if safe ch set then [ch] else escape ch

/-- The loop of `encodeWrite`; `run` is what needs no escape and has not gone out. -/
def encodeRun (set : Reserved) (run : Bytes) : Bytes → Bytes
  | [] => run
  | ch :: raw =>
    if safe ch set then encodeRun set (run ++ [ch]) raw
    else run ++ escape ch ++ encodeRun set [] raw

def encodeWrite (raw : Bytes) (set : Reserved) : Bytes := encodeRun set [] raw

variable {raw text : Bytes} {set : Reserved} {ch : UInt8} {plusAsSpace : Bool}

theorem decodeInto_nil : decodeInto plusAsSpace [] = [] := by
  rw [decodeInto]

theorem decodeInto_cons : decodeInto plusAsSpace (ch :: raw) =
    match escapeAt (ch :: raw) with
    | some byte => byte :: decodeInto plusAsSpace (raw.drop 2)
    | none => (if plusAsSpace ∧ ch = 43 then 32 else ch) :: decodeInto plusAsSpace raw := by
  rw [decodeInto]

theorem encodeInto_cons : encodeInto (ch :: raw) set =
    (if safe ch set then [ch] else escape ch) ++ encodeInto raw set := List.flatMap_cons

theorem encodeRun_eq (run : Bytes) : encodeRun set run raw = run ++ encodeInto raw set := by
  induction raw generalizing run with
  | nil => exact (List.append_nil run).symm
  | cons ch raw ih =>
    rw [encodeRun, encodeInto_cons]
    split_ifs
    · rw [ih, List.append_assoc]
    · rw [ih, List.nil_append, List.append_assoc]

theorem encodeWrite_eq (raw : Bytes) (set : Reserved) : encodeWrite raw set = encodeInto raw set := by
  rw [encodeWrite, encodeRun_eq, List.nil_append]

/-- Text that is safe all through goes out as it is. -/
theorem encodeInto_safe (h : ∀ ch ∈ raw, safe ch set = true) : encodeInto raw set = raw := by
  induction raw with
  | nil => rfl
  | cons ch raw ih =>
    rw [encodeInto_cons, if_pos (h ch List.mem_cons_self),
      ih fun b hb => h b (List.mem_cons_of_mem ch hb)]
    rfl

/-! ## Reading back -/

theorem escapeAt_escape (ch : UInt8) (rest : Bytes) : escapeAt (escape ch ++ rest) = some ch := by
  have h : escapeAt (escape ch) = some ch := by
    revert ch
    exact Text.forall_byte (by decide)
  exact h

theorem escapeAt_ne (h : ch ≠ 37) : escapeAt (ch :: raw) = none := by
  rcases raw with _ | ⟨a, _ | ⟨b, raw⟩⟩
  · rfl
  · rfl
  · rw [escapeAt, if_pos h]

theorem decodeInto_escape (ch : UInt8) (rest : Bytes) :
    decodeInto plusAsSpace (escape ch ++ rest) = ch :: decodeInto plusAsSpace rest := by
  have h := escapeAt_escape ch rest
  rw [escape, List.cons_append] at h ⊢
  rw [decodeInto_cons, h]
  rfl

theorem safe_ne (h : safe ch set = true) : ch ≠ 37 ∧ ch ≠ 43 := by
  have hall : ∀ ch : UInt8, safe ch set = true → ch ≠ 37 ∧ ch ≠ 43 := by
    cases set
    · exact Text.forall_byte (by decide)
    · exact Text.forall_byte (by decide)
  exact hall ch h

theorem decodeInto_safe (h : safe ch set = true) (rest : Bytes) :
    decodeInto plusAsSpace (ch :: rest) = ch :: decodeInto plusAsSpace rest := by
  obtain ⟨hpercent, hplus⟩ := safe_ne h
  rw [decodeInto_cons, escapeAt_ne hpercent]
  dsimp only
  rw [if_neg fun hor => hplus hor.2]

/-- The decoder undoes the encoder, whichever way it reads a `+`. -/
theorem decodeInto_encodeInto : decodeInto plusAsSpace (encodeInto raw set) = raw := by
  induction raw with
  | nil =>
    rw [encodeInto, List.flatMap_nil, decodeInto_nil]
  | cons ch raw ih =>
    rw [encodeInto_cons]
    split_ifs with hsafe
    · rw [List.singleton_append, decodeInto_safe hsafe, ih]
    · rw [decodeInto_escape, ih]

/-- Only a `%` begins an escape, so the scan and the decoder stop at the same places. -/
theorem escapeAt_isSome {byte : UInt8} (h : escapeAt (ch :: raw) = some byte) : ch = 37 := by
  by_contra hne
  rw [escapeAt_ne hne] at h
  cases h

theorem scanFrom_escape {byte : UInt8} (h : escapeAt (ch :: raw) = some byte) (escapes : Nat)
    (plus : Bool) : scanFrom plusAsSpace escapes plus (ch :: raw) =
      scanFrom plusAsSpace (escapes + 1) plus (raw.drop 2) := by
  rw [scanFrom, if_pos ⟨escapeAt_isSome h, by rw [h]; exact Option.some_ne_none byte⟩]

theorem scanFrom_literal (h : escapeAt (ch :: raw) = none) (escapes : Nat) (plus : Bool) :
    scanFrom plusAsSpace escapes plus (ch :: raw) =
      scanFrom plusAsSpace escapes (plus || plusAsSpace && ch == 43) raw := by
  rw [scanFrom, if_neg fun hor => hor.2 h]

theorem le_scanFrom (plusAsSpace : Bool) (escapes : Nat) (plus : Bool) (raw : Bytes) :
    escapes ≤ (scanFrom plusAsSpace escapes plus raw).1 := by
  induction raw using decodeInto.induct generalizing escapes plus with
  | case1 => rw [scanFrom]
  | case2 ch rest byte h ih =>
    rw [scanFrom_escape h]
    exact Nat.le_of_succ_le (ih _ _)
  | case3 ch rest h ih =>
    rw [scanFrom_literal h]
    exact ih _ _

/-- Where the scan finds nothing to do, the second pass would write the text again. -/
theorem decodeInto_of_scanFrom {escapes : Nat} {plus : Bool}
    (h : scanFrom plusAsSpace escapes plus raw = (escapes, false)) :
    plus = false ∧ decodeInto plusAsSpace raw = raw := by
  induction raw using decodeInto.induct generalizing plus with
  | case1 =>
    rw [scanFrom] at h
    cases h
    exact ⟨rfl, decodeInto_nil⟩
  | case2 ch rest byte hat ih =>
    rw [scanFrom_escape hat] at h
    have hle := le_scanFrom plusAsSpace (escapes + 1) plus (rest.drop 2)
    rw [h] at hle
    exact absurd hle (Nat.not_succ_le_self escapes)
  | case3 ch rest hat ih =>
    rw [scanFrom_literal hat] at h
    obtain ⟨hplus, hrest⟩ := ih h
    obtain ⟨hnone, hspace⟩ := Bool.or_eq_false_iff.mp hplus
    refine ⟨hnone, ?_⟩
    rw [decodeInto_cons, hat]
    dsimp only
    rw [hrest, if_neg]
    rintro ⟨htrue, rfl⟩
    rw [htrue] at hspace
    cases hspace

theorem decode_eq (raw : Bytes) (plusAsSpace : Bool) :
    decode raw plusAsSpace = decodeInto plusAsSpace raw := by
  rw [decode]
  split_ifs with hnothing
  · rw [Bool.not_eq_true', scan, Bool.or_eq_false_iff, decide_eq_false_iff_not] at hnothing
    have hscan : scanFrom plusAsSpace 0 false raw = (0, false) :=
      Prod.ext (Nat.eq_zero_of_not_pos hnothing.1) hnothing.2
    exact (decodeInto_of_scanFrom hscan).2.symm
  · rfl

theorem decode_encodeInto (text : Bytes) : decode (encodeInto text set) plusAsSpace = text := by
  rw [decode_eq, decodeInto_encodeInto]

/-! ## The pieces of a text -/

/-- What a text is cut into: its escapes, and the bytes that stand for themselves, a `%` that begins no
escape among them. -/
inductive Piece where
  | escape (digits : Bytes) (byte : UInt8)
  | literal (ch : UInt8)
deriving DecidableEq

def pieces : Bytes → List Piece
  | [] => []
  | ch :: rest =>
    match escapeAt (ch :: rest) with
    | some byte => .escape (rest.take 2) byte :: pieces (rest.drop 2)
    | none => .literal ch :: pieces rest
termination_by raw => raw.length
decreasing_by
  · simp only [List.length_drop, List.length_cons]
    omega
  · simp

namespace Piece

def spelled : Piece → Bytes
  | .escape digits _ => 37 :: digits
  | .literal ch => [ch]

def isEscape : Piece → Bool
  | .escape _ _ => true
  | .literal _ => false

def isPlus : Piece → Bool
  | .escape _ _ => false
  | .literal ch => ch == 43

/-- The byte that it is read as. -/
def value (plusAsSpace : Bool) : Piece → UInt8
  | .escape _ byte => byte
  | .literal ch => if plusAsSpace ∧ ch = 43 then 32 else ch

end Piece

theorem pieces_nil : pieces [] = [] := by
  rw [pieces]

theorem pieces_escape {byte : UInt8} (h : escapeAt (ch :: raw) = some byte) :
    pieces (ch :: raw) = .escape (raw.take 2) byte :: pieces (raw.drop 2) := by
  rw [pieces, h]

theorem pieces_literal (h : escapeAt (ch :: raw) = none) :
    pieces (ch :: raw) = .literal ch :: pieces raw := by
  rw [pieces, h]

/-- An escape is three bytes. -/
theorem length_of_escapeAt {byte : UInt8} (h : escapeAt (ch :: raw) = some byte) : 2 ≤ raw.length := by
  rcases raw with _ | ⟨a, _ | ⟨b, raw⟩⟩
  · cases h
  · cases h
  · simp

/-- Nothing of a text is lost by cutting it. -/
theorem spelled_pieces (raw : Bytes) : (pieces raw).flatMap Piece.spelled = raw := by
  induction raw using decodeInto.induct with
  | case1 => rw [pieces_nil, List.flatMap_nil]
  | case2 ch rest byte h ih =>
    rw [pieces_escape h, List.flatMap_cons, ih, Piece.spelled, List.cons_append, List.take_append_drop,
      escapeAt_isSome h]
  | case3 ch rest h ih =>
    rw [pieces_literal h, List.flatMap_cons, ih]
    rfl

theorem length_pieces (raw : Bytes) :
    raw.length = (pieces raw).length + (pieces raw).countP Piece.isEscape * 2 := by
  induction raw using decodeInto.induct with
  | case1 => rw [pieces_nil]; rfl
  | case2 ch rest byte h ih =>
    have hlen := length_of_escapeAt h
    rw [List.length_drop] at ih
    rw [pieces_escape h, List.length_cons, List.length_cons, List.countP_cons_of_pos rfl]
    omega
  | case3 ch rest h ih =>
    rw [pieces_literal h, List.length_cons, List.length_cons, List.countP_cons_of_neg Bool.false_ne_true]
    omega

/-- The scan counts the escapes among the pieces, and looks for a `+` among the rest. -/
theorem scanFrom_pieces (escapes : Nat) (plus : Bool) (raw : Bytes) :
    scanFrom plusAsSpace escapes plus raw = (escapes + (pieces raw).countP Piece.isEscape,
      plus || plusAsSpace && (pieces raw).any Piece.isPlus) := by
  induction raw using decodeInto.induct generalizing escapes plus with
  | case1 =>
    rw [scanFrom, pieces_nil, List.any_nil, Bool.and_false, Bool.or_false]
    rfl
  | case2 ch rest byte h ih =>
    rw [scanFrom_escape h, ih, pieces_escape h, List.countP_cons_of_pos rfl, List.any_cons,
      Nat.add_right_comm, Nat.add_assoc]
    rfl
  | case3 ch rest h ih =>
    rw [scanFrom_literal h, ih, pieces_literal h, List.countP_cons_of_neg Bool.false_ne_true, List.any_cons,
      Bool.and_or_distrib_left, Bool.or_assoc]
    rfl

/-- The decoder writes one byte for each of the same pieces. -/
theorem decodeInto_pieces (plusAsSpace : Bool) (raw : Bytes) :
    decodeInto plusAsSpace raw = (pieces raw).map (Piece.value plusAsSpace) := by
  induction raw using decodeInto.induct with
  | case1 =>
    rw [decodeInto_nil, pieces_nil]
    rfl
  | case2 ch rest byte h ih =>
    rw [decodeInto_cons, h, pieces_escape h, List.map_cons, ← ih]
    rfl
  | case3 ch rest h ih =>
    rw [decodeInto_cons, h, pieces_literal h, List.map_cons, ← ih]
    rfl

theorem length_encodeInto : (encodeInto raw set).length = encodedLen raw set := by
  induction raw with
  | nil => rfl
  | cons ch raw ih =>
    rw [encodedLen] at ih ⊢
    rw [encodeInto_cons, List.length_append, ih, List.length_cons]
    split_ifs with hsafe
    · rw [List.countP_cons_of_neg (by rw [hsafe]; decide), List.length_singleton]
      omega
    · rw [List.countP_cons_of_pos (by rw [eq_false_of_ne_true hsafe]; rfl)]
      simp only [escape, List.length_cons, List.length_nil]
      omega

theorem decodedLen_eq (raw : Bytes) :
    decodedLen raw = raw.length - (pieces raw).countP Piece.isEscape * 2 := by
  rw [decodedLen, scan, scanFrom_pieces, Nat.zero_add]

/-- Encoding is undone by decoding, both write as many bytes as they measure, and the two passes of the
decoder take one and the same reading of every text, with its malformed escapes as they stand. -/
theorem coded_exactly (raw : Bytes) (set : Reserved) (plusAsSpace : Bool) :
    decodeInto plusAsSpace (encodeInto raw set) = raw ∧
    (encodeInto raw set).length = encodedLen raw set ∧
    (decodeInto plusAsSpace raw).length = decodedLen raw ∧
    (scan raw plusAsSpace).decodedLen = decodedLen raw ∧
    encodeWrite raw set = encodeInto raw set ∧
    (decodeInto plusAsSpace raw).length ≤ raw.length ∧
    decode raw plusAsSpace = decodeInto plusAsSpace raw ∧
    (pieces raw).flatMap Piece.spelled = raw ∧
    scanFrom plusAsSpace 0 false raw = ((pieces raw).countP Piece.isEscape,
      plusAsSpace && (pieces raw).any Piece.isPlus) ∧
    decodeInto plusAsSpace raw = (pieces raw).map (Piece.value plusAsSpace) := by
  have hlength := length_pieces raw
  have hscan : scanFrom plusAsSpace 0 false raw = _ := scanFrom_pieces 0 false raw
  rw [Nat.zero_add, Bool.false_or] at hscan
  have hwritten : (decodeInto plusAsSpace raw).length = (pieces raw).length := by
    rw [decodeInto_pieces, List.length_map]
  refine ⟨decodeInto_encodeInto, length_encodeInto, ?_, ?_, encodeWrite_eq raw set, ?_,
    decode_eq raw plusAsSpace, spelled_pieces raw, hscan, decodeInto_pieces plusAsSpace raw⟩
  · rw [decodedLen_eq]
    omega
  · rw [decodedLen_eq, scan, hscan]
  · omega

end Nilo.Percent
