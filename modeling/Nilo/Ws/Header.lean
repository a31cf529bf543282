import Nilo.Ws.Frame

/-!
# One encoding for each header (`core/ws_frame.zig`)

A header is two bytes, the length in one of three widths, and the key of a masked frame.
`headerFrom_parts` reads it off those parts and `parts_of_headerFrom` finds them in what was read, so
what is written is read back, and a header that is let through is the one the writer writes
(`header_codec`).
-/

namespace Nilo.Ws

open Text (Bytes)
open Mem (writeBe readBe)

/-- The bytes in front of an unmasked frame. -/
def writeHeader (opcode : Opcode) (len : Nat) : Bytes :=
  let first := 0x80 ||| UInt8.ofNat opcode.code
  if len < 126 then [first, UInt8.ofNat len]
  else if len ≤ 0xffff then [first, 126] ++ writeBe 2 len
  else [first, 127] ++ writeBe 8 len

/-- The bytes in front of a masked frame: the mask bit set, and the key behind the length. -/
def writeMaskedHeader (opcode : Opcode) (len : Nat) (key : Bytes) : Bytes :=
  (writeHeader opcode len).modify 1 (· ||| 0x80) ++ key

/-- What fits the four bits of an opcode, under its name where it has one. -/
structure Opcode.Valid (opcode : Opcode) : Prop where
  lt : opcode.code < 16
  named : Opcode.ofCode opcode.code = opcode

/-! ## The two bytes every header has -/

/-- The bytes of the length behind the first two, by what stands in the second. -/
def wideOf (short : UInt8) : Nat := if short = 126 then 2 else if short = 127 then 8 else 0

/-- The second byte of a header, without the mask bit. -/
def shortOf (len : Nat) : UInt8 :=
  if len < 126 then UInt8.ofNat len else if len ≤ 0xffff then 126 else 127

theorem wideOf_shortOf (len : Nat) :
    wideOf (shortOf len) = if len < 126 then 0 else if len ≤ 0xffff then 2 else 8 := by
  rw [shortOf]
  split_ifs with hshort
  · have hbyte : ∀ n < 126, wideOf (UInt8.ofNat n) = 0 := by decide
    exact hbyte len hshort
  · rfl
  · rfl

theorem shortOf_and (len : Nat) :
    shortOf len &&& 0x7f = shortOf len ∧ (shortOf len ||| 0x80) &&& 0x7f = shortOf len ∧
      shortOf len &&& 0x80 = 0 ∧ (shortOf len ||| 0x80) &&& 0x80 ≠ 0 := by
  rw [shortOf]
  split_ifs with hshort
  · have hbyte : ∀ n < 126, UInt8.ofNat n &&& 0x7f = UInt8.ofNat n ∧
        (UInt8.ofNat n ||| 0x80) &&& 0x7f = UInt8.ofNat n ∧ UInt8.ofNat n &&& 0x80 = 0 ∧
        (UInt8.ofNat n ||| 0x80) &&& 0x80 ≠ 0 := by decide
    exact hbyte len hshort
  · decide
  · decide

/-- Both writers, in their parts. -/
theorem writeHeader_eq (opcode : Opcode) (len : Nat) :
    writeHeader opcode len =
      (0x80 ||| UInt8.ofNat opcode.code) :: shortOf len :: writeBe (wideOf (shortOf len)) len := by
  rw [wideOf_shortOf, writeHeader, shortOf]
  split_ifs
  · rfl
  · rfl
  · rfl

theorem writeMaskedHeader_eq (opcode : Opcode) (len : Nat) (key : Bytes) :
    writeMaskedHeader opcode len key =
      (0x80 ||| UInt8.ofNat opcode.code) :: (shortOf len ||| 0x80) ::
        (writeBe (wideOf (shortOf len)) len ++ key) := by
  rw [writeMaskedHeader, writeHeader_eq]
  rfl

/-- The first byte of a whole frame with no reserved bit is the opcode and FIN. -/
theorem first_eq (first : UInt8) (hfin : first &&& 0x80 ≠ 0) (hreserved : first &&& 0x70 = 0) :
    0x80 ||| UInt8.ofNat (first &&& 0x0f).toNat = first := by
  revert first
  exact Text.forall_byte (by decide)

theorem opcode_and {c : Nat} (h : c < 16) :
    (0x80 ||| UInt8.ofNat c) &&& 0x80 ≠ 0 ∧ (0x80 ||| UInt8.ofNat c) &&& 0x70 = 0 ∧
      ((0x80 ||| UInt8.ofNat c) &&& 0x0f).toNat = c := by
  revert c
  decide

theorem second_eq (second : UInt8) :
    second = if second &&& 0x80 ≠ 0 then (second &&& 0x7f) ||| 0x80 else second &&& 0x7f := by
  revert second
  exact Text.forall_byte (by decide)

/-- A length below the wide forms is the second byte's own. -/
theorem short_cases (second : UInt8) :
    second &&& 0x7f = 126 ∨ second &&& 0x7f = 127 ∨ (second &&& 0x7f).toNat < 126 := by
  revert second
  exact Text.forall_byte (by decide)

theorem code_ofCode (first : UInt8) :
    (Opcode.ofCode (first &&& 0x0f).toNat).code = (first &&& 0x0f).toNat := by
  revert first
  exact Text.forall_byte (by decide)

/-! ## A header and its parts -/

/-- What is read of the length. -/
def lengthOf (short : UInt8) (wide : Bytes) : Nat :=
  if wideOf short = 0 then short.toNat else readBe wide

theorem headerSize_eq (second : UInt8) :
    headerSize second =
      2 + wideOf (second &&& 0x7f) + (if second &&& 0x80 ≠ 0 then 4 else 0) := rfl

theorem lengthOf_eq (short : UInt8) (wide rest : Bytes) (hwide : wide.length = wideOf short) :
    (if short = 126 then readBe ((wide ++ rest).take 2)
      else if short = 127 then readBe ((wide ++ rest).take 8) else short.toNat) =
      lengthOf short wide := by
  by_cases htwo : short = 126
  · subst htwo
    have hlen : wide.length = 2 := hwide
    rw [if_pos rfl, lengthOf, if_neg (by decide), ← hlen, List.take_left]
  · rw [if_neg htwo]
    by_cases height : short = 127
    · subst height
      have hlen : wide.length = 8 := hwide
      rw [if_pos rfl, lengthOf, if_neg (by decide), ← hlen, List.take_left]
    · have hnone : wideOf short = 0 := by rw [wideOf, if_neg htwo, if_neg height]
      rw [if_neg height, lengthOf, if_pos hnone]

/-- A header is read off its parts, whatever stands behind it. -/
theorem headerFrom_parts {first second : UInt8} {wide key : Bytes} (rest : Bytes)
    (hwide : wide.length = wideOf (second &&& 0x7f))
    (hkey : key.length = if second &&& 0x80 ≠ 0 then 4 else 0) :
    headerFrom (first :: second :: (wide ++ (key ++ rest))) =
      some
        { fin := decide (first &&& 0x80 ≠ 0)
          reserved := decide (first &&& 0x70 ≠ 0)
          masked := decide (second &&& 0x80 ≠ 0)
          opcode := Opcode.ofCode (first &&& 0x0f).toNat
          len := lengthOf (second &&& 0x7f) wide
          mask := if second &&& 0x80 ≠ 0 then key else [0, 0, 0, 0]
          size := 2 + wide.length + key.length } := by
  have hsize : headerSize second = 2 + wide.length + key.length := by
    rw [headerSize_eq, hwide, hkey]
  have hlen : ¬(first :: second :: (wide ++ (key ++ rest))).length < headerSize second := by
    rw [hsize]
    simp only [List.length_cons, List.length_append]
    omega
  have hmask : (if decide (second &&& 0x80 ≠ 0) = true then
        ((first :: second :: (wide ++ (key ++ rest))).drop (headerSize second - 4)).take 4
      else [0, 0, 0, 0]) = if second &&& 0x80 ≠ 0 then key else [0, 0, 0, 0] := by
    by_cases hmasked : second &&& 0x80 ≠ 0
    · rw [if_pos hmasked] at hkey
      have hdrop : headerSize second - 4 = wide.length + 2 := by omega
      rw [if_pos (decide_eq_true hmasked), if_pos hmasked, hdrop, List.drop_succ_cons,
        List.drop_succ_cons, List.drop_left, ← hkey, List.take_left]
    · rw [if_neg (by simpa using hmasked), if_neg hmasked]
  have hlength := lengthOf_eq (second &&& 0x7f) wide (key ++ rest) hwide
  simp only [headerFrom, if_neg hlen, hmask, List.drop_succ_cons, List.drop_zero, hlength]
  rw [hsize]

/-- The parts of a header that was read. -/
theorem parts_of_headerFrom {bytes : Bytes} {f : Frame} (h : headerFrom bytes = some f) :
    ∃ first second wide key rest, bytes = first :: second :: (wide ++ (key ++ rest)) ∧
      wide.length = wideOf (second &&& 0x7f) ∧
      key.length = if second &&& 0x80 ≠ 0 then 4 else 0 := by
  obtain ⟨first, second, rest, rfl, hsize, hle⟩ := headerFrom_some h
  rw [hsize, headerSize_eq, List.length_cons, List.length_cons] at hle
  refine ⟨first, second, rest.take (wideOf (second &&& 0x7f)),
    (rest.drop (wideOf (second &&& 0x7f))).take (if second &&& 0x80 ≠ 0 then 4 else 0),
    (rest.drop (wideOf (second &&& 0x7f))).drop (if second &&& 0x80 ≠ 0 then 4 else 0), ?_, ?_, ?_⟩
  · rw [List.take_append_drop, List.take_append_drop]
  · rw [List.length_take]
    omega
  · rw [List.length_take, List.length_drop]
    omega

/-! ## What is written is read, and what is read was written -/

theorem lengthOf_shortOf {len : Nat} (h : len < 2 ^ 64) :
    lengthOf (shortOf len) (writeBe (wideOf (shortOf len)) len) = len := by
  have hwide := wideOf_shortOf len
  by_cases hshort : len < 126
  · rw [if_pos hshort] at hwide
    rw [lengthOf, if_pos hwide, shortOf, if_pos hshort, UInt8.toNat_ofNat']
    omega
  · rw [if_neg hshort] at hwide
    by_cases hlarge : len ≤ 0xffff
    · rw [if_pos hlarge] at hwide
      rw [lengthOf, hwide, if_neg (by decide), Mem.readBe_writeBe]
      exact Nat.mod_eq_of_lt (by omega)
    · rw [if_neg hlarge] at hwide
      rw [lengthOf, hwide, if_neg (by decide), Mem.readBe_writeBe]
      exact Nat.mod_eq_of_lt (by omega)

/-- A length that is let through stands in the shortest form that holds it. -/
theorem shortOf_eq {second : UInt8} {wide : Bytes} (hwide : wide.length = wideOf (second &&& 0x7f))
    (htwo : wide.length = 2 → 126 ≤ lengthOf (second &&& 0x7f) wide)
    (height : wide.length = 8 → 0xffff < lengthOf (second &&& 0x7f) wide) :
    shortOf (lengthOf (second &&& 0x7f) wide) = second &&& 0x7f ∧
      writeBe wide.length (lengthOf (second &&& 0x7f) wide) = wide := by
  rcases short_cases second with hshort | hshort | hshort
  · rw [hshort] at hwide htwo height ⊢
    have hlen : wide.length = 2 := hwide
    have hread : lengthOf 126 wide = readBe wide := rfl
    have hlt := Mem.readBe_lt wide
    have hle := htwo hlen
    rw [hlen] at hlt
    rw [hread] at hle ⊢
    refine ⟨?_, Mem.writeBe_readBe wide⟩
    rw [shortOf, if_neg (by omega), if_pos (by omega)]
  · rw [hshort] at hwide htwo height ⊢
    have hlen : wide.length = 8 := hwide
    have hread : lengthOf 127 wide = readBe wide := rfl
    have hle := height hlen
    rw [hread] at hle ⊢
    refine ⟨?_, Mem.writeBe_readBe wide⟩
    rw [shortOf, if_neg (by omega), if_neg (by omega)]
  · have hnot : wideOf (second &&& 0x7f) = 0 := by
      rw [wideOf, if_neg, if_neg]
      · intro heq
        rw [heq] at hshort
        exact absurd hshort (by decide)
      · intro heq
        rw [heq] at hshort
        exact absurd hshort (by decide)
    have hnil : wide = [] := List.eq_nil_of_length_eq_zero (hwide.trans hnot)
    rw [lengthOf, if_pos hnot, hnil, shortOf, if_pos hshort, UInt8.ofNat_toNat]
    exact ⟨rfl, rfl⟩

/-- What lets a header through says of its length. -/
theorem wellFormed_length {f : Frame} {sender : Sender} (h : f.wellFormed sender = true)
    {wide : Nat} (hsize : f.size = 2 + wide + if f.masked then 4 else 0) :
    f.reserved = false ∧ (wide = 2 → 126 ≤ f.len) ∧ (wide = 8 → 0xffff < f.len) := by
  have hwide : f.size - 2 - (if f.masked then 4 else 0) = wide := by omega
  rw [Frame.wellFormed, hwide] at h
  simp only [Bool.and_eq_true, Bool.or_eq_true, beq_iff_eq, decide_eq_true_eq] at h
  split_ifs at h with hreserved hmasked htwo height
  refine ⟨Bool.eq_false_iff.mpr hreserved, fun hw => ?_, fun hw => ?_⟩
  · omega
  · by_contra hle
    exact height ⟨hw, .inl (Nat.le_of_not_lt hle)⟩

/-- **Each header has one encoding.** What either writer writes is read back, and no byte behind it
is touched; and a header of a whole message that is let through is the one its writer writes. -/
theorem header_codec :
    (∀ (opcode : Opcode) (len : Nat) (key rest : Bytes),
      opcode.Valid → len < 2 ^ 64 → key.length = 4 →
      headerFrom (writeHeader opcode len ++ rest) =
          some ⟨true, false, false, opcode, len, [0, 0, 0, 0], (writeHeader opcode len).length⟩ ∧
        headerFrom (writeMaskedHeader opcode len key ++ rest) =
          some ⟨true, false, true, opcode, len, key, (writeMaskedHeader opcode len key).length⟩) ∧
    ∀ (bytes : Bytes) (f : Frame) (sender : Sender),
      headerFrom bytes = some f → f.fin = true → f.wellFormed sender = true →
      bytes.take f.size =
        if f.masked then writeMaskedHeader f.opcode f.len f.mask else writeHeader f.opcode f.len := by
  refine ⟨fun opcode len key rest hvalid hlen hkey => ?_, fun bytes f sender hf hfin hwell => ?_⟩
  · obtain ⟨hfirst, hreserved, hcode⟩ := opcode_and hvalid.lt
    obtain ⟨hand, hmaskedAnd, hclear, hset⟩ := shortOf_and len
    have hfin : decide ((0x80 ||| UInt8.ofNat opcode.code) &&& 0x80 ≠ 0) = true :=
      decide_eq_true hfirst
    have hnone : decide ((0x80 ||| UInt8.ofNat opcode.code) &&& 0x70 ≠ 0) = false :=
      decide_eq_false (not_not.mpr hreserved)
    constructor
    · have hread := @headerFrom_parts (0x80 ||| UInt8.ofNat opcode.code) (shortOf len)
        (writeBe (wideOf (shortOf len)) len) [] rest (by rw [hand, Mem.length_writeBe])
        (by rw [if_neg (not_not.mpr hclear)]; rfl)
      rw [hand, lengthOf_shortOf hlen, hcode, hvalid.named, hfin, hnone,
        if_neg (not_not.mpr hclear), decide_eq_false (not_not.mpr hclear)] at hread
      rw [writeHeader_eq]
      refine hread.trans ?_
      simp only [List.length_cons, List.length_nil, Option.some.injEq, Frame.mk.injEq, true_and]
      omega
    · have hread := @headerFrom_parts (0x80 ||| UInt8.ofNat opcode.code) (shortOf len ||| 0x80)
        (writeBe (wideOf (shortOf len)) len) key rest (by rw [hmaskedAnd, Mem.length_writeBe])
        (by rw [if_pos hset, hkey])
      rw [hmaskedAnd, lengthOf_shortOf hlen, hcode, hvalid.named, hfin, hnone, if_pos hset,
        decide_eq_true hset] at hread
      rw [writeMaskedHeader_eq, List.cons_append, List.cons_append, List.append_assoc]
      refine hread.trans ?_
      simp only [List.length_cons, List.length_append, Option.some.injEq, Frame.mk.injEq, true_and]
      omega
  · obtain ⟨first, second, wide, key, rest, rfl, hwide, hkey⟩ := parts_of_headerFrom hf
    rw [headerFrom_parts rest hwide hkey] at hf
    obtain rfl := Option.some.inj hf
    have hsize : 2 + wide.length + key.length =
        2 + wide.length + if decide (second &&& 0x80 ≠ 0) = true then 4 else 0 := by
      rw [hkey]
      simp only [decide_eq_true_eq]
    obtain ⟨hreserved, htwo, height⟩ := wellFormed_length hwell hsize
    have hreserved : first &&& 0x70 = 0 := not_not.mp (of_decide_eq_false hreserved)
    have hfirst := first_eq first (of_decide_eq_true hfin) hreserved
    have hcode := code_ofCode first
    obtain ⟨hshort, hlen⟩ := shortOf_eq hwide htwo height
    have hsecond := second_eq second
    dsimp only
    have htake : (first :: second :: (wide ++ (key ++ rest))).take (2 + wide.length + key.length) =
        first :: second :: (wide ++ key) := by
      have hall : 2 + wide.length + key.length = (first :: second :: (wide ++ key)).length := by
        simp only [List.length_cons, List.length_append]
        omega
      have hparts : first :: second :: (wide ++ (key ++ rest)) =
          (first :: second :: (wide ++ key)) ++ rest := by simp
      rw [hall, hparts, List.take_left]
    rw [htake, writeMaskedHeader_eq, writeHeader_eq, hcode, hfirst, hshort, ← hwide, hlen]
    by_cases hmasked : second &&& 0x80 ≠ 0
    · rw [if_pos hmasked] at hsecond
      rw [if_pos (decide_eq_true hmasked), if_pos hmasked, ← hsecond]
    · rw [if_neg hmasked] at hsecond hkey
      rw [if_neg (by simpa using hmasked), ← hsecond, List.eq_nil_of_length_eq_zero hkey,
        List.append_nil]

/-- A masked text frame of 300 bytes, and a close frame of none. -/
theorem header_codec_text :
    headerFrom (writeMaskedHeader .text 300 [1, 2, 3, 4] ++ [0x55]) =
        some ⟨true, false, true, .text, 300, [1, 2, 3, 4], 8⟩ ∧
      [0x88, 0x00, 0x55].take 2 = writeHeader .close 0 := by
  have hvalid : Opcode.text.Valid := ⟨by decide, rfl⟩
  refine ⟨(header_codec.1 .text 300 [1, 2, 3, 4] [0x55] hvalid (by decide) rfl).2, ?_⟩
  exact header_codec.2 [0x88, 0x00, 0x55] ⟨true, false, false, .close, 0, [0, 0, 0, 0], 2⟩ .server
    (by decide) rfl (by decide)

end Nilo.Ws
