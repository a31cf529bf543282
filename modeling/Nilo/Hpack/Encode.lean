import Nilo.Hpack.Decode

/-!
# Writing a header block (`encodeBlock`, `http/hpack.zig`)

The one representation this side writes is the literal that is never indexed and never Huffman-coded,
its name by index where the static table has it. So what is written is read back, and leaves the
reader's table alone.
-/

namespace Nilo.Hpack

open Text (Bytes ascii)
open Mem (Run)
open Lib (Front fitting total)

/-- `@intCast` of a length to `u32`. -/
def lengthCast (b : Bytes) : Run Nat := if b.length < 2 ^ 32 then .ok b.length else .error .overflow

/-- A field from the static table in full. -/
def writeIndexed (index : Nat) : Bytes := writeInt 0x80 7 index

def writeString (text : Bytes) : Run Bytes := do
  let len ← lengthCast text
  pure (writeInt 0x00 7 len ++ text)

/-- A literal for a name the static table has, given by its index. -/
def writeLiteralAt (index : Nat) (value : Bytes) : Run Bytes := do
  let value ← writeString value
  pure (writeInt 0x00 4 index ++ value)

def writeLiteral (name value : Bytes) : Run Bytes :=
  match staticNameIndex name with
  | some index => writeLiteralAt index value
  | none => do
    let name ← writeString name
    let value ← writeString value
    pure (0x00 :: name ++ value)

def writeField (f : Field) : Run Bytes :=
  if f.name == ascii ":status" && f.value == ascii "200" then .ok (writeIndexed 8)
  else writeLiteral f.name f.value

/-- A header list as one block. -/
def encodeBlock : List Field → Run Bytes
  | [] => .ok []
  | f :: rest => do
    let first ← writeField f
    let more ← encodeBlock rest
    pure (first ++ more)

/-! ## Strings -/

/-- A number above seven clear bits begins with a byte that has the highest bit clear. -/
theorem head_writeInt {n value : Nat} (hn : n ≤ 7) :
    ∃ b tail, writeInt 0x00 n value = b :: tail ∧ b.toNat ≤ prefixMask n := by
  have hmask : prefixMask n < 256 := prefixMask_lt (by omega)
  rw [writeInt]
  split_ifs with hsmall
  · refine ⟨_, _, rfl, ?_⟩
    rw [UInt8.toNat_or, UInt8.toNat_ofNat', Nat.mod_eq_of_lt (by omega)]
    simpa using Nat.le_of_lt hsmall
  · refine ⟨_, _, rfl, ?_⟩
    rw [UInt8.toNat_or, UInt8.toNat_ofNat', Nat.mod_eq_of_lt (by omega)]
    simp

theorem writeString_ok {text : Bytes} (h : text.length < 2 ^ 32) :
    writeString text = .ok (writeInt 0x00 7 text.length ++ text) := by
  rw [writeString, lengthCast, if_pos h]
  rfl

theorem raw_of_low {b : UInt8} (hb : b.toNat ≤ 127) : b &&& 0x80 = 0 := by
  have hall : ∀ n < 128, UInt8.ofNat n &&& 0x80 = 0 := by decide
  have hown : UInt8.ofNat b.toNat = b := UInt8.ofNat_toNat
  rw [← hown]
  exact hall b.toNat (by omega)

theorem readString_writeString {text : Bytes} (h : text.length < 2 ^ 32) (more : Bytes) :
    readString (writeInt 0x00 7 text.length ++ text ++ more) = .ok (text, more) := by
  obtain ⟨b, tail, hhead, hb⟩ := @head_writeInt 7 text.length (by decide)
  have hread := @readInt_writeInt 7 (by decide) 0x00 (by decide) text.length h (text ++ more)
  rw [List.append_assoc]
  rw [hhead, List.cons_append] at hread ⊢
  rw [readString, hread]
  change (if _ > _ then _ else if _ then _ else _) = _
  rw [if_neg (by simp), if_pos (raw_of_low hb), List.take_left, List.drop_left]

/-! ## A field -/

theorem staticNameIndex_eq {name : Bytes} {index : Nat} (h : staticNameIndex name = some index) :
    index ≠ 0 ∧ index ≤ 61 ∧ ∃ f, staticTable[index - 1]? = some f ∧ f.name = name := by
  obtain ⟨i, hi, rfl⟩ := Option.map_eq_some_iff.mp h
  obtain ⟨hlt, hname, -⟩ := List.findIdx?_eq_some_iff_getElem.mp hi
  exact ⟨Nat.succ_ne_zero i, hlt, _, List.getElem?_eq_getElem hlt, eq_of_beq hname⟩

/-- What the static table has is looked up the same in every decoder. -/
theorem lookup_static (d : Decoder) {index : Nat} {f : Field} (hzero : index ≠ 0)
    (hindex : index ≤ 61) (hf : staticTable[index - 1]? = some f) :
    d.lookup index = .ok (f.owned, true) := by
  have hlen : index ≤ staticTable.length := hindex
  rw [Decoder.lookup, if_neg hzero, if_pos hlen, hf]

/-- The first byte of a literal that is not indexed: four clear bits, and then the index. -/
structure Plain (b : UInt8) : Prop where
  notUpdate : b &&& 0xe0 ≠ 0x20
  notIndexed : b &&& 0x80 = 0
  notIncremental : isIncremental b = false

theorem plain_of_le {b : UInt8} (hb : b.toNat ≤ 15) : Plain b := by
  have hall : ∀ n < 16, UInt8.ofNat n &&& 0xe0 ≠ 0x20 ∧ UInt8.ofNat n &&& 0x80 = 0 ∧
      isIncremental (UInt8.ofNat n) = false := by decide
  have hown : UInt8.ofNat b.toNat = b := UInt8.ofNat_toNat
  obtain ⟨hupdate, hindexed, hincremental⟩ := hall b.toNat (by omega)
  rw [hown] at hupdate hindexed hincremental
  exact ⟨hupdate, hindexed, hincremental⟩

/-- A literal is read as its name and its value, whichever way the name is written. -/
theorem readField_literal (d : Decoder) {b : UInt8} (hb : Plain b) {block rest : Bytes}
    {name value : Bytes} {s : Slice} {inTable : Bool}
    (hname : d.readName 4 block = .ok ((s, inTable), rest)) (hs : s = .owned name)
    (hvalue : value.length < 2 ^ 32) (more : Bytes)
    (hrest : rest = writeInt 0x00 7 value.length ++ value ++ more) :
    ∃ found, d.readField b block = .ok (found, more) ∧
      d.Finds b found ⟨name, value⟩ (.literal false (.text name) value) := by
  subst hs hrest
  refine ⟨⟨⟨.owned name, .owned value⟩, inTable, false⟩, ?_, ⟨rfl, rfl, rfl, rfl⟩, fun _ => rfl,
    fun _ => rfl, rfl⟩
  rw [Decoder.readField, if_neg (not_not.mpr hb.notIndexed), hb.notIncremental,
    if_neg Bool.false_ne_true, Front.bind_of_ok hname]
  exact (Front.bind_of_ok (readString_writeString hvalue more)).trans rfl

/-- What is written for a field is read as that field by any decoder, and names nothing of its own
table. -/
theorem readField_writeField (d : Decoder) (f : Field) (hname : f.name.length < 2 ^ 32)
    (hvalue : f.value.length < 2 ^ 32) :
    ∃ b tail, writeField f = .ok (b :: tail) ∧ b &&& 0xe0 ≠ 0x20 ∧
      ∀ more, ∃ found rep, d.readField b (b :: tail ++ more) = .ok (found, more) ∧
        d.Finds b found f rep ∧ rep.incremental = false := by
  obtain ⟨name, value⟩ := f
  rw [writeField]
  by_cases hok : (name == ascii ":status" && value == ascii "200") = true
  · rw [if_pos hok]
    rw [Bool.and_eq_true, beq_iff_eq, beq_iff_eq] at hok
    obtain ⟨rfl, rfl⟩ := hok
    exact ⟨0x88, [], rfl, by decide, fun more => ⟨_, .indexed 8, rfl,
      ⟨reads_owned d _, fun _ => rfl, fun _ => rfl, rfl⟩, rfl⟩⟩
  · rw [if_neg hok, writeLiteral]
    cases hindex : staticNameIndex name with
    | some index =>
      obtain ⟨hzero, hle, f, hf, rfl⟩ := staticNameIndex_eq hindex
      obtain ⟨b, tail, hhead, hb⟩ := @head_writeInt 4 index (by decide)
      have hplain := plain_of_le hb
      simp only [writeLiteralAt, writeString_ok hvalue]
      refine ⟨b, tail ++ (writeInt 0x00 7 value.length ++ value), ?_, hplain.notUpdate,
        fun more => ?_⟩
      · rw [← List.cons_append, ← hhead]
        rfl
      · have hread := @readInt_writeInt 4 (by decide) 0x00 (by decide) index (by omega)
          (writeInt 0x00 7 value.length ++ value ++ more)
        rw [hhead] at hread
        have hread' : d.readName 4 (b :: tail ++ (writeInt 0x00 7 value.length ++ value ++ more)) =
            .ok ((.owned f.name, false), writeInt 0x00 7 value.length ++ value ++ more) := by
          rw [Decoder.readName, Front.bind_of_ok hread, if_neg hzero, lookup_static d hzero hle hf]
          rfl
        obtain ⟨found, hgot, hfinds⟩ := readField_literal d hplain hread' rfl hvalue more rfl
        refine ⟨found, _, ?_, hfinds, rfl⟩
        rw [← hgot]
        simp only [List.cons_append, List.append_assoc]
    | none =>
      have hplain : Plain 0x00 := plain_of_le (by decide)
      simp only [writeString_ok hname, writeString_ok hvalue]
      refine ⟨0x00, writeInt 0x00 7 name.length ++ name ++ (writeInt 0x00 7 value.length ++ value),
        ?_, hplain.notUpdate, fun more => ?_⟩
      · rfl
      · have hread : readInt 4 (0x00 :: (writeInt 0x00 7 name.length ++ name ++
            (writeInt 0x00 7 value.length ++ value ++ more))) =
            .ok (0, writeInt 0x00 7 name.length ++ name ++
              (writeInt 0x00 7 value.length ++ value ++ more)) :=
          @readInt_writeInt 4 (by decide) 0x00 (by decide) 0 (by decide) _
        have hread' : d.readName 4 (0x00 :: (writeInt 0x00 7 name.length ++ name ++
            (writeInt 0x00 7 value.length ++ value ++ more))) =
            .ok ((.owned name, false), writeInt 0x00 7 value.length ++ value ++ more) := by
          rw [Decoder.readName, Front.bind_of_ok hread, if_pos rfl]
          exact (Front.bind_of_ok (readString_writeString hname _)).trans rfl
        obtain ⟨found, hgot, hfinds⟩ := readField_literal d hplain hread' rfl hvalue more rfl
        refine ⟨found, _, ?_, hfinds, rfl⟩
        rw [← hgot]
        simp only [List.cons_append, List.append_assoc]

/-! ## A block -/

/-- The loop over what is written for `fields`, from where the fields `all` are read. -/
theorem blockWithin_encodeBlock {d : Decoder} (howed : d.owedUpdate = false) {fields : List Field}
    (hshort : ∀ f ∈ fields, f.name.length < 2 ^ 32 ∧ f.value.length < 2 ^ 32) :
    ∃ block, encodeBlock fields = .ok block ∧ ∀ n first maxList all, block.length ≤ n →
      blockWithin maxList n (progressAt maxList d first all) block =
        (d, .ok (listedWithin maxList (all ++ fields))) := by
  induction fields with
  | nil =>
    refine ⟨[], rfl, fun n first maxList all _ => ?_⟩
    rw [blockWithin, progressAt, howed, Bool.and_false, List.append_nil]
    rfl
  | cons f rest ih =>
    obtain ⟨hname, hvalue⟩ := hshort f List.mem_cons_self
    obtain ⟨b, tail, hfirst, hfield, hread⟩ := readField_writeField d f hname hvalue
    obtain ⟨more, hmore, hloop⟩ := ih fun f hf => hshort f (List.mem_cons_of_mem _ hf)
    refine ⟨b :: tail ++ more, ?_, fun n first maxList all hn => ?_⟩
    · rw [encodeBlock, hfirst, hmore]
      rfl
    · obtain ⟨found, rep, hgot, hfinds, hincremental⟩ := hread more
      have hinsert : (if rep.incremental then d.insert f.owned else .ok d) = .ok d := by
        rw [hincremental, if_neg Bool.false_ne_true]
      have hturn : blockTurn maxList (progressAt maxList d first all) b (b :: tail ++ more) =
          .ok (progressAt maxList d false (all ++ [f]), more) := by
        have htake := hfinds.take hinsert first maxList all
        have hnone : ¬ ((progressAt maxList d first all).first &&
            (progressAt maxList d first all).decoder.owedUpdate) = true := by
          rw [progressAt, howed, Bool.and_false]
          exact Bool.false_ne_true
        rw [blockTurn, if_neg hfield, if_neg hnone]
        refine (Front.bind_of_ok hgot).trans ?_
        rw [htake]
        rfl
      cases n with
      | zero => simp at hn
      | succ n =>
        rw [List.cons_append] at hn hturn ⊢
        simp only [blockWithin, hturn]
        rw [hloop n false maxList (all ++ [f]) (by simp at hn; omega), List.append_assoc]
        rfl

/-- A block that is written is read by any decoder as the fields it is written from, in their order
and as far as the limit of the list reaches, and leaves the decoder as it was; but a decoder whose
client owes a size update (§4.2) refuses it. An integer of any prefix is read back, with no byte more
than was written, and none makes the reader overflow. -/
theorem decode_encodeBlock :
    (∀ (fields : List Field), (∀ f ∈ fields, f.name.length < 2 ^ 32 ∧ f.value.length < 2 ^ 32) →
      ∃ block, encodeBlock fields = .ok block ∧
        ∀ d : Decoder, d.owedUpdate = false → ∀ maxList,
          d.decode block maxList = (d, .ok (listedWithin maxList fields)) ∧
          (total Field.weight fields ≤ maxList →
            d.decode block maxList = (d, .ok (fields.map Field.owned, false)))) ∧
    (∀ n, 1 ≤ n → n ≤ 8 → ∀ (high : UInt8), high.toNat &&& prefixMask n = 0 →
      ∀ value < 2 ^ 32, ∀ more,
        readInt n (writeInt high n value ++ more) = .ok (value, more)) ∧
    ∀ n ≤ 8, ∀ block fault, readInt n block ≠ .error (.fault fault) := by
  refine ⟨fun fields hshort => ?_, fun n _ hn high hhigh value hvalue more =>
    readInt_writeInt hn hhigh hvalue more, fun n hn block fault => readInt_no_fault hn block fault⟩
  obtain ⟨block, hblock, -⟩ := @blockWithin_encodeBlock Decoder.init rfl fields hshort
  refine ⟨block, hblock, fun d howed maxList => ?_⟩
  obtain ⟨block', hblock', hloop⟩ := blockWithin_encodeBlock howed hshort
  obtain rfl : block = block' := Except.ok.inj (hblock.symm.trans hblock')
  have hall : d.decode block maxList = (d, .ok (listedWithin maxList fields)) :=
    hloop block.length true maxList [] (Nat.le_refl _)
  refine ⟨hall, fun hfits => ?_⟩
  rw [hall, listedWithin, Lib.fitting_of_le _ hfits, decide_eq_false (Nat.not_lt_of_le hfits)]

theorem decode_encodeBlock_example :
    ∃ block, encodeBlock [⟨ascii ":status", ascii "200"⟩, ⟨ascii "grpc-status", ascii "0"⟩] = .ok block ∧
      Decoder.init.decode block 256 = (Decoder.init,
        .ok ([Field.owned ⟨ascii ":status", ascii "200"⟩, Field.owned ⟨ascii "grpc-status", ascii "0"⟩],
          false)) := by
  obtain ⟨block, hblock, hread⟩ := decode_encodeBlock.1
    [⟨ascii ":status", ascii "200"⟩, ⟨ascii "grpc-status", ascii "0"⟩] (by decide)
  exact ⟨block, hblock, (hread Decoder.init rfl 256).2 (by decide)⟩

/-- A decoder that has allowed a smaller table than the client has set refuses what is written. -/
theorem decode_encodeBlock_owed :
    ¬ ∀ (fields : List Field) (block : Bytes) (events : List Event) (maxList : Nat),
      encodeBlock fields = .ok block → total Field.weight fields ≤ maxList →
        (Decoder.init.after events).1.decode block maxList =
          ((Decoder.init.after events).1, .ok (fields.map Field.owned, false)) := by
  intro hall
  have hread := hall [⟨ascii ":status", ascii "200"⟩] [0x88] [.allow 0] 256 rfl (by decide)
  exact absurd (congrArg Prod.snd hread) (by decide)

end Nilo.Hpack
