import Nilo.Proto.Utf8

/-!
# Whether text is UTF-8, a block at a time (`http/utf8.zig`)

`valid` looks at each byte together with the three before it (`fault`), 32 bytes at once, and at the
end of the text for a character cut short (`endsInside`). Blocks of ASCII are passed by with one
compare. `good_iff` says that four bytes at a time are enough to tell: a text none of whose bytes is
a fault, and which does not end inside a character, is a run of whole characters. `valid_iff` says
that the blocks look at every byte of it.
-/

namespace Nilo.Utf8Block

open Text (Bytes)
open Utf8 (isContinuation secondOfThree secondOfFour isChar utf8ValidateSlice)

/-! ## The blocks -/

def lanes : Nat := 32

/-- `text[i..][0..lanes]` -/
def blockAt (text : Bytes) (i : Nat) : Bytes := (text.drop i).take lanes

/-- `@reduce(.Or, block >= high)` -/
def anyHigh (block : Bytes) : Bool := block.any (0x80 ≤ ·)

/-- `block` moved `n` places along, the bytes that come in at the front being the last `n` of
`prev`. -/
def behind (n : Nat) (prev block : Bytes) : Bytes :=
  (List.range lanes).map fun k =>
    if k < n then prev.getD (lanes - n + k) 0 else block.getD (k - n) 0

/-- A lane of `faults`: whether a byte is wrong given the three before it. -/
def fault (p3 p2 p1 b : UInt8) : Bool :=
  -- A lead byte one back wants one more, two back wants two, three back wants three.
  let mustContinue := 0xC2 ≤ p1 || 0xE0 ≤ p2 || 0xF0 ≤ p3
  (mustContinue ^^ (b &&& 0xC0 = 0x80)) ||
    (b = 0xC0 || b = 0xC1 || 0xF5 ≤ b) ||
    (p1 = 0xE0 && b < 0xA0) ||
    (p1 = 0xED && 0xA0 ≤ b) ||
    (p1 = 0xF0 && b < 0x90) ||
    (p1 = 0xF4 && 0x90 ≤ b)

def faults (prev block : Bytes) : List Bool :=
  let p1 := behind 1 prev block
  let p2 := behind 2 prev block
  let p3 := behind 3 prev block
  (List.range lanes).map fun k => fault (p3.getD k 0) (p2.getD k 0) (p1.getD k 0) (block.getD k 0)

/-- Whether a block ends partway through a character. -/
def endsInside (block : Bytes) : Bool :=
  0xC0 ≤ block.getD (lanes - 1) 0 || 0xE0 ≤ block.getD (lanes - 2) 0 ||
    0xF0 ≤ block.getD (lanes - 3) 0

/-- The first loop of `valid`: where it stops, and whether a block with a byte past ASCII stopped
it. -/
def asciiBlocks (text : Bytes) : Nat → Nat → Nat × Bool
  | 0, i => (i, false)
  | n + 1, i =>
    if i + lanes ≤ text.length then
      if anyHigh (blockAt text i) then (i, true) else asciiBlocks text n (i + lanes)
    else (i, false)

/-- The second loop: where it stops and the block it saw last, or nothing for a text that is
refused. -/
def checkBlocks (text : Bytes) : Nat → Nat → Bytes → Option (Nat × Bytes)
  | 0, i, prev => some (i, prev)
  | n + 1, i, prev =>
    if i + lanes ≤ text.length then
      let block := blockAt text i
      if anyHigh block then
        if (faults prev block).any id then none else checkBlocks text n (i + lanes) block
      else if endsInside prev then none
      else checkBlocks text n (i + lanes) block
    else some (i, prev)

/-- `raw`: the three bytes before `start`, put where `prev` keeps them. -/
def rawBefore (text : Bytes) (start : Nat) : Bytes :=
  (List.range lanes).map fun lane =>
    let k := lanes - 1 - lane
    if k < min 3 start then text.getD (start - 1 - k) 0 else 0

def valid (text : Bytes) : Bool :=
  if text.length < lanes then utf8ValidateSlice text
  else
    let (i, stopped) := asciiBlocks text text.length 0
    if !stopped && (i = text.length || !anyHigh (blockAt text (text.length - lanes))) then true
    else
      -- Every byte before `i` is ASCII, and zeros stand in for the block before it.
      match checkBlocks text text.length i (List.replicate lanes 0) with
      | none => false
      | some (i, last) =>
        if i < text.length then
          -- Not a whole block left: the last one.
          let start := text.length - lanes
          let block := blockAt text start
          if (faults (rawBefore text start) block).any id then false else !endsInside block
        else !endsInside last

/-! ## Four bytes at a time -/

theorem isContinuation_iff (b : UInt8) :
    isContinuation b = true ↔ 0x80 ≤ b.toNat ∧ b.toNat ≤ 0xBF := by
  simp only [isContinuation, Bool.and_eq_true, decide_eq_true_eq, UInt8.le_iff_toNat_le]
  exact Iff.rfl

theorem and_eq_iff_isContinuation (b : UInt8) : b &&& 0xC0 = 0x80 ↔ isContinuation b = true := by
  have h : ∀ b : UInt8, decide (b &&& 0xC0 = 0x80) = isContinuation b :=
    Text.forall_byte (by decide)
  rw [← h b, decide_eq_true_iff]

theorem secondOfThree_iff {lead b : UInt8} : secondOfThree lead b = true ↔
    (0x80 ≤ b.toNat ∧ b.toNat ≤ 0xBF) ∧ (lead.toNat = 0xE0 → 0xA0 ≤ b.toNat) ∧
      (lead.toNat = 0xED → b.toNat < 0xA0) := by
  unfold secondOfThree
  split_ifs with hE0 hED
  · subst hE0
    simp only [Bool.and_eq_true, decide_eq_true_eq, UInt8.le_iff_toNat_le, UInt8.reduceToNat]
    exact ⟨fun h => ⟨by omega, fun _ => h.1, fun he => absurd he (by decide)⟩,
      fun h => ⟨h.2.1 trivial, h.1.2⟩⟩
  · subst hED
    simp only [Bool.and_eq_true, decide_eq_true_eq, UInt8.le_iff_toNat_le, UInt8.reduceToNat]
    exact ⟨fun h => ⟨by omega, fun he => absurd he (by decide), fun _ => by omega⟩,
      fun h => ⟨h.1.1, Nat.le_of_lt_succ (h.2.2 trivial)⟩⟩
  · rw [← UInt8.toNat_inj] at hE0 hED
    rw [isContinuation_iff]
    exact ⟨fun h => ⟨h, fun he => absurd he hE0, fun he => absurd he hED⟩, And.left⟩

theorem secondOfFour_iff {lead b : UInt8} : secondOfFour lead b = true ↔
    (0x80 ≤ b.toNat ∧ b.toNat ≤ 0xBF) ∧ (lead.toNat = 0xF0 → 0x90 ≤ b.toNat) ∧
      (lead.toNat = 0xF4 → b.toNat < 0x90) := by
  unfold secondOfFour
  split_ifs with hF0 hF4
  · subst hF0
    simp only [Bool.and_eq_true, decide_eq_true_eq, UInt8.le_iff_toNat_le, UInt8.reduceToNat]
    exact ⟨fun h => ⟨by omega, fun _ => h.1, fun he => absurd he (by decide)⟩,
      fun h => ⟨h.2.1 trivial, h.1.2⟩⟩
  · subst hF4
    simp only [Bool.and_eq_true, decide_eq_true_eq, UInt8.le_iff_toNat_le, UInt8.reduceToNat]
    exact ⟨fun h => ⟨by omega, fun he => absurd he (by decide), fun _ => by omega⟩,
      fun h => ⟨h.1.1, Nat.le_of_lt_succ (h.2.2 trivial)⟩⟩
  · rw [← UInt8.toNat_inj] at hF0 hF4
    rw [isContinuation_iff]
    exact ⟨fun h => ⟨h, fun he => absurd he hF0, fun he => absurd he hF4⟩, And.left⟩

/-- What a byte that is no fault is, as numbers. -/
theorem fault_eq_false_iff {p3 p2 p1 b : UInt8} :
    fault p3 p2 p1 b = false ↔
      ((0xC2 ≤ p1.toNat ∨ 0xE0 ≤ p2.toNat ∨ 0xF0 ≤ p3.toNat) ↔
        (0x80 ≤ b.toNat ∧ b.toNat ≤ 0xBF)) ∧
      b.toNat ≠ 0xC0 ∧ b.toNat ≠ 0xC1 ∧ b.toNat < 0xF5 ∧
      (p1.toNat = 0xE0 → 0xA0 ≤ b.toNat) ∧ (p1.toNat = 0xED → b.toNat < 0xA0) ∧
      (p1.toNat = 0xF0 → 0x90 ≤ b.toNat) ∧ (p1.toNat = 0xF4 → b.toNat < 0x90) := by
  rw [← isContinuation_iff, ← and_eq_iff_isContinuation]
  by_cases hcont : b &&& 0xC0 = 0x80
  · simp only [fault, hcont, decide_true, Bool.xor_true, iff_true, Bool.or_eq_false_iff,
      Bool.and_eq_false_iff, Bool.not_eq_false', Bool.or_eq_true, decide_eq_true_eq,
      decide_eq_false_iff_not, UInt8.le_iff_toNat_le, UInt8.lt_iff_toNat_lt, ← UInt8.toNat_inj,
      UInt8.reduceToNat]
    omega
  · simp only [fault, hcont, decide_false, Bool.xor_false, iff_false, Bool.or_eq_false_iff,
      Bool.and_eq_false_iff, decide_eq_false_iff_not, UInt8.le_iff_toNat_le,
      UInt8.lt_iff_toNat_lt, ← UInt8.toNat_inj, UInt8.reduceToNat]
    omega

/-- No byte of a text is a fault, read with the three bytes before it, and the text does not end
inside a character. -/
def scan (p3 p2 p1 : UInt8) : Bytes → Bool
  | [] => !(0xC0 ≤ p1 || 0xE0 ≤ p2 || 0xF0 ≤ p3)
  | b :: rest => !fault p3 p2 p1 b && scan p2 p1 b rest

/-- Three bytes that ask nothing of the next. -/
structure Clean (p3 p2 p1 : UInt8) : Prop where
  one : p1.toNat < 0xC0
  two : p2.toNat < 0xE0
  three : p3.toNat < 0xF0

variable {p3 p2 p1 lead b c d : UInt8} {text rest : Bytes}

theorem scan_nil : scan p3 p2 p1 [] = true ↔ Clean p3 p2 p1 := by
  simp only [scan, Bool.not_eq_true', Bool.or_eq_false_iff, decide_eq_false_iff_not,
    UInt8.le_iff_toNat_le, UInt8.reduceToNat, Nat.not_le]
  exact ⟨fun h => ⟨h.1.1, h.1.2, h.2⟩, fun h => ⟨⟨h.one, h.two⟩, h.three⟩⟩

theorem scan_cons : scan p3 p2 p1 (b :: rest) = true ↔
    fault p3 p2 p1 b = false ∧ scan p2 p1 b rest = true := by
  rw [scan, Bool.and_eq_true, Bool.not_eq_true']

/-- A byte that nothing was asked of opens a character. -/
theorem Clean.fault_iff (h : Clean p3 p2 p1) : fault p3 p2 p1 lead = false ↔
    lead.toNat < 0x80 ∨ 0xC2 ≤ lead.toNat ∧ lead.toNat ≤ 0xF4 := by
  obtain ⟨hone, htwo, hthree⟩ := h
  rw [fault_eq_false_iff]
  omega

/-- The byte behind a lead byte. -/
theorem Clean.fault_second (h : Clean p3 p2 p1) (hlow : 0xC2 ≤ lead.toNat)
    (hhigh : lead.toNat ≤ 0xF4) : fault p2 p1 lead b = false ↔
      isContinuation b = true ∧ (lead.toNat = 0xE0 → 0xA0 ≤ b.toNat) ∧
        (lead.toNat = 0xED → b.toNat < 0xA0) ∧ (lead.toNat = 0xF0 → 0x90 ≤ b.toNat) ∧
        (lead.toNat = 0xF4 → b.toNat < 0x90) := by
  obtain ⟨hone, htwo, hthree⟩ := h
  rw [fault_eq_false_iff, isContinuation_iff]
  omega

/-- A byte that is asked for from further back, behind a continuation byte. -/
theorem fault_later (hb : b.toNat ≤ 0xBF) (hasked : 0xE0 ≤ p2.toNat ∨ 0xF0 ≤ p3.toNat) :
    fault p3 p2 b c = false ↔ isContinuation c = true := by
  rw [fault_eq_false_iff, isContinuation_iff]
  omega

/-- Where nothing is asked of the first byte, looking at four bytes at a time and reading a
character at a time come to the same. -/
theorem scan_iff (h : Clean p3 p2 p1) :
    scan p3 p2 p1 text = true ↔ utf8ValidateSlice text = true := by
  induction hn : text.length using Nat.strong_induction_on generalizing text p3 p2 p1 with
  | h n ih =>
    match text with
    | [] => exact ⟨fun _ => rfl, fun _ => scan_nil.mpr h⟩
    | lead :: rest =>
      rw [List.length_cons] at hn
      rw [scan_cons, h.fault_iff]
      by_cases hone : lead < 0x80
      · rw [Utf8.utf8ValidateSlice_one hone]
        simp only [UInt8.lt_iff_toNat_lt, UInt8.reduceToNat] at hone
        have hnext : Clean p2 p1 lead := ⟨by omega, by have := h.one; omega, by have := h.two; omega⟩
        exact (and_iff_right (.inl hone)).trans (ih rest.length (by omega) hnext rfl)
      by_cases htwo : 0xC2 ≤ lead ∧ lead ≤ 0xDF
      · rw [Utf8.utf8ValidateSlice_two htwo]
        simp only [UInt8.le_iff_toNat_le, UInt8.reduceToNat] at htwo
        rw [and_iff_right (.inr ⟨htwo.1, by omega⟩)]
        match rest with
        | [] =>
          refine iff_of_false (fun hscan => ?_) Bool.false_ne_true
          have hclean := (scan_nil.mp hscan).one
          omega
        | b :: rest =>
          rw [List.length_cons] at hn
          rw [scan_cons, h.fault_second htwo.1 (by omega), Bool.and_eq_true]
          constructor
          · rintro ⟨⟨hb, -⟩, hscan⟩
            have hb' := (isContinuation_iff b).mp hb
            have hnext : Clean p1 lead b := ⟨by omega, by omega, by have := h.one; omega⟩
            exact ⟨hb, (ih rest.length (by omega) hnext rfl).mp hscan⟩
          · rintro ⟨hb, hvalid⟩
            have hb' := (isContinuation_iff b).mp hb
            have hnext : Clean p1 lead b := ⟨by omega, by omega, by have := h.one; omega⟩
            exact ⟨⟨hb, by omega⟩, (ih rest.length (by omega) hnext rfl).mpr hvalid⟩
      by_cases hthree : 0xE0 ≤ lead ∧ lead ≤ 0xEF
      · rw [Utf8.utf8ValidateSlice_three hthree]
        simp only [UInt8.le_iff_toNat_le, UInt8.reduceToNat] at hthree
        rw [and_iff_right (.inr ⟨by omega, by omega⟩)]
        match rest with
        | [] =>
          refine iff_of_false (fun hscan => ?_) Bool.false_ne_true
          have hclean := (scan_nil.mp hscan).one
          omega
        | [b] =>
          refine iff_of_false (fun hscan => ?_) Bool.false_ne_true
          have hclean := (scan_nil.mp (scan_cons.mp hscan).2).two
          omega
        | b :: c :: rest =>
          simp only [List.length_cons] at hn
          rw [scan_cons, scan_cons, h.fault_second (by omega) (by omega), Bool.and_eq_true,
            Bool.and_eq_true, secondOfThree_iff, isContinuation_iff]
          constructor
          · rintro ⟨⟨hb, hsecond⟩, hc, hscan⟩
            rw [fault_later hb.2 (.inl hthree.1)] at hc
            have hc' := (isContinuation_iff c).mp hc
            have hnext : Clean lead b c := ⟨by omega, by omega, by omega⟩
            exact ⟨⟨⟨hb, by omega⟩, hc⟩, (ih rest.length (by omega) hnext rfl).mp hscan⟩
          · rintro ⟨⟨⟨hb, hsecond⟩, hc⟩, hvalid⟩
            have hc' := (isContinuation_iff c).mp hc
            have hnext : Clean lead b c := ⟨by omega, by omega, by omega⟩
            exact ⟨⟨hb, by omega⟩, (fault_later hb.2 (.inl hthree.1)).mpr hc,
              (ih rest.length (by omega) hnext rfl).mpr hvalid⟩
      by_cases hfour : 0xF0 ≤ lead ∧ lead ≤ 0xF4
      · rw [Utf8.utf8ValidateSlice_four hfour]
        simp only [UInt8.le_iff_toNat_le, UInt8.reduceToNat] at hfour
        rw [and_iff_right (.inr ⟨by omega, by omega⟩)]
        match rest with
        | [] =>
          refine iff_of_false (fun hscan => ?_) Bool.false_ne_true
          have hclean := (scan_nil.mp hscan).one
          omega
        | [b] =>
          refine iff_of_false (fun hscan => ?_) Bool.false_ne_true
          have hclean := (scan_nil.mp (scan_cons.mp hscan).2).two
          omega
        | [b, c] =>
          refine iff_of_false (fun hscan => ?_) Bool.false_ne_true
          have hclean := (scan_nil.mp (scan_cons.mp (scan_cons.mp hscan).2).2).three
          omega
        | b :: c :: d :: rest =>
          simp only [List.length_cons] at hn
          rw [scan_cons, scan_cons, scan_cons, h.fault_second (by omega) (by omega),
            Bool.and_eq_true, Bool.and_eq_true, Bool.and_eq_true, secondOfFour_iff,
            isContinuation_iff]
          constructor
          · rintro ⟨⟨hb, hsecond⟩, hc, hd, hscan⟩
            rw [fault_later hb.2 (.inl (by omega))] at hc
            have hc' := (isContinuation_iff c).mp hc
            rw [fault_later hc'.2 (.inr hfour.1)] at hd
            have hd' := (isContinuation_iff d).mp hd
            have hnext : Clean b c d := ⟨by omega, by omega, by omega⟩
            exact ⟨⟨⟨⟨hb, by omega⟩, hc⟩, hd⟩, (ih rest.length (by omega) hnext rfl).mp hscan⟩
          · rintro ⟨⟨⟨⟨hb, hsecond⟩, hc⟩, hd⟩, hvalid⟩
            have hc' := (isContinuation_iff c).mp hc
            have hd' := (isContinuation_iff d).mp hd
            have hnext : Clean b c d := ⟨by omega, by omega, by omega⟩
            exact ⟨⟨hb, by omega⟩, (fault_later hb.2 (.inl (by omega))).mpr hc,
              (fault_later hc'.2 (.inr hfour.1)).mpr hd,
              (ih rest.length (by omega) hnext rfl).mpr hvalid⟩
      · rw [Utf8.utf8ValidateSlice_none hone htwo hthree hfour]
        simp only [UInt8.lt_iff_toNat_lt, UInt8.le_iff_toNat_le, UInt8.reduceToNat] at hone htwo hthree hfour
        refine iff_of_false (fun hscan => ?_) Bool.false_ne_true
        omega

/-! ## The places of a text -/

/-- The byte `n` places before place `j`, zero before the text. -/
def byteBefore (text : Bytes) (j n : Nat) : UInt8 := if n ≤ j then text.getD (j - n) 0 else 0

def faultAt (text : Bytes) (j : Nat) : Bool :=
  fault (byteBefore text j 3) (byteBefore text j 2) (byteBefore text j 1) (text.getD j 0)

/-- Whether place `j` is inside a character. -/
def openAt (text : Bytes) (j : Nat) : Bool :=
  0xC0 ≤ byteBefore text j 1 || 0xE0 ≤ byteBefore text j 2 || 0xF0 ≤ byteBefore text j 3

/-- No byte of the text is a fault, and it does not end inside a character. -/
structure Good (text : Bytes) : Prop where
  faultless : ∀ j < text.length, faultAt text j = false
  whole : openAt text text.length = false

theorem byteBefore_succ (text : Bytes) (j n : Nat) :
    byteBefore text (j + 1) (n + 1) = byteBefore text j n := by
  simp only [byteBefore, Nat.add_le_add_iff_right, Nat.add_sub_add_right]

theorem byteBefore_zero (text : Bytes) (j : Nat) : byteBefore text j 0 = text.getD j 0 :=
  if_pos (Nat.zero_le j)

theorem openAt_eq_false_iff {j : Nat} : openAt text j = false ↔
    Clean (byteBefore text j 3) (byteBefore text j 2) (byteBefore text j 1) := by
  rw [← scan_nil, scan, Bool.not_eq_true']
  rfl

theorem scan_iff_places {front : Bytes} (h : text = front ++ rest) :
    scan (byteBefore text front.length 3) (byteBefore text front.length 2)
        (byteBefore text front.length 1) rest = true ↔
      (∀ j, front.length ≤ j → j < text.length → faultAt text j = false) ∧
        openAt text text.length = false := by
  induction rest generalizing front with
  | nil =>
    rw [List.append_nil] at h
    rw [scan_nil, ← openAt_eq_false_iff, ← h]
    refine ⟨fun hopen => ⟨fun j hle hlt => absurd hlt (Nat.not_lt.mpr hle), hopen⟩, And.right⟩
  | cons b rest ih =>
    have hget : text.getD front.length 0 = b := by
      rw [h, List.getD_eq_getElem?_getD, List.getElem?_append_right (Nat.le_refl _), Nat.sub_self]
      rfl
    have hlength : text.length = front.length + (rest.length + 1) := by
      rw [h, List.length_append, List.length_cons]
    have hnext := @ih (front ++ [b]) (by rw [h, List.append_assoc]; rfl)
    rw [List.length_append, List.length_singleton, byteBefore_succ, byteBefore_succ,
      byteBefore_succ, byteBefore_zero, hget] at hnext
    have hfault : faultAt text front.length = fault (byteBefore text front.length 3)
        (byteBefore text front.length 2) (byteBefore text front.length 1) b := by
      rw [faultAt, hget]
    rw [scan_cons, hnext, ← hfault]
    constructor
    · rintro ⟨hhere, hlater, hopen⟩
      refine ⟨fun j hle hlt => ?_, hopen⟩
      rcases Nat.eq_or_lt_of_le hle with rfl | hbeyond
      · exact hhere
      · exact hlater j hbeyond hlt
    · rintro ⟨hall, hopen⟩
      exact ⟨hall _ (Nat.le_refl _) (by omega), fun j hle hlt => hall j (by omega) hlt, hopen⟩

/-- Four bytes at a time are enough to tell. -/
theorem good_iff : Good text ↔ utf8ValidateSlice text = true := by
  have hplaces := @scan_iff_places text text [] rfl
  have hclean : Clean 0 0 0 := ⟨by decide, by decide, by decide⟩
  rw [← scan_iff hclean]
  refine Iff.trans ?_ hplaces.symm
  exact ⟨fun h => ⟨fun j _ hlt => h.faultless j hlt, h.whole⟩,
    fun h => ⟨fun j hlt => h.1 j (Nat.zero_le j) hlt, h.2⟩⟩

/-! ## The blocks look at every place -/

/-- Two bytes that ask for the same: the same byte, or both of them ASCII. -/
def Like (p q : UInt8) : Prop := p.toNat = q.toNat ∨ p.toNat < 0x80 ∧ q.toNat < 0x80

theorem fault_congr {q3 q2 q1 : UInt8} (h3 : Like p3 q3) (h2 : Like p2 q2) (h1 : Like p1 q1) :
    fault p3 p2 p1 b = fault q3 q2 q1 b := by
  have hiff : fault p3 p2 p1 b = false ↔ fault q3 q2 q1 b = false := by
    rw [fault_eq_false_iff, fault_eq_false_iff]
    unfold Like at h1 h2 h3
    omega
  cases hp : fault p3 p2 p1 b with
  | false => exact (hiff.mp hp).symm
  | true =>
    cases hq : fault q3 q2 q1 b with
    | false => exact absurd (hiff.mpr hq) (by rw [hp]; decide)
    | true => rfl

variable {prev : Bytes} {i k n : Nat}

/-- The last three bytes of `prev` stand for those before place `i`. -/
def Carries (text prev : Bytes) (i : Nat) : Prop :=
  ∀ n, 1 ≤ n → n ≤ 3 → Like (prev.getD (lanes - n) 0) (byteBefore text i n)

theorem getD_map_range {α : Type} (f : Nat → α) (x : α) (h : k < n) :
    ((List.range n).map f).getD k x = f k := by
  rw [List.getD_eq_getElem?_getD, List.getElem?_map, List.getElem?_range h]
  rfl

theorem blockAt_getD (text : Bytes) (i : Nat) (hk : k < lanes) :
    (blockAt text i).getD k 0 = text.getD (i + k) 0 := by
  rw [blockAt, List.getD_eq_getElem?_getD, List.getElem?_take_of_lt hk, List.getElem?_drop,
    List.getD_eq_getElem?_getD]

theorem Carries.lane (h : Carries text prev i) (hk : k < lanes) (hn : 1 ≤ n) (hn' : n ≤ 3) :
    Like ((behind n prev (blockAt text i)).getD k 0) (byteBefore text (i + k) n) := by
  have hlanes : lanes = 32 := rfl
  rw [behind, getD_map_range _ _ hk]
  by_cases hkn : k < n
  · have hback := h (n - k) (by omega) (by omega)
    have hsame : byteBefore text (i + k) n = byteBefore text i (n - k) := by
      simp only [byteBefore, Nat.sub_le_iff_le_add, show i + k - n = i - (n - k) by omega]
    rw [if_pos hkn, hsame, show lanes - n + k = lanes - (n - k) by omega]
    exact hback
  · have hsame : byteBefore text (i + k) n = text.getD (i + (k - n)) 0 := by
      rw [byteBefore, if_pos (by omega), show i + k - n = i + (k - n) by omega]
    rw [if_neg hkn, blockAt_getD _ _ (by omega), hsame]
    exact .inl rfl

/-- A block has a fault where the text has one. -/
theorem Carries.faults_any (h : Carries text prev i) :
    (faults prev (blockAt text i)).any id = true ↔ ∃ k < lanes, faultAt text (i + k) = true := by
  have hlane : ∀ k < lanes, fault ((behind 3 prev (blockAt text i)).getD k 0)
      ((behind 2 prev (blockAt text i)).getD k 0) ((behind 1 prev (blockAt text i)).getD k 0)
      ((blockAt text i).getD k 0) = faultAt text (i + k) := by
    intro k hk
    rw [blockAt_getD _ _ hk, faultAt]
    exact fault_congr (h.lane hk (by decide) (by decide)) (h.lane hk (by decide) (by decide))
      (h.lane hk (by decide) (by decide))
  simp only [faults, List.any_map, List.any_eq_true, List.mem_range, Function.comp_apply, id_eq]
  constructor
  · rintro ⟨k, hk, hfault⟩
    exact ⟨k, hk, (hlane k hk).symm.trans hfault⟩
  · rintro ⟨k, hk, hfault⟩
    exact ⟨k, hk, (hlane k hk).trans hfault⟩

/-- A block carries its own last three bytes. -/
theorem carries_blockAt (text : Bytes) (i : Nat) : Carries text (blockAt text i) (i + lanes) := by
  have hlanes : lanes = 32 := rfl
  intro n hn hn'
  rw [blockAt_getD _ _ (by omega), byteBefore, if_pos (by omega),
    show i + lanes - n = i + (lanes - n) by omega]
  exact .inl rfl

theorem carries_rawBefore (text : Bytes) (i : Nat) : Carries text (rawBefore text i) i := by
  have hlanes : lanes = 32 := rfl
  intro n hn hn'
  have hlane : lanes - 1 - (lanes - n) = n - 1 := by omega
  have hlt : n - 1 < min 3 i ↔ n ≤ i := by omega
  rw [rawBefore, getD_map_range _ _ (by omega)]
  simp only [hlane, hlt, byteBefore, show i - 1 - (n - 1) = i - n by omega]
  exact .inl rfl

theorem Carries.endsInside_eq (h : Carries text prev i) : endsInside prev = openAt text i := by
  have hge : ∀ {m p q : UInt8}, 0x80 ≤ m.toNat → Like p q → decide (m ≤ p) = decide (m ≤ q) := by
    intro m p q hm hlike
    rw [decide_eq_decide, UInt8.le_iff_toNat_le, UInt8.le_iff_toNat_le]
    unfold Like at hlike
    omega
  rw [endsInside, openAt, hge (by decide) (h 1 (by decide) (by decide)),
    hge (by decide) (h 2 (by decide) (by decide)), hge (by decide) (h 3 (by decide) (by decide))]

/-! ## ASCII -/

theorem not_anyHigh (h : anyHigh (blockAt text i) = false) (hi : i + lanes ≤ text.length)
    {j : Nat} (hij : i ≤ j) (hj : j < i + lanes) : (text.getD j 0).toNat < 0x80 := by
  have hmem : text.getD j 0 ∈ blockAt text i := by
    obtain ⟨k, rfl⟩ := Nat.exists_eq_add_of_le hij
    have hk : k < lanes := Nat.lt_of_add_lt_add_left hj
    have hlen : (blockAt text i).length = lanes := by
      rw [blockAt, List.length_take, List.length_drop]
      omega
    rw [← blockAt_getD text i hk, List.getD_eq_getElem?_getD,
      List.getElem?_eq_getElem (by rw [hlen]; exact hk), Option.getD_some]
    exact List.getElem_mem _
  have hlow := List.any_eq_false.mp h _ hmem
  rw [decide_eq_true_eq, UInt8.not_le, UInt8.lt_iff_toNat_lt] at hlow
  exact hlow

/-- The text is ASCII up to a place. -/
def AsciiTo (text : Bytes) (i : Nat) : Prop := ∀ j < i, (text.getD j 0).toNat < 0x80

theorem AsciiTo.byteBefore_lt (h : AsciiTo text i) {j n : Nat} (hj : j ≤ i) (hn : 1 ≤ n) :
    (byteBefore text j n).toNat < 0x80 := by
  unfold byteBefore
  split_ifs with hle
  · exact h _ (by omega)
  · decide

theorem AsciiTo.faultAt (h : AsciiTo text i) {j : Nat} (hj : j < i) :
    faultAt text j = false := by
  have h1 := h.byteBefore_lt (Nat.le_of_lt hj) (n := 1) (by decide)
  have h2 := h.byteBefore_lt (Nat.le_of_lt hj) (n := 2) (by decide)
  have h3 := h.byteBefore_lt (Nat.le_of_lt hj) (n := 3) (by decide)
  have hb := h j hj
  rw [Utf8Block.faultAt, fault_eq_false_iff]
  omega

theorem AsciiTo.openAt (h : AsciiTo text i) : openAt text i = false := by
  have h1 := h.byteBefore_lt (Nat.le_refl i) (n := 1) (by decide)
  have h2 := h.byteBefore_lt (Nat.le_refl i) (n := 2) (by decide)
  have h3 := h.byteBefore_lt (Nat.le_refl i) (n := 3) (by decide)
  exact openAt_eq_false_iff.mpr ⟨by omega, by omega, by omega⟩

theorem AsciiTo.good (h : AsciiTo text text.length) : Good text :=
  ⟨fun _ hj => h.faultAt hj, h.openAt⟩

theorem AsciiTo.carries (h : AsciiTo text i) : Carries text (List.replicate lanes 0) i := by
  intro n hn hn'
  have hlanes : lanes = 32 := rfl
  refine .inr ⟨?_, h.byteBefore_lt (Nat.le_refl i) hn⟩
  rw [List.getD_eq_getElem?_getD, List.getElem?_replicate_of_lt (by omega)]
  decide

/-- The byte before a place that has no fault behind it is none of the two that open nothing. -/
theorem byteBefore_ne (h : ∀ j < i, faultAt text j = false) :
    (byteBefore text i 1).toNat ≠ 0xC0 ∧ (byteBefore text i 1).toNat ≠ 0xC1 := by
  cases i with
  | zero =>
    have hzero : byteBefore text 0 1 = 0 := rfl
    rw [hzero]
    exact ⟨by decide, by decide⟩
  | succ i =>
    have hfault := fault_eq_false_iff.mp (h i (Nat.lt_succ_self i))
    rw [byteBefore_succ, byteBefore_zero]
    exact ⟨hfault.2.1, hfault.2.2.1⟩

/-- A block of ASCII has a fault just where the bytes before it ask for more. -/
theorem faultAt_ascii (h : ∀ j < i, faultAt text j = false)
    (hascii : ∀ j, i ≤ j → j < i + n → (text.getD j 0).toNat < 0x80) (hn : 1 ≤ n) :
    (∃ j < n, faultAt text (i + j) = true) ↔ openAt text i = true := by
  have hne := byteBefore_ne h
  constructor
  · rintro ⟨j, hj, hfault⟩
    by_contra hopen
    obtain ⟨hone, htwo, hthree⟩ := openAt_eq_false_iff.mp (Bool.eq_false_iff.mpr hopen)
    have hb := hascii (i + j) (by omega) (by omega)
    have hnone : faultAt text (i + j) = false := by
      rw [faultAt, fault_eq_false_iff]
      match j with
      | 0 =>
        rw [Nat.add_zero] at hb ⊢
        omega
      | 1 =>
        have h1 := hascii i (Nat.le_refl i) (by omega)
        rw [byteBefore_succ, byteBefore_succ, byteBefore_succ, byteBefore_zero]
        omega
      | 2 =>
        have h1 := hascii (i + 1) (by omega) (by omega)
        have h2 := hascii i (Nat.le_refl i) (by omega)
        simp only [byteBefore_succ, byteBefore_zero]
        omega
      | j + 3 =>
        have h1 := hascii (i + (j + 2)) (by omega) (by omega)
        have h2 := hascii (i + (j + 1)) (by omega) (by omega)
        have h3 := hascii (i + j) (by omega) (by omega)
        simp only [← Nat.add_assoc, byteBefore_succ, byteBefore_zero] at h1 h2 h3 hb ⊢
        omega
    rw [hnone] at hfault
    cases hfault
  · intro hopen
    refine ⟨0, hn, ?_⟩
    by_contra hfault
    have hb := hascii i (Nat.le_refl i) (by omega)
    have hnone := fault_eq_false_iff.mp (Bool.eq_false_iff.mpr hfault)
    rw [Nat.add_zero] at hnone
    have hclean : openAt text i = false :=
      openAt_eq_false_iff.mpr ⟨by omega, by omega, by omega⟩
    rw [hclean] at hopen
    cases hopen

/-! ## The loops -/

theorem asciiBlocks_spec {i' : Nat} {stopped : Bool} (hascii : AsciiTo text i)
    (hi : i ≤ text.length) (hn : text.length - i ≤ n)
    (h : asciiBlocks text n i = (i', stopped)) :
    AsciiTo text i' ∧ i' ≤ text.length ∧ (stopped = false → text.length < i' + lanes) := by
  have hlanes : lanes = 32 := rfl
  induction n generalizing i with
  | zero =>
    cases h
    exact ⟨hascii, hi, fun _ => by omega⟩
  | succ n ih =>
    rw [asciiBlocks] at h
    split_ifs at h with hroom hhigh
    · cases h
      exact ⟨hascii, hi, fun hs => by cases hs⟩
    · refine ih (fun j hj => ?_) hroom (by omega) h
      rcases Nat.lt_or_ge j i with hlt | hge
      · exact hascii j hlt
      · exact not_anyHigh (Bool.eq_false_iff.mpr hhigh) hroom hge hj
    · cases h
      exact ⟨hascii, hi, fun _ => by omega⟩

/-- The places before `i` have been looked at. -/
structure Seen (text prev : Bytes) (i : Nat) : Prop where
  faultless : ∀ j < i, faultAt text j = false
  carries : Carries text prev i
  within : i ≤ text.length

theorem Seen.block (h : Seen text prev i) (hroom : i + lanes ≤ text.length)
    (hblock : ¬ ∃ k < lanes, faultAt text (i + k) = true) :
    Seen text (blockAt text i) (i + lanes) := by
  refine ⟨fun j hj => ?_, carries_blockAt text i, hroom⟩
  rcases Nat.lt_or_ge j i with hlt | hge
  · exact h.faultless j hlt
  · obtain ⟨k, rfl⟩ := Nat.exists_eq_add_of_le hge
    by_contra hfault
    exact hblock ⟨k, Nat.lt_of_add_lt_add_left hj, eq_true_of_ne_false hfault⟩

theorem not_good_of_fault (hroom : i + n ≤ text.length)
    (h : ∃ k < n, faultAt text (i + k) = true) : ¬ Good text := by
  obtain ⟨k, hk, hfault⟩ := h
  intro hgood
  rw [hgood.faultless (i + k) (by omega)] at hfault
  cases hfault

theorem checkBlocks_spec (h : Seen text prev i) (hn : text.length - i ≤ n) :
    match checkBlocks text n i prev with
    | none => ¬ Good text
    | some (i', last) => Seen text last i' ∧ text.length < i' + lanes := by
  have hlanes : lanes = 32 := rfl
  induction n generalizing i prev with
  | zero => exact ⟨h, by have := h.within; omega⟩
  | succ n ih =>
    rw [checkBlocks]
    by_cases hroom : i + lanes ≤ text.length
    · rw [if_pos hroom]
      have hbad : (faults prev (blockAt text i)).any id = true → ¬ Good text := fun hfaults =>
        not_good_of_fault hroom (h.carries.faults_any.mp hfaults)
      dsimp only
      by_cases hhigh : anyHigh (blockAt text i) = true
      · rw [if_pos hhigh]
        by_cases hfaults : (faults prev (blockAt text i)).any id = true
        · rw [if_pos hfaults]
          exact hbad hfaults
        · rw [if_neg hfaults]
          exact ih (h.block hroom (mt h.carries.faults_any.mpr hfaults)) (by omega)
      · rw [if_neg hhigh]
        have hfaults := faultAt_ascii (n := lanes) h.faultless
          (fun j hij hj => not_anyHigh (Bool.eq_false_iff.mpr hhigh) hroom hij hj) (by decide)
        rw [← h.carries.endsInside_eq] at hfaults
        by_cases hends : endsInside prev = true
        · rw [if_pos hends]
          exact not_good_of_fault hroom (hfaults.mpr hends)
        · rw [if_neg hends]
          exact ih (h.block hroom (mt hfaults.mp hends)) (by omega)
    · rw [if_neg hroom]
      exact ⟨h, by omega⟩

/-- The blocks look at every byte. -/
theorem valid_eq (text : Bytes) : valid text = utf8ValidateSlice text := by
  have hlanes : lanes = 32 := rfl
  rw [valid]
  by_cases hshort : text.length < lanes
  · rw [if_pos hshort]
  rw [if_neg hshort, Bool.eq_iff_iff, ← good_iff]
  obtain ⟨i, stopped, hfirst⟩ : ∃ i stopped, asciiBlocks text text.length 0 = (i, stopped) :=
    ⟨_, _, rfl⟩
  obtain ⟨hascii, hi, hstopped⟩ :=
    asciiBlocks_spec (fun j hj => absurd hj (Nat.not_lt_zero j)) (Nat.zero_le _) (by omega) hfirst
  rw [hfirst]
  dsimp only
  by_cases hall : (!stopped && (i = text.length ||
      !anyHigh (blockAt text (text.length - lanes)))) = true
  · rw [if_pos hall]
    refine iff_of_true rfl (AsciiTo.good fun j hj => ?_)
    simp only [Bool.and_eq_true, Bool.not_eq_true', Bool.or_eq_true, decide_eq_true_eq] at hall
    obtain ⟨hstop, hend | htail⟩ := hall
    · exact hascii j (by omega)
    · have hlast := hstopped hstop
      rcases Nat.lt_or_ge j i with hlt | hge
      · exact hascii j hlt
      · exact not_anyHigh htail (by omega) (by omega) (by omega)
  rw [if_neg hall]
  have hseen : Seen text (List.replicate lanes 0) i :=
    ⟨fun j hj => hascii.faultAt hj, hascii.carries, hi⟩
  have hspec := checkBlocks_spec hseen (n := text.length) (by omega)
  cases hcheck : checkBlocks text text.length i (List.replicate lanes 0) with
  | none =>
    rw [hcheck] at hspec
    exact iff_of_false Bool.false_ne_true hspec
  | some found =>
    obtain ⟨i', last⟩ := found
    rw [hcheck] at hspec
    obtain ⟨hseen', hlast⟩ := hspec
    have hwithin := hseen'.within
    dsimp only
    by_cases hmore : i' < text.length
    · rw [if_pos hmore]
      have hstart : text.length - lanes + lanes = text.length := by omega
      have hraw := carries_rawBefore text (text.length - lanes)
      by_cases hfaults : (faults (rawBefore text (text.length - lanes))
          (blockAt text (text.length - lanes))).any id = true
      · rw [if_pos hfaults]
        exact iff_of_false Bool.false_ne_true
          (not_good_of_fault (Nat.le_of_eq hstart) (hraw.faults_any.mp hfaults))
      · have hnone := mt hraw.faults_any.mpr hfaults
        have hends := (carries_blockAt text (text.length - lanes)).endsInside_eq
        rw [hstart] at hends
        rw [if_neg hfaults, hends, Bool.not_eq_true']
        refine ⟨fun hopen => ⟨fun j hj => ?_, hopen⟩, fun hgood => hgood.whole⟩
        rcases Nat.lt_or_ge j i' with hlt | hge
        · exact hseen'.faultless j hlt
        · by_contra hfault
          refine hnone ⟨j - (text.length - lanes), by omega, ?_⟩
          rw [show text.length - lanes + (j - (text.length - lanes)) = j by omega]
          exact eq_true_of_ne_false hfault
    · have hend : i' = text.length := by omega
      have hends := hseen'.carries.endsInside_eq
      rw [if_neg hmore, hends, hend, Bool.not_eq_true']
      exact ⟨fun hopen => ⟨fun j hj => hseen'.faultless j (by omega), hopen⟩,
        fun hgood => hgood.whole⟩

/-! ## Both validators -/

/-- A run of well-formed characters, each whole. -/
def WellFormed (text : Bytes) : Prop :=
  ∃ chars : List Bytes, text = chars.flatten ∧ ∀ char ∈ chars, isChar char = true

theorem wellFormed_iff : WellFormed text ↔ utf8ValidateSlice text = true := by
  constructor
  · rintro ⟨chars, rfl, hchars⟩
    induction chars with
    | nil => rfl
    | cons char chars ih =>
      rw [List.flatten_cons, Utf8.utf8ValidateSlice_char (hchars char List.mem_cons_self)]
      exact ih fun c hc => hchars c (List.mem_cons_of_mem char hc)
  · intro h
    induction hn : text.length using Nat.strong_induction_on generalizing text with
    | h n ih =>
      match text with
      | [] => exact ⟨[], rfl, fun char hchar => by cases hchar⟩
      | lead :: rest =>
        obtain ⟨char, after, heq, hchar⟩ := Utf8.exists_char h
        rw [heq, Utf8.utf8ValidateSlice_char hchar] at h
        have hshort : after.length < n := by
          obtain ⟨opening, more, rfl, -, -⟩ := Utf8.isContinuation_char hchar
          rw [← hn, heq, List.length_append, List.length_cons]
          omega
        obtain ⟨chars, rfl, hchars⟩ := ih after.length hshort h rfl
        exact ⟨char :: chars, heq, List.forall_mem_cons.mpr ⟨hchar, hchars⟩⟩

/-- The validator of a response's strings and that of a protobuf string accept the runs of
well-formed characters and nothing else. -/
theorem validators_exact (text : Bytes) :
    (valid text = true ↔ WellFormed text) ∧ (Proto.validUtf8 text = true ↔ WellFormed text) := by
  rw [valid_eq, Proto.validUtf8_eq, wellFormed_iff]
  exact ⟨Iff.rfl, Iff.rfl⟩

end Nilo.Utf8Block
