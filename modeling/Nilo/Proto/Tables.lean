import Nilo.Lib.Slots
import Nilo.Proto.Item
import Mathlib.Tactic.IntervalCases

/-!
# One byte keys

The decoder finds a field whose number is under 16 in a table of 128 entries. `readStep_eq` says that
an entry of it has the action that the general path takes for the key.
-/

namespace Nilo.Proto

open Text (Bytes)
open Lib (Front)

/-- The specs of a message the schema accepts: their numbers, and which may fill one field. -/
structure Sound (specs : List Spec) : Prop where
  nodup : (specs.map (·.number)).Nodup
  numbered : ∀ s ∈ specs, Numbered s.number
  slots : ∀ s ∈ specs, ∀ t ∈ specs, s.field = t.field → s.member = t.member → s = t
  alone : ∀ s ∈ specs, s.repeated = true → s.member = none ∧ ∀ t ∈ specs, t.field = s.field → t = s

variable {specs : List Spec} {s s' : Spec} {i j : Nat}

theorem Sound.index (h : Sound specs) (hi : specs[i]? = some s) (hj : specs[j]? = some s')
    (heq : s.number = s'.number) : i = j := by
  have hget {k : Nat} {t : Spec} (hk : specs[k]? = some t) :
      (specs.map (·.number))[k]? = some t.number := by
    rw [List.getElem?_map, hk]
    rfl
  have hlt : i < (specs.map (·.number)).length := (List.getElem?_eq_some_iff.mp (hget hi)).1
  exact (List.getElem?_inj hlt h.nodup).mp (by rw [hget hi, hget hj, heq])

/-! ## Finding a spec -/

theorem findSpec_some {number : Nat} (h : findSpec specs number = some (s, i)) :
    specs[i]? = some s ∧ s.number = number := by
  rw [findSpec] at h
  have hpred := List.find?_some h
  exact ⟨List.mem_zipIdx_iff_getElem?.mp (List.mem_of_find?_eq_some h), beq_iff_eq.mp hpred⟩

theorem Sound.findSpec (h : Sound specs) (hi : specs[i]? = some s) :
    findSpec specs s.number = some (s, i) := by
  cases hfound : Proto.findSpec specs s.number with
  | none =>
    have hnone := List.find?_eq_none.mp hfound (s, i) (List.mem_zipIdx_iff_getElem?.mpr hi)
    exact absurd (beq_self_eq_true s.number) hnone
  | some found =>
    obtain ⟨t, j⟩ := found
    obtain ⟨hj, hnumber⟩ := findSpec_some hfound
    obtain rfl := h.index hi hj hnumber.symm
    rw [hi] at hj
    cases hj
    rfl

theorem specWire_ne_unnamed (s : Spec) (packedRun : Bool) : specWire s packedRun ≠ .unnamed := by
  rw [specWire]
  cases s.elem with
  | message ref => exact WireType.noConfusion
  | scalar sc =>
    dsimp only
    split_ifs
    · exact WireType.noConfusion
    · cases sc <;> exact WireType.noConfusion

theorem specWire_packed (h : s.packable = true) : specWire s true = .len := by
  rw [Spec.packable, Bool.and_eq_true] at h
  rw [specWire]
  cases s.elem with
  | message ref => rfl
  | scalar sc => simp [h.1]

theorem specWire_ne_len (h : s.packable = true) : specWire s false ≠ .len := by
  rw [Spec.packable, Bool.and_eq_true] at h
  rw [specWire]
  cases he : s.elem with
  | message ref =>
    rw [he] at h
    cases h.2
  | scalar sc =>
    rw [he] at h
    rw [Bool.and_false]
    cases sc with
    | string | bytes => cases h.2
    | _ => exact WireType.noConfusion

/-! ## The table of actions -/

theorem keyByte_eq (number : Nat) (wire : WireType) :
    keyByte number wire = number * 8 + wire.bits := shiftLeft_or_bits number wire

theorem table_hit {kb ai : Nat} (h : (table specs)[kb]? = some (some ai)) :
    ∃ a s, (actions specs)[ai]? = some a ∧ specs[a.spec]? = some s ∧
      kb = keyByte s.number (specWire s (a.packedRun && s.packable)) := by
  rw [table] at h
  revert kb ai
  refine List.foldlRecOn (motive := fun t => ∀ {kb ai : Nat}, t[kb]? = some (some ai) →
    ∃ a s, (actions specs)[ai]? = some a ∧ specs[a.spec]? = some s ∧
      kb = keyByte s.number (specWire s (a.packedRun && s.packable))) (actions specs).zipIdx _ ?_ ?_
  · intro kb ai h
    rw [List.getElem?_replicate] at h
    split_ifs at h
    cases h
  · rintro t ih ⟨a, ai'⟩ hmem kb ai h
    have ha := List.mem_zipIdx_iff_getElem?.mp hmem
    cases hs : specs[a.spec]? with
    | none =>
      simp only [hs] at h
      exact ih h
    | some s =>
      simp only [hs] at h
      rcases Lib.of_getElem?_set h with ⟨rfl, heq⟩ | ⟨-, hold⟩
      · cases heq
        exact ⟨a, s, ha, hs, rfl⟩
      · exact ih hold

theorem packable_of_action {a : Fast} (ha : a ∈ actions specs) (hs : specs[a.spec]? = some s)
    (hrun : a.packedRun = true) : s.packable = true := by
  obtain ⟨⟨t, k⟩, hmem, hin⟩ := List.mem_flatMap.mp ha
  have ht := List.mem_zipIdx_iff_getElem?.mp hmem
  dsimp only at hin ht
  split_ifs at hin with hnumber hpack
  · cases hin
  · simp only [List.mem_cons, List.not_mem_nil, or_false] at hin
    rcases hin with rfl | rfl
    · cases hrun
    · rw [hs] at ht
      cases ht
      exact hpack
  · rw [List.mem_singleton] at hin
    subst hin
    cases hrun

theorem fastAction_some {kb : UInt8} {a : Fast} (h : fastAction specs kb = some (a, s)) :
    kb < 0x80 ∧ specs[a.spec]? = some s ∧ (a.packedRun = true → s.packable = true) ∧
      kb.toNat = keyByte s.number (specWire s a.packedRun) := by
  rw [fastAction] at h
  split_ifs at h with hkb
  obtain ⟨ai, hai, h⟩ := Option.bind_eq_some_iff.mp h
  obtain ⟨a', ha', h⟩ := Option.bind_eq_some_iff.mp h
  obtain ⟨s', hs', h⟩ := Option.bind_eq_some_iff.mp h
  cases h
  obtain ⟨b, t, hb, ht, hkey⟩ := table_hit (Option.join_eq_some_iff.mp hai)
  rw [ha'] at hb
  cases hb
  rw [hs'] at ht
  cases ht
  have hpack := packable_of_action (List.mem_of_getElem? ha') hs'
  refine ⟨hkb, hs', hpack, ?_⟩
  rw [hkey]
  cases hrun : a.packedRun with
  | false => rfl
  | true => rw [hpack hrun, Bool.and_self]

theorem key_oneByte {kb : UInt8} (hkb : kb < 0x80) {number : Nat} (hn : Numbered number)
    {wire : WireType} (hw : wire ≠ .unnamed) (h : kb.toNat = keyByte number wire) (rest : Bytes) :
    key (kb :: rest) = .ok (⟨number, wire⟩, rest) := by
  have hread : varint (kb :: rest) = .ok (kb.toNat, rest) := if_pos hkb
  rw [key, Front.bind_of_ok hread, h, keyByte_eq, splitKey_of hn hw]
  rfl

variable {env : Env} {depthLeft : Nat} {deeper : Nat → List Value → Bytes → Except Stop (List Value)}

/-- The table has what the general path would do. -/
theorem readStep_eq (h : Sound specs) (st : Filling) :
    readStep env specs depthLeft deeper st = readGeneral env specs depthLeft deeper st := by
  funext b
  rw [readStep]
  cases hfast : b.head?.bind (fastAction specs) with
  | none => rfl
  | some found =>
    obtain ⟨a, s⟩ := found
    obtain ⟨kb, hhead, haction⟩ := Option.bind_eq_some_iff.mp hfast
    obtain ⟨rest, rfl⟩ : ∃ rest, b = kb :: rest := by
      cases b with
      | nil => cases hhead
      | cons x rest =>
        cases hhead
        exact ⟨rest, rfl⟩
    obtain ⟨hkb, hs, hpack, hbyte⟩ := fastAction_some haction
    have hkey := key_oneByte hkb (h.numbered s (List.mem_of_getElem? hs))
      (specWire_ne_unnamed s a.packedRun) hbyte rest
    rw [readGeneral, Front.bind_of_ok (wire_ok.mpr hkey), h.findSpec hs]
    cases hrun : a.packedRun with
    | false => simp only [hrun, if_true, List.tail_cons]
    | true =>
      have hp := hpack hrun
      have hne : ¬ WireType.len = specWire s false := (specWire_ne_len hp).symm
      simp only [hrun, specWire_packed hp, if_neg hne, hp, if_true, ne_eq, not_true_eq_false,
        if_false, List.tail_cons]

end Nilo.Proto
