import Nilo.Proto.Tables

/-!
# Accepted types

What the schema's checks give the decoder: the specs of a message are `Sound`. So the table of one
byte keys is no more than a short cut, at any depth (`Accepted.mergeMessage_eq_plain`).
-/

namespace Nilo.Proto

open Text (Bytes)
open Lib.Front (drain)

variable {env : Env} {m : Message} {s t : Spec} {ref depth : Nat} {fields : List Value}

theorem field_of_mem_specs {f : Field} {i : Nat} (h : s ∈ f.specs i) : s.field = i := by
  cases f with
  | oneof members declared =>
    obtain ⟨p, -, rfl⟩ := List.mem_map.mp h
    rfl
  | _ =>
    obtain rfl := List.mem_singleton.mp h
    rfl

theorem mem_specsOf : s ∈ specsOf m ↔ ∃ f, m[s.field]? = some f ∧ s ∈ f.specs s.field := by
  rw [specsOf, List.mem_flatMap]
  constructor
  · rintro ⟨⟨f, i⟩, hmem, hs⟩
    obtain rfl := field_of_mem_specs hs
    exact ⟨f, List.mem_zipIdx_iff_getElem?.mp hmem, hs⟩
  · rintro ⟨f, hf, hs⟩
    exact ⟨(f, s.field), List.mem_zipIdx_iff_getElem?.mpr hf, hs⟩

theorem slots_specsOf (hs : s ∈ specsOf m) (ht : t ∈ specsOf m) (hfield : s.field = t.field)
    (hmember : s.member = t.member) : s = t := by
  obtain ⟨f, hf, hs⟩ := mem_specsOf.mp hs
  obtain ⟨g, hg, ht⟩ := mem_specsOf.mp ht
  rw [← hfield, hf] at hg
  cases hg
  rw [← hfield] at ht
  cases f with
  | oneof members declared =>
    obtain ⟨⟨a, i⟩, ha, hsa⟩ := List.mem_map.mp hs
    obtain ⟨⟨b, j⟩, hb, htb⟩ := List.mem_map.mp ht
    have hi : s.member = some i := by rw [← hsa]
    have hj : t.member = some j := by rw [← htb]
    obtain rfl : i = j := Option.some.inj (hi.symm.trans (hmember.trans hj))
    have hai := List.mem_zipIdx_iff_getElem?.mp ha
    have hbi := List.mem_zipIdx_iff_getElem?.mp hb
    dsimp only at hai hbi
    rw [hai] at hbi
    cases hbi
    exact hsa.symm.trans htb
  | _ => exact (List.mem_singleton.mp hs).trans (List.mem_singleton.mp ht).symm

theorem alone_specsOf (hs : s ∈ specsOf m) (hrep : s.repeated = true) :
    s.member = none ∧ ∀ t ∈ specsOf m, t.field = s.field → t = s := by
  obtain ⟨f, hf, hsf⟩ := mem_specsOf.mp hs
  cases f with
  | repeated number elem unpacked declared =>
    have heq := List.mem_singleton.mp hsf
    refine ⟨by rw [heq], fun t ht hfield => ?_⟩
    obtain ⟨g, hg, htg⟩ := mem_specsOf.mp ht
    rw [hfield, hf] at hg
    cases hg
    rw [hfield] at htg
    exact (List.mem_singleton.mp htg).trans heq.symm
  | oneof members declared =>
    obtain ⟨p, -, heq⟩ := List.mem_map.mp hsf
    rw [← heq] at hrep
    cases hrep
  | _ =>
    rw [List.mem_singleton.mp hsf] at hrep
    cases hrep

/-- What the schema has checked of the field that a spec is of. -/
theorem Field.accepted_spec {f : Field} {count i : Nat} (hf : f.accepted ref count = true)
    (hs : s ∈ f.specs i) : numberAccepted s.number = true ∧
      s.elem.accepted (if s.repeated then count else ref) = true := by
  cases f with
  | plain number elem declared | optional number elem declared =>
    obtain rfl := List.mem_singleton.mp hs
    exact Bool.and_eq_true_iff.mp hf
  | repeated number elem unpacked declared =>
    obtain rfl := List.mem_singleton.mp hs
    exact Bool.and_eq_true_iff.mp (Bool.and_eq_true_iff.mp hf).1
  | oneof members declared =>
    obtain ⟨⟨a, j⟩, ha, rfl⟩ := List.mem_map.mp hs
    have hin := List.mem_of_getElem? (List.mem_zipIdx_iff_getElem?.mp ha)
    exact Bool.and_eq_true_iff.mp (List.all_eq_true.mp hf a hin)

theorem Env.fields_eq (h : env[ref]? = some m) : env.fields ref = m := by
  rw [Env.fields, h]
  rfl

theorem Accepted.spec (h : Accepted env) (href : env[ref]? = some m) (hs : s ∈ specsOf m) :
    numberAccepted s.number = true ∧
      s.elem.accepted (if s.repeated then env.length else ref) = true := by
  obtain ⟨f, hf, hs⟩ := mem_specsOf.mp hs
  have hall := h.fields (m, ref) (List.mem_zipIdx_iff_getElem?.mpr href)
  exact Field.accepted_spec (List.all_eq_true.mp hall f (List.mem_of_getElem? hf)) hs

theorem numbered_of_accepted {n : Nat} (h : numberAccepted n = true) : Numbered n := by
  obtain ⟨hrange, -⟩ := Bool.and_eq_true_iff.mp h
  obtain ⟨hlow, hhigh⟩ := Bool.and_eq_true_iff.mp hrange
  exact ⟨of_decide_eq_true hlow, Nat.lt_succ_of_le (of_decide_eq_true hhigh)⟩

theorem Accepted.sound (h : Accepted env) (href : env[ref]? = some m) : Sound (specsOf m) where
  nodup := h.numbers m (List.mem_of_getElem? href)
  numbered s hs := numbered_of_accepted (h.spec href hs).1
  slots s hs t ht := slots_specsOf hs ht
  alone s hs := alone_specsOf hs

/-! ## A decode without the table -/

section

variable (env : Env)

/-- `mergeFields` with every key going the general way. -/
def mergeFieldsPlain (depthLeft : Nat) (deeper : Nat → List Value → Bytes → Except Stop (List Value))
    (ref : Nat) (fields : List Value) (b : Bytes) : Except Stop (List Value) := do
  let specs := specsOf (env.fields ref)
  let counts ←
    if repeatedCount specs > 0 then (countPass specs depthLeft b).mapError .refused
    else .ok fun _ => 0
  let st ← drain (readGeneral env specs depthLeft deeper) (reserve specs counts fields) b
  pure (trim specs st)

def mergeMessagePlain : Nat → Nat → List Value → Bytes → Except Stop (List Value)
  | 0 => mergeFieldsPlain env 0 fun _ _ _ => tooDeep
  | depthLeft + 1 => mergeFieldsPlain env (depthLeft + 1) (mergeMessagePlain depthLeft)

end

theorem Accepted.sound_fields (h : Accepted env) (ref : Nat) : Sound (specsOf (env.fields ref)) := by
  cases href : env[ref]? with
  | some m =>
    rw [Env.fields_eq href]
    exact h.sound href
  | none =>
    have hnone : specsOf (env.fields ref) = [] := by
      rw [Env.fields, href]
      rfl
    rw [hnone]
    exact ⟨List.nodup_nil, fun s hs => absurd hs List.not_mem_nil,
      fun s hs => absurd hs List.not_mem_nil, fun s hs => absurd hs List.not_mem_nil⟩

theorem Accepted.mergeFields_eq (h : Accepted env) (depthLeft : Nat)
    (deeper : Nat → List Value → Bytes → Except Stop (List Value)) :
    mergeFields env depthLeft deeper = mergeFieldsPlain env depthLeft deeper := by
  funext ref fields b
  have hstep : readStep env (specsOf (env.fields ref)) depthLeft deeper =
      readGeneral env (specsOf (env.fields ref)) depthLeft deeper :=
    funext fun st => readStep_eq (h.sound_fields ref) st
  rw [mergeFields, mergeFieldsPlain, hstep]

/-- Whatever types the schema accepts and however deep messages nest: a message is merged into a
value, or refused, as it is without the table of one byte keys. -/
theorem Accepted.mergeMessage_eq_plain (h : Accepted env) (depthLeft : Nat) :
    mergeMessage env depthLeft = mergeMessagePlain env depthLeft := by
  induction depthLeft with
  | zero => exact h.mergeFields_eq 0 _
  | succ depthLeft ih =>
    rw [mergeMessage, mergeMessagePlain, h.mergeFields_eq, ih]

/-- A struct of a string under 2 and a list of itself under 1. -/
theorem mergeMessage_eq_plain_tree :
    let env : Env := [[.repeated 1 (.message 0) false none, .plain 2 (.scalar .string) none]]
    mergeMessage env maxDepth = mergeMessagePlain env maxDepth := by
  intro env
  refine Accepted.mergeMessage_eq_plain ⟨by decide, by decide, ?_⟩ maxDepth
  intro m hm f hf v hv
  rw [List.mem_singleton] at hm
  subst hm
  rcases List.mem_pair.mp hf with rfl | rfl <;> cases hv

end Nilo.Proto
