import Nilo.Jwt.Keyring

/-!
# The memo across a rotation (`jwt/keyring.zig`, `jwt/token.zig`)

The memo is emptied when the readers of the old set are gone, so what they remember late is
forgotten with the rest. Between the swap and that moment it still holds what was checked under the
old set, and a `verify` that has pinned the new one may ask it: a token of the old set is then
accepted under the new one with no signature checked (`not_honest_rotated`).

Away from that, the memo answers for the set that asks. `Swept` is the invariant: whatever is in the
memo was handed in under the current set, or under one that a `load` has swapped out and has not
swept yet; and the same is so of the set a `verify` reads. Where no `load` is between the two, both are
the current set (`run_honest`).
-/

namespace Nilo.Jwt

open Text (Bytes ascii)

variable {Claims : Type} {c : Crypto} {js : Json Claims}

/-- Has swapped `s` out, and has not emptied the memo since. -/
def Caller.sweeps (s : Nat) : Caller Claims → Bool
  | .load (.swapped t) | .load (.crossed t) | .load (.drained t) => t = s
  | _ => false

/-- Is between its swap and its clear. -/
def Caller.unswept : Caller Claims → Bool
  | .load (.swapped _) | .load (.crossed _) | .load (.drained _) => true
  | _ => false

/-- Unless a `load` is between its swap and its clear, and the memo is asked about a token that was
handed in under another set and not under the one that asks. -/
def Ring.safe (r : Ring Claims) : Move → Bool
  | .go i =>
    match r.callers[i]? with
    | some (.verify token _ (.inside s .entered)) =>
      !r.callers.any Caller.unswept ||
        r.handed.all fun h => h.2 != token || r.handed.contains (s, token)
    | _ => true
  | _ => true

variable (c js) in
/-- Whether every step of a run is so. -/
def Ring.along (r : Ring Claims) : List Move → Bool
  | [] => true
  | m :: rest => r.safe m && match r.act c js m with
    | some r' => r'.along rest
    | none => true

/-- A `verify` that the memo has answered has pinned a set under which its token has passed the
signature check. -/
def Honest (r : Ring Claims) : Prop :=
  ∀ token opts s f S, Caller.verify token opts (.inside s (.ready f (some S))) ∈ r.callers →
    token ∈ (r.setOf s).passed

/-- The tokens a history asks about. -/
def asks (moves : List Move) : List Bytes :=
  moves.filterMap fun m =>
    match m with
    | .verify token _ => some token
    | _ => none

/-! ## The memo and the sets -/

/-- The memo answers for what was handed in, and each of that was checked under a set that is current
or still to be swept. -/
structure Swept (asked : List Bytes) (r : Ring Claims) : Prop where
  pinned : Pinned r
  known : ∀ m, r.memo = some m → m.Known fun d => ∃ h ∈ r.handed, digestOf h.2 = d
  handed : ∀ h ∈ r.handed, h.2 ∈ (r.setOf h.1).passed ∧ h.2 ∈ asked
  owned : ∀ h ∈ r.handed, h.1 = r.current ∨ ∃ l ∈ r.callers, l.sweeps h.1 = true
  asked : ∀ token opts stage, Caller.verify token opts stage ∈ r.callers → token ∈ asked
  passed : ∀ token opts s f, Caller.verify token opts (.inside s (.passed f)) ∈ r.callers →
    token ∈ (r.setOf s).passed
  honest : Honest r

section Steps

variable {asked : List Bytes} {r r' : Ring Claims} {i : Nat} {token : Bytes} {opts : Options}
variable {a b : Caller Claims} {s : Nat}

theorem Caller.unswept_of_sweeps {l : Caller Claims} (h : l.sweeps s = true) :
    l.unswept = true := by
  cases l with
  | verify token opts stage => cases h
  | load swap =>
    cases swap with
    | swapped old => rfl
    | crossed old => rfl
    | drained old => rfl
    | start keys => cases h
    | cleared old => cases h
    | finished => cases h

theorem Caller.sweeps_of_frees {l : Caller Claims} (h : l.frees s = true)
    (hleft : l.sawReaders s = false) : l.sweeps s = true := by
  cases l with
  | verify token opts stage => cases h
  | load swap =>
    cases swap with
    | swapped old => exact h
    | crossed old => exact h
    | drained old => exact h
    | start keys => cases h
    | cleared old =>
      have hsaw : decide (old = s) = false := hleft
      rw [show decide (old = s) = true from h] at hsaw
      cases hsaw
    | finished => cases h

/-- The set a `verify` reads is current, or a `load` has swapped it out and has not swept since. -/
theorem Pinned.reads (h : Pinned r) {v : Caller Claims} (hv : v ∈ r.callers)
    (hread : v.reading s = true) : s = r.current ∨ ∃ l ∈ r.callers, l.sweeps s = true := by
  have hholds : v.holds s = true := Bool.or_eq_true_iff.mpr (.inr hread)
  by_cases heq : s = r.current
  · exact .inl heq
  · have howner := h.owner s
    have hreplaced : r.replaced s = true := by
      simp [Ring.replaced, h.bound s v hv hholds, heq]
    rw [h.unfreed hv hholds, hreplaced, Bool.toNat_true] at howner
    obtain ⟨l, hl, hfrees⟩ := List.countP_pos_iff.mp (show 0 < r.callers.countP (Caller.frees s) by omega)
    refine .inr ⟨l, hl, Caller.sweeps_of_frees hfrees ?_⟩
    by_contra hsaw
    exact absurd hread (ne_true_of_eq_false (h.left s l hl (eq_true_of_ne_false hsaw) v hv))

/-- A caller takes a step that leaves the memo as it is. -/
theorem Swept.move (h : Swept asked r) (hpinned : Pinned r') (hi : r.callers[i]? = some a)
    (hcallers : r'.callers = r.callers.set i b) (hmemo : r'.memo = r.memo)
    (hhanded : r'.handed = r.handed)
    (hgrows : ∀ s, ∀ t ∈ (r.setOf s).passed, t ∈ (r'.setOf s).passed)
    (howned : ∀ s, (s = r.current ∨ a.sweeps s = true) → s = r'.current ∨ b.sweeps s = true)
    (hasked : ∀ token opts stage, b = .verify token opts stage → token ∈ asked)
    (hpassed : ∀ token opts s f, b = .verify token opts (.inside s (.passed f)) →
      token ∈ (r'.setOf s).passed)
    (hhonest : ∀ token opts s f S, b = .verify token opts (.inside s (.ready f (some S))) →
      token ∈ (r'.setOf s).passed) : Swept asked r' := by
  have hmem {v : Caller Claims} (hv : v ∈ r'.callers) : v ∈ r.callers ∨ v = b := by
    rw [hcallers] at hv
    exact List.mem_or_eq_of_mem_set hv
  have hlt := (List.getElem?_eq_some_iff.mp hi).1
  have hb : b ∈ r'.callers := by
    rw [hcallers]
    exact List.mem_set hlt b
  refine ⟨hpinned, ?_, ?_, ?_, ?_, ?_, ?_⟩
  · rw [hmemo, hhanded]
    exact h.known
  · intro x hx
    rw [hhanded] at hx
    exact ⟨hgrows x.1 x.2 (h.handed x hx).1, (h.handed x hx).2⟩
  · intro x hx
    rw [hhanded] at hx
    rcases h.owned x hx with heq | ⟨l, hl, hsweeps⟩
    · rcases howned x.1 (.inl heq) with heq' | hb'
      · exact .inl heq'
      · exact .inr ⟨b, hb, hb'⟩
    · obtain ⟨j, hj⟩ := List.mem_iff_getElem?.mp hl
      by_cases hij : i = j
      · subst hij
        obtain rfl : a = l := Option.some.inj (hi.symm.trans hj)
        rcases howned x.1 (.inr hsweeps) with heq' | hb'
        · exact .inl heq'
        · exact .inr ⟨b, hb, hb'⟩
      · refine .inr ⟨l, ?_, hsweeps⟩
        rw [hcallers]
        refine List.mem_of_getElem? (i := j) ?_
        rw [List.getElem?_set_ne hij]
        exact hj
  · intro token opts stage hv
    rcases hmem hv with hin | heq
    · exact h.asked token opts stage hin
    · exact hasked token opts stage heq.symm
  · intro token opts s f hv
    rcases hmem hv with hin | heq
    · exact hgrows s token (h.passed token opts s f hin)
    · exact hpassed token opts s f heq.symm
  · intro token opts s f S hv
    rcases hmem hv with hin | heq
    · exact hgrows s token (h.honest token opts s f S hin)
    · exact hhonest token opts s f S heq.symm

theorem passed_onSet {f : KeySet → KeySet} (hs : s < r.sets.length)
    (hf : ∀ set, ∀ t ∈ set.passed, t ∈ (f set).passed) (u : Nat) :
    ∀ t ∈ (r.setOf u).passed, t ∈ ((r.onSet s f).setOf u).passed := by
  intro t ht
  rw [setOf_onSet hs]
  split
  · exact hf _ t ht
  · exact ht

/-- The memo answers for the set that asks it, where the step is safe. -/
theorem Swept.answers (h : Swept asked r) (happart : Apart asked)
    (hi : r.callers[i]? = some (.verify token opts (.inside s .entered)))
    (hsafe : r.safe (.go i) = true) (hanswers : answers r.memo token = true) :
    token ∈ (r.setOf s).passed := by
  have hmem := List.mem_of_getElem? hi
  obtain ⟨owner, hin⟩ : ∃ owner, (owner, token) ∈ r.handed := by
    cases hmemo : r.memo with
    | none =>
      rw [hmemo] at hanswers
      cases hanswers
    | some m =>
      rw [hmemo] at hanswers
      obtain ⟨⟨owner, other⟩, hin, hdigest⟩ := (h.known m hmemo).has hanswers
      have hother := (h.handed _ hin).2
      have hasked := h.asked token opts _ hmem
      obtain rfl := happart other hother token hasked hdigest
      exact ⟨owner, hin⟩
  by_cases hunswept : r.callers.any Caller.unswept = true
  · rw [Ring.safe, hi] at hsafe
    simp only [hunswept, Bool.not_true, Bool.false_or, List.all_eq_true, Bool.or_eq_true,
      bne_iff_ne, ne_eq, List.contains_iff_mem] at hsafe
    rcases hsafe (owner, token) hin with hne | hown
    · exact absurd rfl hne
    · exact (h.handed _ hown).1
  · -- No set is still to be swept: what was handed in and who asks are both of the current one.
    have hnone {t : Nat} (hl : t = r.current ∨ ∃ l ∈ r.callers, l.sweeps t = true) :
        t = r.current := by
      rcases hl with heq | ⟨l, hl, hsweeps⟩
      · exact heq
      · exact absurd (List.any_eq_true.mpr ⟨l, hl, Caller.unswept_of_sweeps hsweeps⟩) hunswept
    have howner := hnone (h.owned _ hin)
    have hs := hnone (h.pinned.reads hmem (s := s) (by simp [Caller.reading]))
    obtain rfl : owner = s := howner.trans hs.symm
    exact (h.handed _ hin).1

/-- A digest is handed in under the set its token was checked with. -/
theorem Swept.remember (h : Swept asked r) {m : Memo} (hmemo : r.memo = some m)
    (hpassed : token ∈ (r.setOf s).passed) (hasked : token ∈ asked)
    (howner : s = r.current ∨ ∃ l ∈ r.callers, l.sweeps s = true) :
    Swept asked { r with
      memo := some (m.remember (digestOf token)), handed := (s, token) :: r.handed } where
  pinned := ⟨h.pinned.current, h.pinned.crossing, h.pinned.readers, h.pinned.owner, h.pinned.bound,
    h.pinned.arrived, h.pinned.left, h.pinned.gone⟩
  known := by
    intro m' hm'
    obtain rfl := Option.some.inj hm'
    refine ((h.known m hmemo).mono ?_).remember ⟨(s, token), List.mem_cons_self, rfl⟩
    rintro d ⟨x, hx, hd⟩
    exact ⟨x, List.mem_cons_of_mem _ hx, hd⟩
  handed := by
    intro x hx
    rcases List.mem_cons.mp hx with rfl | hin
    · exact ⟨hpassed, hasked⟩
    · exact h.handed x hin
  owned := by
    intro x hx
    rcases List.mem_cons.mp hx with rfl | hin
    · exact howner
    · exact h.owned x hin
  asked := h.asked
  passed := h.passed
  honest := h.honest

/-- The memo is emptied. -/
theorem Swept.clear (h : Swept asked r) :
    Swept asked { r with memo := r.memo.map Memo.clear, handed := [] } where
  pinned := ⟨h.pinned.current, h.pinned.crossing, h.pinned.readers, h.pinned.owner, h.pinned.bound,
    h.pinned.arrived, h.pinned.left, h.pinned.gone⟩
  known := by
    intro m' hm'
    obtain ⟨m, _, rfl⟩ := Option.map_eq_some_iff.mp hm'
    exact Memo.known_clear m _
  handed := by simp
  owned := by simp
  asked := h.asked
  passed := h.passed
  honest := h.honest

/-- A step inside `token.verify`. -/
theorem Swept.inside (h : Swept asked r) (happart : Apart asked) {phase later : Phase Claims}
    (hi : r.callers[i]? = some (.verify token opts (.inside s phase)))
    (hsafe : r.safe (.go i) = true)
    (hnext : phase.next c js (r.setOf s).keys r.memo (r.setOf s).passed token opts = some later) :
    Swept asked ((r.noted s token phase later).stand i (.verify token opts (.inside s later))) := by
  have hmem := List.mem_of_getElem? hi
  have hasked := h.asked token opts _ hmem
  have hlt := (h.pinned.held hmem (s := s) (by simp [Caller.holds, Caller.reading])).1
  have hpinned := h.pinned.inside later hi
  -- Where nothing is noted, only the caller's own place changes.
  have hplain (hpassed : ∀ f, later ≠ .passed f)
      (hready : ∀ f S, later = .ready f (some S) → token ∈ (r.setOf s).passed) :
      Pinned (r.stand i (.verify token opts (.inside s later))) →
        Swept asked (r.stand i (.verify token opts (.inside s later))) := by
    intro hpin
    refine h.move hpin hi rfl rfl rfl (fun _ t ht => ht) (fun t ht => ?_) ?_ ?_ ?_
    · rcases ht with heq | hsweeps
      · exact .inl heq
      · cases hsweeps
    · rintro token' opts' stage ⟨⟩
      exact hasked
    · rintro token' opts' s' f ⟨⟩
      exact absurd rfl (hpassed f)
    · rintro token' opts' s' f S ⟨⟩
      exact hready f S rfl
  cases phase with
  | entered =>
    refine hplain ?_ ?_ hpinned
    · rintro f rfl
      rw [Phase.next] at hnext
      split at hnext
      · cases hnext
      · split at hnext <;> cases hnext
    · rintro f S rfl
      rw [Phase.next] at hnext
      split at hnext
      · cases hnext
      · split at hnext
        · rename_i hanswers
          exact h.answers happart hi hsafe hanswers
        · cases hnext
  | missed f =>
    rw [Phase.next] at hnext
    split at hnext
    · obtain rfl := Option.some.inj hnext
      exact hplain (by simp) (by simp) hpinned
    · obtain rfl := Option.some.inj hnext
      refine h.move hpinned hi rfl rfl rfl ?_ (fun t ht => ?_) ?_ ?_ ?_
      · intro u t ht
        exact passed_onSet hlt (fun set t ht => List.mem_cons_of_mem token ht) u t ht
      · rcases ht with heq | hsweeps
        · exact .inl heq
        · cases hsweeps
      · rintro token' opts' stage ⟨⟩
        exact hasked
      · rintro token' opts' s' f ⟨⟩
        change token ∈ ((r.onSet s _).setOf s).passed
        rw [setOf_onSet hlt, if_pos rfl]
        exact List.mem_cons_self
      · rintro token' opts' s' f S ⟨⟩
  | passed f =>
    obtain rfl := Option.some.inj hnext
    have hchecked := h.passed token opts s f hmem
    have howner := h.pinned.reads hmem (s := s) (by simp [Caller.reading])
    cases hmemo : r.memo with
    | none =>
      have hnoted : r.noted s token (.passed f) (.ready f none) = r := by
        simp [Ring.noted, hmemo]
      rw [hnoted] at hpinned ⊢
      exact hplain (by simp) (by simp) hpinned
    | some m =>
      have hnoted : r.noted s token (.passed f) (.ready f none) =
          { r with memo := some (m.remember (digestOf token)), handed := (s, token) :: r.handed } := by
        simp [Ring.noted, hmemo]
      rw [hnoted] at hpinned ⊢
      have hkept := h.remember hmemo hchecked hasked howner
      refine hkept.move hpinned hi rfl rfl rfl (fun _ t ht => ht) (fun t ht => ?_) ?_ ?_ ?_
      · rcases ht with heq | hsweeps
        · exact .inl heq
        · cases hsweeps
      · rintro token' opts' stage ⟨⟩
        exact hasked
      · rintro token' opts' s' f ⟨⟩
      · rintro token' opts' s' f S ⟨⟩
  | ready f since =>
    obtain rfl := Option.some.inj hnext
    exact hplain (by simp) (by simp) hpinned
  | done result => cases hnext

theorem Swept.goVerify (h : Swept asked r) (happart : Apart asked) {stage : Stage Claims}
    (hi : r.callers[i]? = some (.verify token opts stage)) (hsafe : r.safe (.go i) = true)
    (hgo : r.goVerify c js i token opts stage = some r') : Swept asked r' := by
  have hmem := List.mem_of_getElem? hi
  have hasked := h.asked token opts _ hmem
  have hpinned := h.pinned.goVerify hi hgo
  have hverify {later : Stage Claims} {token' : Bytes} {opts' : Options} {stage' : Stage Claims}
      (heq : Caller.verify token opts later = .verify token' opts' stage') : token' ∈ asked := by
    cases heq
    exact hasked
  have howned {stage' : Stage Claims} (s : Nat)
      (hs : s = r.current ∨ (Caller.verify token opts stage').sweeps s = true) :
      s = r.current := hs.resolve_right (fun hsweeps => (by cases hsweeps))
  cases stage with
  | start =>
    obtain rfl := Option.some.inj hgo
    exact h.move hpinned hi rfl rfl rfl (fun _ t ht => ht) (fun t ht => .inl (howned t ht))
      (fun _ _ _ heq => hverify heq) (fun _ _ _ _ heq => (by cases heq))
      (fun _ _ _ _ _ heq => (by cases heq))
  | crossing =>
    obtain rfl := Option.some.inj hgo
    exact h.move hpinned hi rfl rfl rfl (fun _ t ht => ht) (fun t ht => .inl (howned t ht))
      (fun _ _ _ heq => hverify heq) (fun _ _ _ _ heq => (by cases heq))
      (fun _ _ _ _ _ heq => (by cases heq))
  | loaded s =>
    obtain rfl := Option.some.inj hgo
    have hlt := (h.pinned.held hmem (s := s) (by simp [Caller.holds, Caller.arriving])).1
    exact h.move hpinned hi rfl rfl rfl (passed_onSet hlt fun set t ht => ht)
      (fun t ht => .inl (howned t ht)) (fun _ _ _ heq => hverify heq)
      (fun _ _ _ _ heq => (by cases heq)) (fun _ _ _ _ _ heq => (by cases heq))
  | pinned s =>
    obtain rfl := Option.some.inj hgo
    exact h.move hpinned hi rfl rfl rfl (fun _ t ht => ht) (fun t ht => .inl (howned t ht))
      (fun _ _ _ heq => hverify heq) (fun _ _ _ _ heq => (by cases heq))
      (fun _ _ _ _ _ heq => (by cases heq))
  | inside s phase =>
    by_cases hdone : ∃ result, phase = .done result
    · obtain ⟨result, rfl⟩ := hdone
      obtain rfl := Option.some.inj hgo
      have hlt := (h.pinned.held hmem (s := s) (by simp [Caller.holds, Caller.reading])).1
      exact h.move hpinned hi rfl rfl rfl (passed_onSet hlt fun set t ht => ht)
        (fun t ht => .inl (howned t ht)) (fun _ _ _ heq => hverify heq)
        (fun _ _ _ _ heq => (by cases heq)) (fun _ _ _ _ _ heq => (by cases heq))
    · rw [goVerify_inside (not_exists.mp hdone)] at hgo
      obtain ⟨later, hnext, rfl⟩ := Option.map_eq_some_iff.mp hgo
      exact h.inside happart hi hsafe hnext
  | returned result => cases hgo

theorem Swept.goLoad (h : Swept asked r) {swap : Swap} (hi : r.callers[i]? = some (.load swap))
    (hgo : r.goLoad i swap = some r') : Swept asked r' := by
  have hpinned := h.pinned.goLoad hi hgo
  have hload {later : Swap} {token' : Bytes} {opts' : Options} {stage' : Stage Claims} :
      Caller.load later ≠ .verify token' opts' stage' := fun heq => (by cases heq)
  cases swap with
  | start keys =>
    obtain rfl := Option.some.inj hgo
    refine h.move hpinned hi rfl rfl rfl (fun u t ht => ?_) (fun s hs => ?_)
      (fun _ _ _ heq => absurd heq hload) (fun _ _ _ _ heq => absurd heq hload)
      (fun _ _ _ _ _ heq => absurd heq hload)
    · have hpassed : (({ r with sets := r.sets ++ [KeySet.fresh keys], current := r.sets.length } :
          Ring Claims).setOf u).passed = (r.setOf u).passed := by
        simp only [Ring.setOf]
        rcases Nat.lt_trichotomy u r.sets.length with hlt | rfl | hgt
        · rw [List.getElem?_append_left hlt]
        · simp [KeySet.fresh]
        · rw [List.getElem?_eq_none (by simp; omega), List.getElem?_eq_none (by omega)]
      exact hpassed ▸ ht
    · -- What is current is swapped out, and is to be swept.
      rcases hs with rfl | hsweeps
      · exact .inr (by simp [Caller.sweeps])
      · cases hsweeps
  | swapped old =>
    rw [Ring.goLoad] at hgo
    split at hgo
    · obtain rfl := Option.some.inj hgo
      exact h.move hpinned hi rfl rfl rfl (fun _ t ht => ht) (fun s hs => hs)
        (fun _ _ _ heq => absurd heq hload) (fun _ _ _ _ heq => absurd heq hload)
        (fun _ _ _ _ _ heq => absurd heq hload)
    · obtain rfl := Option.some.inj hgo
      exact h
  | crossed old =>
    rw [Ring.goLoad] at hgo
    split at hgo
    · obtain rfl := Option.some.inj hgo
      exact h.move hpinned hi rfl rfl rfl (fun _ t ht => ht) (fun s hs => hs)
        (fun _ _ _ heq => absurd heq hload) (fun _ _ _ _ heq => absurd heq hload)
        (fun _ _ _ _ _ heq => absurd heq hload)
    · obtain rfl := Option.some.inj hgo
      exact h
  | drained old =>
    obtain rfl := Option.some.inj hgo
    -- Nothing that was handed in is left, so nothing has to be owned.
    have hclear := h.clear
    have hmem {token : Bytes} {opts : Options} {stage : Stage Claims}
        (hv : Caller.verify token opts stage ∈ r.callers.set i (.load (.cleared old))) :
        Caller.verify token opts stage ∈ r.callers := by
      rcases List.mem_or_eq_of_mem_set hv with hin | heq
      · exact hin
      · cases heq
    exact ⟨hpinned, hclear.known, hclear.handed, fun x hx => (by cases hx),
      fun token opts stage hv => h.asked token opts stage (hmem hv),
      fun token opts s f hv => h.passed token opts s f (hmem hv),
      fun token opts s f S hv => h.honest token opts s f S (hmem hv)⟩
  | cleared old =>
    obtain rfl := Option.some.inj hgo
    have hlt := h.pinned.freeing_lt (List.mem_of_getElem? hi) (s := old) (by simp [Caller.frees])
    exact h.move hpinned hi rfl rfl rfl (passed_onSet hlt fun set t ht => ht)
      (fun s hs => .inl (hs.resolve_right fun hsweeps => (by cases hsweeps)))
      (fun _ _ _ heq => absurd heq hload) (fun _ _ _ _ heq => absurd heq hload)
      (fun _ _ _ _ _ heq => absurd heq hload)
  | finished => cases hgo

theorem Swept.enter (h : Swept asked r) {b : Caller Claims}
    (hpinned : Pinned { r with callers := r.callers ++ [b] })
    (hb : ∀ token opts stage, b = .verify token opts stage → token ∈ asked ∧ stage = .start) :
    Swept asked { r with callers := r.callers ++ [b] } := by
  have hmem {v : Caller Claims} (hv : v ∈ r.callers ++ [b]) : v ∈ r.callers ∨ v = b := by
    simpa using hv
  refine ⟨hpinned, h.known, h.handed, fun x hx => ?_, fun token opts stage hv => ?_,
    fun token opts s f hv => ?_, fun token opts s f S hv => ?_⟩
  · rcases h.owned x hx with heq | ⟨l, hl, hsweeps⟩
    · exact .inl heq
    · exact .inr ⟨l, List.mem_append_left _ hl, hsweeps⟩
  · rcases hmem hv with hin | heq
    · exact h.asked token opts stage hin
    · exact (hb token opts stage heq.symm).1
  · rcases hmem hv with hin | heq
    · exact h.passed token opts s f hin
    · cases (hb token opts _ heq.symm).2
  · rcases hmem hv with hin | heq
    · exact h.honest token opts s f S hin
    · cases (hb token opts _ heq.symm).2

theorem Swept.act (h : Swept asked r) (happart : Apart asked) {m : Move}
    (hasked : ∀ token opts, m = .verify token opts → token ∈ asked) (hsafe : r.safe m = true)
    (hact : r.act c js m = some r') : Swept asked r' := by
  have hpinned := h.pinned.act hact
  cases m with
  | verify token opts =>
    obtain rfl := Option.some.inj hact
    refine h.enter hpinned ?_
    rintro token' opts' stage ⟨⟩
    exact ⟨hasked token opts rfl, rfl⟩
  | load keys =>
    obtain rfl := Option.some.inj hact
    refine h.enter hpinned ?_
    rintro token' opts' stage ⟨⟩
  | go i =>
    rw [Ring.act] at hact
    split at hact
    · rename_i hi
      exact h.goVerify happart hi hsafe hact
    · rename_i hi
      exact h.goLoad hi hact
    · cases hact

theorem Swept.run (h : Swept asked r) (happart : Apart asked) {moves : List Move}
    (hasked : ∀ token ∈ asks moves, token ∈ asked) (halong : r.along c js moves = true)
    (hrun : r.run c js moves = some r') : Swept asked r' := by
  induction moves generalizing r with
  | nil =>
    obtain rfl := Option.some.inj hrun
    exact h
  | cons m rest ih =>
    obtain ⟨mid, hact, hrest⟩ := Option.bind_eq_some_iff.mp hrun
    dsimp only at hact
    rw [Ring.along, hact, Bool.and_eq_true] at halong
    refine ih (h.act happart ?_ halong.1 hact) ?_ halong.2 hrest
    · rintro token opts rfl
      exact hasked token (by simp [asks])
    · intro token htoken
      refine hasked token ?_
      rw [asks, List.filterMap_cons]
      split
      · exact htoken
      · exact List.mem_cons_of_mem _ htoken

theorem swept_init (memo : Option (Nat × (Nat → Digest))) :
    Swept asked (Ring.init memo : Ring Claims) where
  pinned := pinned_init memo
  known := by
    intro m hm
    obtain ⟨n, _, rfl⟩ := Option.map_eq_some_iff.mp hm
    exact Memo.known_init n.1 n.2 _
  handed x hx := by cases hx
  owned x hx := by cases hx
  asked token opts stage hv := by cases hv
  passed token opts s f hv := by cases hv
  honest token opts s f S hv := by cases hv

end Steps

/-! ## Every interleaving -/

/-- In every interleaving in which no `verify` asks the memo, between a `load`'s swap and its clear,
about a token that was handed in under another set and not under its own, a `verify` that the memo
answers has pinned a set under which its token has passed the signature check. -/
theorem run_honest (memo : Option (Nat × (Nat → Digest))) (moves : List Move) {r : Ring Claims}
    (hrun : (Ring.init memo).run c js moves = some r) (happart : Apart (asks moves))
    (halong : (Ring.init memo).along c js moves = true) : Honest r :=
  ((swept_init memo).run happart (fun _ h => h) halong hrun).honest

def laterOpts : Options := ⟨.unchecked, .unchecked, 1300819000, 0⟩

/-- A token is checked under the set it was signed for, and asked about again. -/
def remembered : List Move :=
  [.load exampleKeys] ++ List.replicate 5 (.go 0) ++
    [.verify exampleToken laterOpts] ++ List.replicate 9 (.go 1) ++
    [.verify exampleToken laterOpts] ++ List.replicate 5 (.go 2)

theorem asks_apart {moves : List Move} (h : ∀ token ∈ asks moves, token = exampleToken) :
    Apart (asks moves) := by
  intro token htoken other hother _
  rw [h token htoken, h other hother]

theorem run_honest_remembered : ∃ r : Ring Unit,
    (Ring.init (some (1, fun _ => []))).run exampleCrypto exampleJson remembered = some r ∧
      r.handed = [(1, exampleToken)] ∧ Honest r := by
  have hrun : ((Ring.init (some (1, fun _ => []))).run exampleCrypto exampleJson remembered).map
      Ring.handed = some [(1, exampleToken)] := by
    simp only [remembered, exampleCrypto, exampleJson, exampleToken, exampleHeader_eq,
      examplePayload_eq, exampleSignature_eq]
    decide +kernel
  obtain ⟨r, hr, hhanded⟩ := Option.map_eq_some_iff.mp hrun
  have hasks : ∀ token ∈ asks remembered, token = exampleToken := by
    simp only [remembered, exampleToken, exampleHeader_eq, examplePayload_eq, exampleSignature_eq]
    decide +kernel
  have halong : (Ring.init (some (1, fun _ => []))).along exampleCrypto exampleJson remembered =
      true := by
    simp only [remembered, exampleCrypto, exampleJson, exampleToken, exampleHeader_eq,
      examplePayload_eq, exampleSignature_eq]
    decide +kernel
  exact ⟨r, hr, hhanded, run_honest _ remembered hr (asks_apart hasks) halong⟩

/-- A set with another key under the same name, which is none. -/
def otherKeys : Keys := ⟨[⟨[], .ec ⟨ascii "P-256", otherX, otherY⟩⟩]⟩

/-- The token is checked under its own set; a `load` swaps the other set in, and before it empties
the memo the token is asked about again. -/
def rotated : List Move :=
  [.load exampleKeys] ++ List.replicate 5 (.go 0) ++
    [.verify exampleToken laterOpts] ++ List.replicate 9 (.go 1) ++
    [.load otherKeys, .go 2, .verify exampleToken laterOpts] ++ List.replicate 5 (.go 3)

/-- What a caller has found out, where the memo has answered it, and what it has pinned. -/
def Caller.answered : Caller Claims → Option (Bytes × Nat)
  | .verify token _ (.inside s (.ready _ (some _))) => some (token, s)
  | _ => none

theorem answered_eq {v : Caller Claims} {token : Bytes} {s : Nat}
    (h : v.answered = some (token, s)) :
    ∃ opts f S, v = .verify token opts (.inside s (.ready f (some S))) := by
  cases v with
  | load swap => cases h
  | verify token opts stage =>
    cases stage with
    | inside t phase =>
      cases phase with
      | ready f since =>
        cases since with
        | some S =>
          cases h
          exact ⟨opts, f, S, rfl⟩
        | none => cases h
      | entered => cases h
      | missed f => cases h
      | passed f => cases h
      | done result => cases h
    | start => cases h
    | crossing => cases h
    | loaded t => cases h
    | pinned t => cases h
    | returned result => cases h

/-- Whether a caller has been given claims. -/
def Caller.accepted : Caller Claims → Bool
  | .verify _ _ (.inside _ (.done (.ok _))) => true
  | _ => false

/-- The token is accepted under a set with which its signature does not pass. -/
theorem not_honest_rotated : ∃ r r' : Ring Unit,
    (Ring.init (some (1, fun _ => []))).run exampleCrypto exampleJson rotated = some r ∧
      ¬ Honest r ∧ r.act exampleCrypto exampleJson (.go 3) = some r' ∧
      r'.callers[3]?.any Caller.accepted = true ∧
      verify exampleCrypto exampleJson otherKeys laterOpts exampleToken = .error .badSignature := by
  have hrun : ((Ring.init (some (1, fun _ => []))).run exampleCrypto exampleJson rotated).map
      (fun r => (r.callers[3]?.bind Caller.answered, (r.setOf 2).passed, (r.setOf 2).keys,
        (r.act exampleCrypto exampleJson (.go 3)).map fun r' =>
          r'.callers[3]?.any Caller.accepted)) =
      some (some (exampleToken, 2), [], otherKeys, some true) := by
    simp only [rotated, exampleCrypto, exampleJson, exampleToken, exampleHeader_eq,
      examplePayload_eq, exampleSignature_eq]
    decide +kernel
  have hother : verify exampleCrypto exampleJson otherKeys laterOpts exampleToken =
      .error .badSignature := by
    simp only [exampleCrypto, exampleJson, exampleToken, exampleHeader_eq, examplePayload_eq,
      exampleSignature_eq]
    decide +kernel
  obtain ⟨r, hr, heq⟩ := Option.map_eq_some_iff.mp hrun
  simp only [Prod.mk.injEq] at heq
  obtain ⟨hcaller, hpassed, _, hact⟩ := heq
  obtain ⟨r', hr', haccepted⟩ := Option.map_eq_some_iff.mp hact
  refine ⟨r, r', hr, fun hhonest => ?_, hr', haccepted, hother⟩
  obtain ⟨v, hv, hanswered⟩ := Option.bind_eq_some_iff.mp hcaller
  obtain ⟨opts, f, S, rfl⟩ := answered_eq hanswered
  have hin := hhonest exampleToken opts 2 f S (List.mem_of_getElem? hv)
  rw [hpassed] at hin
  cases hin

end Nilo.Jwt
