import Nilo.Http.Allowance
import Mathlib.Data.Nat.Log

/-!
# A client alone (`take`, `countBits`, `Slot` in `http/allowance.zig`)

The charges of one client, one after the other and each with nobody beside it, while other addresses
write other ways of the bucket. A slot holds two counts and a window modulo `2 ^ 16`, and `takeOne`
rolls it forward by what it can tell from those. `run_sliding` says that this is the sliding window:
a charge is let through when the requests of its own window and the part of those before it that
still counts leave room, and the counts fit the bits the slot gives them.

A refused charge leaves the slot as it was, and so a slot may be a window behind the charge before.
-/

namespace Nilo.Allowance

/-! ## The bits of a count -/

/-- A number of the declaration: stated, or read from an address when a request comes. -/
inductive Late where
  | value (v : Nat)
  | held

/-- `std.math.log2_int_ceil` -/
def log2IntCeil (x : Nat) : Nat := if x = 1 then 0 else Nat.log2 (x - 1) + 1

/-- How many bits a slot gives each counter. -/
def countBits (perWindow : Late) (most : Nat) : Nat :=
  match perWindow with
  | .value v => log2IntCeil (v + 1)
  | .held => most

/-- What a declaration accepts while compiling, or else a request finds in range: an address's slot
has room for counts of `most = 10` bits, a keyed one of 24. -/
structure Accepted (o : Options) (declared : Late) (most : Nat) : Prop where
  perWindow : 0 < o.perWindow
  windowNs : 0 < o.windowNs
  within : o.perWindow < 2 ^ most
  stated : ∀ v, declared = .value v → v = o.perWindow

theorem lt_two_pow_log2IntCeil (v : Nat) : v < 2 ^ log2IntCeil (v + 1) := by
  rw [log2IntCeil, Nat.add_sub_cancel]
  split_ifs with hv
  · omega
  · exact Nat.lt_log2_self

theorem Accepted.lt_countBits {o : Options} {declared : Late} {most n : Nat}
    (h : Accepted o declared most) (hn : n ≤ o.perWindow) : n < 2 ^ countBits declared most := by
  cases declared with
  | value v =>
    rw [← h.stated v rfl] at hn
    exact Nat.lt_of_le_of_lt hn (lt_two_pow_log2IntCeil v)
  | held => exact Nat.lt_of_le_of_lt hn h.within

/-! ## A call with nobody beside it -/

/-- A step of a call that runs alone. -/
def stepAlone (o : Options) (fp : Nat) (p : Call × List Slot) : Call × List Slot :=
  p.1.step o fp p.2 false

/-- A whole call: a scan of the bucket and three steps more. -/
def charge (o : Options) (fp : Nat) (bucket : List Slot) (now : Nat) : Call × List Slot :=
  (stepAlone o fp)^[bucket.length + 3] (Call.start o now, bucket)

/-- The bucket, and the windows requests of the client were let through in. -/
structure History where
  bucket : List Slot
  admitted : List Nat

/-- What happens next. -/
inductive Turn where
  | charge (now : Nat)
  /-- Another address writes a way. -/
  | other (i : Nat) (slot : Slot)

namespace History

/-- The client keeps its slot: nobody else writes it, and nobody else has its fingerprint. -/
def turn (o : Options) (fp : Nat) (w : History) : Turn → History
  | .charge now =>
    let (c, bucket) := Allowance.charge o fp w.bucket now
    ⟨bucket, if lets (Call.start o now) c then now / o.windowNs :: w.admitted else w.admitted⟩
  | .other i slot =>
    if slot.fp ≠ fp ∧ w.bucket[i]?.any (·.fp ≠ fp) then { w with bucket := w.bucket.set i slot }
    else w

def run (o : Options) (fp : Nat) (w : History) (turns : List Turn) : History :=
  turns.foldl (turn o fp) w

end History

/-- Times do not go back, and no two charges in a row are `2 ^ 16 - 1` windows apart. -/
def spaced (o : Options) : Option Nat → List Turn → Bool
  | _, [] => true
  | last, .other _ _ :: turns => spaced o last turns
  | last, .charge now :: turns =>
    last.all (fun t => t ≤ now && now / o.windowNs < t / o.windowNs + 65535) &&
      spaced o (some now) turns

/-! ## The sliding window -/

/-- The requests let through in the window before. -/
def countBefore (admitted : List Nat) (window : Nat) : Nat :=
  if window = 0 then 0 else admitted.count (window - 1)

/-- What counts against a charge: the part of the window before that is still in sight, rounded
down, and the window itself. -/
def weight (o : Options) (admitted : List Nat) (now : Nat) : Nat :=
  countBefore admitted (now / o.windowNs) * (o.windowNs - now % o.windowNs) / o.windowNs +
    admitted.count (now / o.windowNs)

/-- What a charge has to come to. -/
def slide (o : Options) (admitted : List Nat) (now : Nat) : Verdict :=
  if weight o admitted now < o.perWindow then
    ⟨true, some (o.perWindow - (weight o admitted now + 1))⟩
  else ⟨false, some 0⟩

variable {o : Options} {fp : Nat}

/-! ## One call -/

theorem stepAlone_done {c : Call} {v : Verdict} (h : c.phase = .done v) (bucket : List Slot)
    (n : Nat) : (stepAlone o fp)^[n] (c, bucket) = (c, bucket) := by
  induction n with
  | zero => rfl
  | succ n ih =>
    have hone : stepAlone o fp (c, bucket) = (c, bucket) := by simp only [stepAlone, Call.step, h]
    rw [Function.iterate_succ_apply, hone, ih]

/-- The first way of the client. -/
structure Owns (fp : Nat) (bucket : List Slot) (own : Nat) (slot : Slot) : Prop where
  way : bucket[own]? = some slot
  mine : slot.fp = fp
  first : ∀ i < own, ∀ s, bucket[i]? = some s → s.fp ≠ fp

/-- Past a way that is another's. -/
theorem stepAlone_past {bucket : List Slot} {j oldest oldestAge : Nat} {c : Call} {s : Slot}
    (hs : bucket[j]? = some s) (hne : s.fp ≠ fp) (hphase : c.phase = .scan j oldest oldestAge) :
    ∃ pick pickAge, (pick = j ∨ pick = oldest) ∧ stepAlone o fp (c, bucket) =
      ({ c with phase := if j + 1 < bucket.length then .scan (j + 1) pick pickAge else .insert pick },
        bucket) := by
  refine ⟨(if s.fp = 0 then (j, 2 ^ 16 - 1)
    else if age c.window s.window > oldestAge then (j, age c.window s.window)
    else (oldest, oldestAge)).1, (if s.fp = 0 then (j, 2 ^ 16 - 1)
    else if age c.window s.window > oldestAge then (j, age c.window s.window)
    else (oldest, oldestAge)).2, ?_, ?_⟩
  · split_ifs
    · exact .inl rfl
    · exact .inl rfl
    · exact .inr rfl
  · simp only [stepAlone, Call.step, hphase, Call.scan, hs, if_neg hne]
    split_ifs <;> rfl

theorem scan_owns {bucket : List Slot} {own : Nat} {slot : Slot} (h : Owns fp bucket own slot)
    {k j oldest oldestAge : Nat} {c : Call} (hj : j + k = own)
    (hphase : c.phase = .scan j oldest oldestAge) :
    (stepAlone o fp)^[k + 1] (c, bucket) =
      ({ c with ours := true, phase := .found own }, bucket) := by
  have hlt := (List.getElem?_eq_some_iff.mp h.way).1
  induction k generalizing c j oldest oldestAge with
  | zero =>
    rw [Nat.add_zero] at hj
    subst hj
    simp only [Nat.zero_add, Function.iterate_one, stepAlone, Call.step, hphase, Call.scan, h.way,
      if_pos h.mine]
  | succ k ih =>
    obtain ⟨s, hs⟩ : ∃ s, bucket[j]? = some s := ⟨_, List.getElem?_eq_getElem (by omega)⟩
    obtain ⟨pick, pickAge, -, hstep⟩ :=
      stepAlone_past (o := o) hs (h.first j (by omega) s hs) hphase
    rw [if_pos (by omega)] at hstep
    rw [Function.iterate_succ_apply, hstep, ih (by omega) rfl]

theorem scan_none {bucket : List Slot} (h : ∀ s ∈ bucket, s.fp ≠ fp) {k j oldest oldestAge : Nat}
    {c : Call} (hj : j + k + 1 = bucket.length) (holdest : oldest < bucket.length)
    (hphase : c.phase = .scan j oldest oldestAge) :
    ∃ pick < bucket.length,
      (stepAlone o fp)^[k + 1] (c, bucket) = ({ c with phase := .insert pick }, bucket) := by
  induction k generalizing c j oldest oldestAge with
  | zero =>
    obtain ⟨s, hs⟩ : ∃ s, bucket[j]? = some s := ⟨_, List.getElem?_eq_getElem (by omega)⟩
    obtain ⟨pick, pickAge, hpick, hstep⟩ :=
      stepAlone_past (o := o) hs (h s (List.mem_of_getElem? hs)) hphase
    rw [if_neg (by omega)] at hstep
    exact ⟨pick, by omega, hstep⟩
  | succ k ih =>
    obtain ⟨s, hs⟩ : ∃ s, bucket[j]? = some s := ⟨_, List.getElem?_eq_getElem (by omega)⟩
    obtain ⟨pick, pickAge, hpick, hstep⟩ :=
      stepAlone_past (o := o) hs (h s (List.mem_of_getElem? hs)) hphase
    rw [if_pos (by omega)] at hstep
    rw [Function.iterate_succ_apply, hstep]
    exact ih (by omega) (by omega) rfl

/-- A call of a client that has its slot counts itself against it. -/
theorem charge_owns {bucket : List Slot} {own : Nat} {slot : Slot} (h : Owns fp bucket own slot)
    (now : Nat) :
    match takeOne o slot (now / o.windowNs % 2 ^ 16) (now % o.windowNs) with
    | none => (charge o fp bucket now).1.phase = .done ⟨false, some 0⟩ ∧
        (charge o fp bucket now).2 = bucket
    | some (fresh, left) => (charge o fp bucket now).1.phase = .done ⟨true, some left⟩ ∧
        (charge o fp bucket now).2 = bucket.set own fresh := by
  have hlt := (List.getElem?_eq_some_iff.mp h.way).1
  obtain ⟨more, hmore⟩ : ∃ more, bucket.length + 3 = more + 2 + (own + 1) :=
    ⟨bucket.length - own, by omega⟩
  have hscan := scan_owns (o := o) h (c := Call.start o now) (Nat.zero_add own) rfl
  rw [charge, hmore, Function.iterate_add_apply, hscan, Function.iterate_add_apply]
  have hfound : ∀ c : Call, c.phase = .found own → stepAlone o fp (c, bucket) =
      match takeOne o slot c.window c.into with
      | none => (c.finish ⟨false, some 0⟩, bucket)
      | some (fresh, left) => ({ c with phase := .swap own slot fresh left }, bucket) := by
    intro c hc
    cases htake : takeOne o slot c.window c.into with
    | none =>
      simp only [stepAlone, Call.step, hc, h.way, h.mine, ne_eq, not_true_eq_false, if_false, htake]
    | some taken =>
      simp only [stepAlone, Call.step, hc, h.way, h.mine, ne_eq, not_true_eq_false, if_false, htake]
  rw [show (2 : Nat) = 1 + 1 from rfl, Function.iterate_add_apply, Function.iterate_one,
    hfound _ rfl]
  have hwindow : ({ Call.start o now with ours := true, phase := .found own } : Call).window =
      now / o.windowNs % 2 ^ 16 := rfl
  rw [hwindow]
  show match takeOne o slot (now / o.windowNs % 2 ^ 16) (now % o.windowNs) with
    | none => _
    | some (fresh, left) => _
  cases htake : takeOne o slot (now / o.windowNs % 2 ^ 16) (now % o.windowNs) with
  | none =>
    have htake' : takeOne o slot (now / o.windowNs % 2 ^ 16)
        ({ Call.start o now with ours := true, phase := .found own } : Call).into = none := htake
    rw [htake']
    dsimp only
    rw [show stepAlone o fp (Call.finish { Call.start o now with ours := true, phase := .found own }
        ⟨false, some 0⟩, bucket) = (Call.finish { Call.start o now with
          ours := true, phase := .found own } ⟨false, some 0⟩, bucket) from rfl,
      stepAlone_done rfl]
    exact ⟨rfl, rfl⟩
  | some taken =>
    obtain ⟨fresh, left⟩ := taken
    have htake' : takeOne o slot (now / o.windowNs % 2 ^ 16)
        ({ Call.start o now with ours := true, phase := .found own } : Call).into =
          some (fresh, left) := htake
    rw [htake']
    have hswap : ∀ c : Call, c.phase = .swap own slot fresh left →
        stepAlone o fp (c, bucket) = (c.finish ⟨true, some left⟩, bucket.set own fresh) := by
      intro c hc
      simp only [stepAlone, Call.step, hc, h.way, and_self, if_true]
    dsimp only
    rw [hswap _ rfl, stepAlone_done rfl]
    exact ⟨rfl, rfl⟩

/-- A call of a client that has none takes a way over. -/
theorem charge_none {bucket : List Slot} (hbucket : bucket ≠ []) (h : ∀ s ∈ bucket, s.fp ≠ fp)
    (now : Nat) :
    ∃ pick < bucket.length,
      (charge o fp bucket now).1.phase = .done ⟨true, some (o.perWindow - 1)⟩ ∧
        (charge o fp bucket now).2 = bucket.set pick ⟨1, 0, now / o.windowNs % 2 ^ 16, fp⟩ := by
  have hpos : 0 < bucket.length := List.length_pos_of_ne_nil hbucket
  obtain ⟨pick, hpick, hscan⟩ := scan_none (o := o) h (k := bucket.length - 1)
    (c := Call.start o now) (j := 0) (by omega) hpos rfl
  refine ⟨pick, hpick, ?_⟩
  obtain ⟨was, hwas⟩ : ∃ was, bucket[pick]? = some was := ⟨_, List.getElem?_eq_getElem hpick⟩
  have hmine := h was (List.mem_of_getElem? hwas)
  have hinsert : ∀ c : Call, c.phase = .insert pick → stepAlone o fp (c, bucket) =
      ({ c with phase := .place pick was ⟨1, 0, c.window, fp⟩ }, bucket) := by
    intro c hc
    simp only [stepAlone, Call.step, hc, hwas, if_neg hmine]
  have hplace : ∀ (c : Call) (fresh : Slot), c.phase = .place pick was fresh →
      stepAlone o fp (c, bucket) =
        (c.finish ⟨true, some (o.perWindow - 1)⟩, bucket.set pick fresh) := by
    intro c fresh hc
    simp only [stepAlone, Call.step, hc, hwas, and_self, if_true]
  rw [charge, show bucket.length + 3 = 1 + 1 + 1 + (bucket.length - 1 + 1) by omega,
    Function.iterate_add_apply, hscan, Function.iterate_add_apply, Function.iterate_one,
    hinsert _ rfl, Function.iterate_add_apply, Function.iterate_one, hplace _ _ rfl]
  exact ⟨rfl, rfl⟩

/-! ## The counts -/

/-- The slot counts the newest window requests were let through in, and the one before it. -/
structure Tallies (slot : Slot) (top : Nat) (admitted : List Nat) : Prop where
  window : slot.window = top % 2 ^ 16
  newest : ∀ v ∈ admitted, v ≤ top
  cur : slot.cur = admitted.count top
  prev : slot.prev = countBefore admitted top

theorem Tallies.count_eq_zero {slot : Slot} {top v : Nat} {admitted : List Nat}
    (h : Tallies slot top admitted) (hv : top < v) : admitted.count v = 0 :=
  List.count_eq_zero.mpr fun hmem => Nat.not_lt.mpr (h.newest v hmem) hv

/-- What the slot tells of a window it is rolled forward to. -/
theorem Tallies.roll {slot : Slot} {top window : Nat} {admitted : List Nat}
    (h : Tallies slot top admitted) (hle : top ≤ window) (hnear : window < top + 2 ^ 16) :
    (if age (window % 2 ^ 16) slot.window = 0 then slot.cur else 0) = admitted.count window ∧
      (if age (window % 2 ^ 16) slot.window = 0 then slot.prev
        else if age (window % 2 ^ 16) slot.window = 1 then slot.cur else 0) =
        countBefore admitted window := by
  have hage : age (window % 2 ^ 16) slot.window = window - top := by
    rw [h.window, age]
    omega
  rw [hage]
  rcases Nat.eq_or_lt_of_le hle with rfl | hlt
  · rw [if_pos (Nat.sub_self top), if_pos (Nat.sub_self top)]
    exact ⟨h.cur, h.prev⟩
  · have hbefore : countBefore admitted window = admitted.count (window - 1) :=
      if_neg (by omega)
    rw [if_neg (by omega), if_neg (by omega), h.count_eq_zero hlt, hbefore]
    refine ⟨rfl, ?_⟩
    rcases Nat.eq_or_lt_of_le hlt with rfl | hfar
    · rw [if_pos (by omega), h.cur, Nat.succ_sub_one]
    · rw [if_neg (by omega), h.count_eq_zero (by omega)]

/-- The arithmetic of `take` is the sliding window. -/
theorem Tallies.takeOne {slot : Slot} {top now : Nat} {admitted : List Nat}
    (h : Tallies slot top admitted) (hle : top ≤ now / o.windowNs)
    (hnear : now / o.windowNs < top + 2 ^ 16) :
    takeOne o slot (now / o.windowNs % 2 ^ 16) (now % o.windowNs) =
      if o.perWindow ≤ weight o admitted now then none
      else some (⟨admitted.count (now / o.windowNs) + 1, countBefore admitted (now / o.windowNs),
        now / o.windowNs % 2 ^ 16, slot.fp⟩, o.perWindow - (weight o admitted now + 1)) := by
  obtain ⟨hcur, hprev⟩ := h.roll hle hnear
  rw [Allowance.takeOne, hcur, hprev]
  rfl

theorem countBefore_cons (admitted : List Nat) (window : Nat) :
    countBefore (window :: admitted) window = countBefore admitted window := by
  unfold countBefore
  split_ifs with hzero
  · rfl
  · exact List.count_cons_of_ne (by omega)

/-- A charge that is let through, on the slot. -/
theorem Tallies.next {slot : Slot} {top window : Nat} {admitted : List Nat}
    (h : Tallies slot top admitted) (hle : top ≤ window) :
    Tallies ⟨admitted.count window + 1, countBefore admitted window, window % 2 ^ 16, slot.fp⟩ window
      (window :: admitted) where
  window := rfl
  newest v hv := by
    rcases List.mem_cons.mp hv with rfl | hv
    · exact Nat.le_refl _
    · exact Nat.le_trans (h.newest v hv) hle
  cur := List.count_cons_self.symm
  prev := (countBefore_cons admitted window).symm

/-- No window has more than its allowance. -/
def Held (o : Options) (admitted : List Nat) : Prop := ∀ v, admitted.count v ≤ o.perWindow

theorem Held.before {admitted : List Nat} (h : Held o admitted) (window : Nat) :
    countBefore admitted window ≤ o.perWindow := by
  unfold countBefore
  split_ifs
  · exact Nat.zero_le _
  · exact h _

theorem Held.next {admitted : List Nat} {now : Nat} (h : Held o admitted)
    (hroom : weight o admitted now < o.perWindow) : Held o (now / o.windowNs :: admitted) := by
  intro v
  by_cases hv : v = now / o.windowNs
  · rw [hv, List.count_cons_self]
    exact Nat.lt_of_le_of_lt (Nat.le_add_left _ _) hroom
  · rw [List.count_cons_of_ne (fun he => hv he.symm)]
    exact h v

/-! ## The history -/

/-- Where a client's bucket stands after its charges, the last of them at `last`. A slot that has
refused may be a window behind. -/
structure Kept (o : Options) (fp : Nat) (w : History) (last : Option Nat) : Prop where
  bucket : w.bucket ≠ []
  held : Held o w.admitted
  slot : (w.admitted = [] ∧ ∀ s ∈ w.bucket, s.fp ≠ fp) ∨
    ∃ own slot top t, Owns fp w.bucket own slot ∧ Tallies slot top w.admitted ∧ last = some t ∧
      top ≤ t / o.windowNs ∧ t / o.windowNs ≤ top + 1
  fits : ∀ s ∈ w.bucket, s.fp = fp → s.cur ≤ o.perWindow ∧ s.prev ≤ o.perWindow

/-- A charge comes after the last, and not `2 ^ 16 - 1` windows after. -/
def Follows (o : Options) (last : Option Nat) (now : Nat) : Prop :=
  ∀ t ∈ last, t ≤ now ∧ now / o.windowNs < t / o.windowNs + 65535

theorem weight_nil (o : Options) (now : Nat) : weight o [] now = 0 := by
  have hbefore : countBefore [] (now / o.windowNs) = 0 := by
    unfold countBefore
    split_ifs <;> rfl
  rw [weight, hbefore, Nat.zero_mul, Nat.zero_div]
  rfl

variable {w : History} {last : Option Nat} {now : Nat}

/-- What a charge comes to, and where it leaves the bucket. -/
theorem Kept.charge (h : Kept o fp w last) (hpos : 0 < o.perWindow) (hfollows : Follows o last now) :
    (Allowance.charge o fp w.bucket now).1.phase = .done (slide o w.admitted now) ∧
      Kept o fp (w.turn o fp (.charge now)) (some now) := by
  have hlets : ∀ {c : Call} {v : Verdict}, c.phase = .done v →
      lets (Call.start o now) c = v.allowed := by
    intro c v hc
    simp only [lets, Call.start, hc]
  rcases h.slot with ⟨hnil, hnone⟩ | ⟨own, slot, top, t, howns, htallies, hlast, htop, hbehind⟩
  · -- The first charge takes a way over.
    obtain ⟨pick, hpick, hphase, hbucket⟩ := charge_none (o := o) h.bucket hnone now
    have hslide : slide o w.admitted now = ⟨true, some (o.perWindow - 1)⟩ := by
      rw [slide, hnil, weight_nil, if_pos hpos]
    have hturn : w.turn o fp (.charge now) =
        ⟨w.bucket.set pick ⟨1, 0, now / o.windowNs % 2 ^ 16, fp⟩, [now / o.windowNs]⟩ := by
      simp only [History.turn, hbucket, hlets hphase, if_true, hnil]
    refine ⟨hphase.trans (congrArg Phase.done hslide.symm), ?_⟩
    rw [hturn]
    refine ⟨fun hset => h.bucket (by simpa using congrArg List.length hset), ?_, .inr ?_, ?_⟩
    · intro v
      rw [List.count_cons, List.count_nil]
      split_ifs <;> omega
    · refine ⟨pick, _, now / o.windowNs, now, ⟨List.getElem?_set_self hpick, rfl, ?_⟩,
        ⟨rfl, ?_, ?_, ?_⟩, rfl, Nat.le_refl _, Nat.le_succ _⟩
      · intro i hi s hs
        rw [List.getElem?_set_ne (Nat.ne_of_gt hi)] at hs
        exact hnone s (List.mem_of_getElem? hs)
      · intro v hv
        exact Nat.le_of_eq (List.mem_singleton.mp hv)
      · exact List.count_singleton_self.symm
      · rw [countBefore_cons, countBefore]
        split_ifs <;> rfl
    · intro s hs hmine
      rcases List.mem_or_eq_of_mem_set hs with hs | rfl
      · exact absurd hmine (hnone s hs)
      · exact ⟨hpos, Nat.zero_le _⟩
  · -- The slot is the client's.
    obtain ⟨hafter, hnear⟩ := hfollows t hlast
    have hle : top ≤ now / o.windowNs := Nat.le_trans htop (Nat.div_le_div_right hafter)
    have hspec := charge_owns (o := o) howns now
    rw [htallies.takeOne hle (by omega)] at hspec
    by_cases hroom : weight o w.admitted now < o.perWindow
    · rw [if_neg (Nat.not_le.mpr hroom)] at hspec
      obtain ⟨hphase, hbucket⟩ := hspec
      have hturn : w.turn o fp (.charge now) = ⟨w.bucket.set own
          ⟨w.admitted.count (now / o.windowNs) + 1, countBefore w.admitted (now / o.windowNs),
            now / o.windowNs % 2 ^ 16, slot.fp⟩, now / o.windowNs :: w.admitted⟩ := by
        simp only [History.turn, hbucket, hlets hphase, if_true]
      have hlt := (List.getElem?_eq_some_iff.mp howns.way).1
      refine ⟨?_, ?_⟩
      · rw [hphase, slide, if_pos hroom]
      rw [hturn]
      refine ⟨fun hset => h.bucket (by simpa using congrArg List.length hset),
        h.held.next hroom, .inr ?_, ?_⟩
      · refine ⟨own, _, now / o.windowNs, now, ⟨List.getElem?_set_self hlt, howns.mine, ?_⟩,
          htallies.next hle, rfl, Nat.le_refl _, Nat.le_succ _⟩
        intro i hi s hs
        rw [List.getElem?_set_ne (Nat.ne_of_gt hi)] at hs
        exact howns.first i hi s hs
      · intro s hs hmine
        rcases List.mem_or_eq_of_mem_set hs with hs | rfl
        · exact h.fits s hs hmine
        · refine ⟨?_, h.held.before _⟩
          exact Nat.lt_of_le_of_lt (Nat.le_add_left _ _) hroom
    · rw [if_pos (Nat.not_lt.mp hroom)] at hspec
      obtain ⟨hphase, hbucket⟩ := hspec
      have hturn : w.turn o fp (.charge now) = w := by
        simp only [History.turn, hbucket, hlets hphase, Bool.false_eq_true, if_false]
      refine ⟨?_, ?_⟩
      · rw [hphase, slide, if_neg hroom]
      rw [hturn]
      refine ⟨h.bucket, h.held, .inr ⟨own, slot, top, now, howns, htallies, rfl, hle, ?_⟩, h.fits⟩
      -- Two windows on nothing counts any more, and nothing is refused.
      by_contra hfar
      refine hroom ?_
      have hcur := htallies.count_eq_zero (v := now / o.windowNs) (by omega)
      have hprev : countBefore w.admitted (now / o.windowNs) = 0 := by
        rw [countBefore, if_neg (by omega)]
        exact htallies.count_eq_zero (by omega)
      rw [weight, hcur, hprev, Nat.zero_mul, Nat.zero_div]
      exact hpos

/-- Another address leaves the client's slot alone. -/
theorem Kept.other (h : Kept o fp w last) (i : Nat) (s : Slot) :
    Kept o fp (w.turn o fp (.other i s)) last := by
  simp only [History.turn]
  split_ifs with hother
  · obtain ⟨hs, hway⟩ := hother
    refine ⟨fun hset => h.bucket (by simpa using congrArg List.length hset), h.held, ?_, ?_⟩
    · rcases h.slot with ⟨hnil, hnone⟩ | ⟨own, slot, top, t, howns, htallies, hlast⟩
      · refine .inl ⟨hnil, fun s' hs' => ?_⟩
        rcases List.mem_or_eq_of_mem_set hs' with hs' | rfl
        · exact hnone s' hs'
        · exact hs
      · refine .inr ⟨own, slot, top, t, ⟨?_, howns.mine, ?_⟩, htallies, hlast⟩
        · have hne : i ≠ own := by
            rintro rfl
            rw [howns.way] at hway
            exact of_decide_eq_true hway howns.mine
          rw [List.getElem?_set_ne hne]
          exact howns.way
        · intro j hj s' hs'
          rw [List.getElem?_set] at hs'
          split_ifs at hs'
          · cases hs'
            exact hs
          · exact howns.first j hj s' hs'
    · intro s' hs' hmine
      rcases List.mem_or_eq_of_mem_set hs' with hs' | rfl
      · exact h.fits s' hs' hmine
      · exact absurd hmine hs
  · exact h

/-- The time of the last charge of a run. -/
def lastOf (last : Option Nat) (turns : List Turn) : Option Nat :=
  turns.foldl (fun last turn => match turn with | .charge now => some now | .other _ _ => last) last

theorem follows_of_all (h : (last.all fun t =>
    t ≤ now && now / o.windowNs < t / o.windowNs + 65535) = true) : Follows o last now := by
  intro t ht
  rw [Option.mem_def.mp ht, Option.all_some, Bool.and_eq_true, decide_eq_true_eq,
    decide_eq_true_eq] at h
  exact h

theorem Kept.run (hpos : 0 < o.perWindow) {turns : List Turn} (h : Kept o fp w last)
    (hspaced : spaced o last (turns ++ [.charge now]) = true) :
    Kept o fp (w.run o fp turns) (lastOf last turns) ∧ Follows o (lastOf last turns) now := by
  induction turns generalizing w last with
  | nil => exact ⟨h, follows_of_all (Bool.and_eq_true_iff.mp hspaced).1⟩
  | cons turn turns ih =>
    cases turn with
    | other i s => exact ih (h.other i s) hspaced
    | charge t =>
      obtain ⟨hfirst, hrest⟩ := Bool.and_eq_true_iff.mp hspaced
      exact ih (h.charge hpos (follows_of_all hfirst)).2 hrest

/-! ## Every run -/

/-- After any charges of a client that is new to its bucket, at times that do not go back and less
than `2 ^ 16 - 1` windows apart, a charge comes to what the sliding window says of the requests let
through so far; and the counts of its slot are within the allowance, and fit their bits. -/
theorem run_sliding {declared : Late} {most : Nat} (haccepted : Accepted o declared most)
    {bucket : List Slot} (hbucket : bucket ≠ []) (hnew : ∀ s ∈ bucket, s.fp ≠ fp)
    (turns : List Turn) (now : Nat)
    (hspaced : spaced o none (turns ++ [.charge now]) = true) :
    (charge o fp ((History.mk bucket []).run o fp turns).bucket now).1.phase =
        .done (slide o ((History.mk bucket []).run o fp turns).admitted now) ∧
      ∀ s ∈ (charge o fp ((History.mk bucket []).run o fp turns).bucket now).2, s.fp = fp →
        (s.cur ≤ o.perWindow ∧ s.prev ≤ o.perWindow) ∧
          s.cur < 2 ^ countBits declared most ∧ s.prev < 2 ^ countBits declared most := by
  have hbegin : Kept o fp (History.mk bucket []) none :=
    ⟨hbucket, fun v => Nat.zero_le _, .inl ⟨rfl, hnew⟩, fun s hs hmine => absurd hmine (hnew s hs)⟩
  obtain ⟨hkept, hfollows⟩ := hbegin.run haccepted.perWindow hspaced
  obtain ⟨hphase, hnext⟩ := hkept.charge haccepted.perWindow hfollows
  refine ⟨hphase, fun s hs hmine => ?_⟩
  obtain ⟨hcur, hprev⟩ := hnext.fits s hs hmine
  exact ⟨⟨hcur, hprev⟩, haccepted.lt_countBits hcur, haccepted.lt_countBits hprev⟩

/-- Three a minute: three in the first window, one refused as the next begins, one let through in
the middle of it. -/
theorem run_sliding_three :
    (charge ⟨3, 60⟩ 7 ((History.mk (List.replicate 4 ⟨0, 0, 0, 0⟩) []).run ⟨3, 60⟩ 7
      [.charge 300, .charge 301, .charge 302, .charge 360]).bucket 390).1.phase =
        .done (slide ⟨3, 60⟩ ((History.mk (List.replicate 4 ⟨0, 0, 0, 0⟩) []).run ⟨3, 60⟩ 7
          [.charge 300, .charge 301, .charge 302, .charge 360]).admitted 390) :=
  have haccepted : Accepted ⟨3, 60⟩ (.value 3) 10 :=
    ⟨by decide, by decide, by decide, fun v hv => by cases hv; rfl⟩
  (run_sliding haccepted (by decide) (by decide) _ _ (by decide)).1

end Nilo.Allowance
