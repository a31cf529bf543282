import Nilo.Job.Segments

/-!
# The stretches of a zone (`job/tz.zig`)

The table of a zone answers up to its last transition, and the footer from there on. `Partitions` says
what the stretches are for: every instant is in its own, which has the offset of the latest
transition, is the same for every instant within it, and meets the stretches next to it. A zone's
stretches do so exactly where the footer's switches are near enough to the years they are dated in
(`partitions_iff`).
-/

namespace Nilo.Tz

open Lib.Calendar (yearStart monthStart monthLength yearLength_pos yearStart_succ)

variable {z : Zone} {t u : Int} {i : Nat}

/-- What a zone that was read is: a table in order, and a footer in its ranges that agrees with the
last transition. -/
structure Zone.Parsed (z : Zone) : Prop where
  ascending : z.instants.Pairwise (· ≤ ·)
  kinds : z.kind.length = z.instants.length
  inRange : ∀ rule d, z.rule = some rule → rule.dst = some d → rule.InRange d
  /-- `FooterDisagrees`. -/
  agrees : ∀ rule last, z.rule = some rule → z.instants.getLast? = some last →
    (match rule.dst with
      | some d => (rule.segmentAt d last).off
      | none => rule.stdOff) = (z.typeOf (z.kind.getD (z.instants.length - 1) 0)).utoff

/-- A switch counts from the last explicit transition on. -/
def Zone.Counts (z : Zone) (rule : Rule) (d : Dst) (s : Switch) : Prop :=
  ∀ a ∈ z.instants, a < rule.instant d s

/-- The offset of the latest transition at or before an instant. -/
inductive Zone.LatestOffset (z : Zone) (t : Int) : Int → Prop
  | switch {rule : Rule} {d : Dst} {s : Switch} (hrule : z.rule = some rule)
      (hdst : rule.dst = some d) (hcounts : z.Counts rule d s) (hlatest : rule.Latest d t s) :
      LatestOffset z t (rule.offOf d s.toDst)
  | entry {i : Nat} (hi : i < z.instants.length) (hle : z.instants.getD i 0 ≤ t)
      (hlast : ∀ j, i < j → j < z.instants.length → t < z.instants.getD j 0)
      (hnone : ∀ rule d s, z.rule = some rule → rule.dst = some d → z.Counts rule d s →
        t < rule.instant d s) :
      LatestOffset z t (z.typeOf (z.kind.getD i 0)).utoff

/-- The stretches partition time. -/
structure Zone.Partitions (z : Zone) : Prop where
  contains : ∀ t : Int, (z.segmentAt t).start ≤ t ∧ t < (z.segmentAt t).finish
  latest : ∀ t off, z.LatestOffset t off → (z.segmentAt t).off = off
  same : ∀ t u : Int, (z.segmentAt t).start ≤ u → u < (z.segmentAt t).finish →
    z.segmentAt u = z.segmentAt t
  next : ∀ t e : Int, (z.segmentAt t).finish = e → (z.segmentAt e).start = e
  previous : ∀ t b : Int, (z.segmentAt t).start = b → (z.segmentAt (b - 1)).finish = b

/-- Where the footer switches at all, its switches are near the years they are dated in. -/
def Zone.Near (z : Zone) : Prop :=
  ∀ rule d, z.rule = some rule → rule.dst = some d → rule.Near d

/-! ## The table -/

theorem Zone.Parsed.getD_le (h : z.Parsed) {j : Nat} (hij : i ≤ j) (hj : j < z.instants.length) :
    z.instants.getD i 0 ≤ z.instants.getD j 0 := by
  rcases Nat.lt_or_eq_of_le hij with hlt | rfl
  · have hle := List.pairwise_iff_getElem.mp h.ascending i j (by omega) hj hlt
    rw [List.getD_eq_getElem?_getD, List.getD_eq_getElem?_getD, List.getElem?_eq_getElem hj,
      List.getElem?_eq_getElem (by omega)]
    exact hle
  · exact Int.le_refl _

/-- The halving ends at the last transition at or before the instant. -/
theorem Zone.Parsed.lastFrom_spec (h : z.Parsed) {lo hi : Nat} (hlt : lo < hi)
    (hhi : hi ≤ z.instants.length) (hlo : z.instants.getD lo 0 ≤ t)
    (hpast : ∀ j, hi ≤ j → j < z.instants.length → t < z.instants.getD j 0) :
    z.lastFrom t lo hi < z.instants.length ∧ z.instants.getD (z.lastFrom t lo hi) 0 ≤ t ∧
      ∀ j, z.lastFrom t lo hi < j → j < z.instants.length → t < z.instants.getD j 0 := by
  fun_induction Zone.lastFrom z t lo hi with
  | case1 lo hi hwide mid hreached ih =>
    exact ih (by omega) hhi hreached hpast
  | case2 lo hi hwide mid hcoming ih =>
    refine ih (by omega) (by omega) hlo fun j hj hj' => ?_
    have hle := h.getD_le hj hj'
    omega
  | case3 lo hi hnarrow =>
    exact ⟨by omega, hlo, fun j hj hj' => hpast j (by omega) hj'⟩

/-- Where the footer takes over: at the last transition, or from the beginning. -/
def Zone.floor (z : Zone) : WithBot Int :=
  if z.instants.length = 0 then ⊥ else (z.instants.getD (z.instants.length - 1) 0 : Int)

/-- Which part of a zone answers for an instant. -/
inductive Zone.Place (z : Zone) (t : Int) : Prop
  | early (hne : 0 < z.instants.length) (hlt : t < z.instants.getD 0 0)
      (heq : z.segmentAt t = ⟨⊥, (z.instants.getD 0 0 : Int), (z.typeOf z.firstReal).utoff,
        (z.typeOf z.firstReal).dst⟩)
  | table (i : Nat) (hi : i + 1 < z.instants.length) (hle : z.instants.getD i 0 ≤ t)
      (hlt : t < z.instants.getD (i + 1) 0)
      (heq : z.segmentAt t = ⟨(z.instants.getD i 0 : Int), (z.instants.getD (i + 1) 0 : Int),
        (z.typeOf (z.kind.getD i 0)).utoff, (z.typeOf (z.kind.getD i 0)).dst⟩)
  | footer (hfloor : z.floor ≤ t) (heq : z.segmentAt t = z.tail t z.floor)

theorem Zone.Parsed.place (h : z.Parsed) (t : Int) : z.Place t := by
  by_cases hempty : z.instants.length = 0
  · have hfloor : z.floor = ⊥ := if_pos hempty
    refine .footer (by rw [hfloor]; exact bot_le) ?_
    rw [hfloor, Zone.segmentAt]
    exact if_pos hempty
  · have hpos : 0 < z.instants.length := Nat.pos_of_ne_zero hempty
    rcases Int.lt_or_le t (z.instants.getD 0 0) with hlt | hle
    · refine .early hpos hlt ?_
      rw [Zone.segmentAt]
      exact (if_neg hempty).trans (if_pos hlt)
    · obtain ⟨hlo, hreached, hcoming⟩ := h.lastFrom_spec hpos (Nat.le_refl _) hle
        fun j hj hj' => absurd hj' (Nat.not_lt.mpr hj)
      have heq : z.segmentAt t = if z.lastFrom t 0 z.instants.length + 1 < z.instants.length then
          ⟨(z.instants.getD (z.lastFrom t 0 z.instants.length) 0 : Int),
            (z.instants.getD (z.lastFrom t 0 z.instants.length + 1) 0 : Int),
            (z.typeOf (z.kind.getD (z.lastFrom t 0 z.instants.length) 0)).utoff,
            (z.typeOf (z.kind.getD (z.lastFrom t 0 z.instants.length) 0)).dst⟩
          else z.tail t (z.instants.getD (z.lastFrom t 0 z.instants.length) 0 : Int) := by
        rw [Zone.segmentAt]
        exact (if_neg hempty).trans (if_neg (Int.not_lt.mpr hle))
      generalize z.lastFrom t 0 z.instants.length = lo at *
      by_cases hnext : lo + 1 < z.instants.length
      · exact .table lo hnext hreached (hcoming (lo + 1) (by omega) hnext) (heq.trans (if_pos hnext))
      · obtain rfl : lo = z.instants.length - 1 := by omega
        have hfloor : z.floor = (z.instants.getD (z.instants.length - 1) 0 : Int) := if_neg hempty
        refine .footer ?_ ?_
        · rw [hfloor]
          exact WithBot.coe_le_coe.mpr hreached
        · rw [hfloor]
          exact heq.trans (if_neg hnext)

theorem Zone.Parsed.le_floor (h : z.Parsed) (hi : i < z.instants.length) :
    (z.instants.getD i 0 : Int) ≤ z.floor := by
  rw [Zone.floor, if_neg (by omega)]
  exact WithBot.coe_le_coe.mpr (h.getD_le (by omega) (by omega))

/-- From the last transition on the footer answers. -/
theorem Zone.Parsed.segmentAt_footer (h : z.Parsed) (hfloor : z.floor ≤ (t : Int)) :
    z.segmentAt t = z.tail t z.floor := by
  cases h.place t with
  | early hne hlt =>
    have hle := WithBot.coe_le_coe.mp ((h.le_floor hne).trans hfloor)
    omega
  | table i hi hle hlt =>
    have hle' := WithBot.coe_le_coe.mp ((h.le_floor hi).trans hfloor)
    omega
  | footer _ heq => exact heq

/-! ## The footer -/

theorem Zone.floor_le_tail (z : Zone) (t : Int) : z.floor ≤ (z.tail t z.floor).start := by
  rw [Zone.tail]
  split
  · split
    · exact le_max_right _ _
    · exact le_rfl
  · exact le_rfl

theorem Zone.tail_contains (z : Zone) (hfloor : z.floor ≤ (t : Int)) :
    (z.tail t z.floor).start ≤ (t : Int) ∧ (t : Int) < (z.tail t z.floor).finish := by
  rw [Zone.tail]
  split
  · split
    · exact ⟨max_le (Rule.start_le _ _ t) hfloor, Rule.lt_finish _ _ t⟩
    · exact ⟨hfloor, WithTop.coe_lt_top t⟩
  · exact ⟨hfloor, WithTop.coe_lt_top t⟩

theorem Zone.Parsed.tail_same (h : z.Parsed) (hnear : z.Near)
    (hstart : (z.tail t z.floor).start ≤ (u : Int))
    (hfinish : (u : Int) < (z.tail t z.floor).finish) : z.tail u z.floor = z.tail t z.floor := by
  simp only [Zone.tail] at hstart hfinish ⊢
  cases hrule : z.rule with
  | none => rfl
  | some rule =>
    simp only [hrule] at hstart hfinish ⊢
    cases hdst : rule.dst with
    | none => rfl
    | some d =>
      simp only [hdst] at hstart hfinish ⊢
      have hsame := Rule.segmentAt_same (h.inRange rule d hrule hdst) (hnear rule d hrule hdst)
        ((le_max_left _ _).trans hstart) hfinish
      rw [hsame]

/-! ## Near enough, the stretches partition time -/

theorem Zone.Parsed.contains (h : z.Parsed) (t : Int) :
    (z.segmentAt t).start ≤ (t : Int) ∧ (t : Int) < (z.segmentAt t).finish := by
  cases h.place t with
  | early hne hlt heq =>
    rw [heq]
    exact ⟨bot_le, WithTop.coe_lt_coe.mpr hlt⟩
  | table i hi hle hlt heq =>
    rw [heq]
    exact ⟨WithBot.coe_le_coe.mpr hle, WithTop.coe_lt_coe.mpr hlt⟩
  | footer hfloor heq =>
    rw [heq]
    exact z.tail_contains hfloor

theorem Zone.Parsed.same (h : z.Parsed) (hnear : z.Near)
    (hstart : (z.segmentAt t).start ≤ (u : Int)) (hfinish : (u : Int) < (z.segmentAt t).finish) :
    z.segmentAt u = z.segmentAt t := by
  cases h.place t with
  | early hne hlt heq =>
    rw [heq] at hfinish ⊢
    have hlt' := WithTop.coe_lt_coe.mp hfinish
    cases h.place u with
    | early _ _ heq' => exact heq'
    | table i hi hle =>
      have hfirst := h.getD_le (Nat.zero_le i) (Nat.lt_of_succ_lt hi)
      omega
    | footer hfloor =>
      have hle := WithBot.coe_le_coe.mp ((h.le_floor hne).trans hfloor)
      omega
  | table i hi hle hlt heq =>
    rw [heq] at hstart hfinish ⊢
    have hle' := WithBot.coe_le_coe.mp hstart
    have hlt' := WithTop.coe_lt_coe.mp hfinish
    cases h.place u with
    | early _ hbefore =>
      have hfirst := h.getD_le (Nat.zero_le i) (Nat.lt_of_succ_lt hi)
      omega
    | table j hj hlej hltj heq' =>
      obtain rfl : i = j := by
        rcases Nat.lt_trichotomy i j with hij | hij | hij
        · have hbetween := h.getD_le (show i + 1 ≤ j by omega) (by omega)
          omega
        · exact hij
        · have hbetween := h.getD_le (show j + 1 ≤ i by omega) (by omega)
          omega
      exact heq'
    | footer hfloor =>
      have hpast := WithBot.coe_le_coe.mp ((h.le_floor hi).trans hfloor)
      omega
  | footer hfloor heq =>
    rw [heq] at hstart hfinish ⊢
    rw [h.segmentAt_footer ((z.floor_le_tail t).trans hstart)]
    exact h.tail_same hnear hstart hfinish

/-- What the footer says at an instant, when it does not switch between the last transition and it. -/
theorem Zone.Parsed.tail_off (h : z.Parsed) (hnear : z.Near) (hpos : 0 < z.instants.length)
    (hreached : z.instants.getD (z.instants.length - 1) 0 ≤ t)
    (hnone : ∀ rule d s, z.rule = some rule → rule.dst = some d → z.Counts rule d s →
      t < rule.instant d s) :
    (z.tail t z.floor).off = (z.typeOf (z.kind.getD (z.instants.length - 1) 0)).utoff := by
  have hlast : z.instants.getLast? = some (z.instants.getD (z.instants.length - 1) 0) := by
    rw [List.getLast?_eq_getElem?, List.getD_eq_getElem?_getD,
      List.getElem?_eq_getElem (by omega), Option.getD_some]
  have hall : ∀ a ∈ z.instants, a ≤ z.instants.getD (z.instants.length - 1) 0 := by
    intro a ha
    obtain ⟨i, hi, rfl⟩ := List.getElem_of_mem ha
    have hle := h.getD_le (show i ≤ z.instants.length - 1 by omega) (by omega)
    rwa [List.getD_eq_getElem?_getD, List.getElem?_eq_getElem hi, Option.getD_some] at hle
  generalize z.instants.getD (z.instants.length - 1) 0 = last at *
  cases hrule : z.rule with
  | none =>
    simp only [Zone.tail, hrule]
    have hkind : z.kind.getLast?.getD z.before = z.kind.getD (z.instants.length - 1) 0 := by
      rw [List.getLast?_eq_getElem?, List.getD_eq_getElem?_getD, h.kinds,
        List.getElem?_eq_getElem (by have := h.kinds; omega), Option.getD_some, Option.getD_some]
    rw [hkind]
  | some rule =>
    have hagrees := h.agrees rule last hrule hlast
    cases hdst : rule.dst with
    | none =>
      rw [hdst] at hagrees
      simp only [Zone.tail, hrule, hdst]
      exact hagrees
    | some d =>
      rw [hdst] at hagrees
      dsimp only at hagrees
      simp only [Zone.tail, hrule, hdst]
      rw [← hagrees]
      -- The switch that holds at `t` took place before the footer took over.
      obtain ⟨s, n, haround, hseg⟩ :=
        Rule.segmentAt_around (h.inRange rule d hrule hdst) (hnear rule d hrule hdst) t
      have hbefore : rule.instant d s ≤ last := by
        refine Int.not_lt.mp fun hpast => ?_
        have hcoming := hnone rule d s hrule hdst fun a ha => Int.lt_of_le_of_lt (hall a ha) hpast
        have hle := haround.latest.reached
        omega
      have hsame := Rule.segmentAt_same (u := last) (h.inRange rule d hrule hdst)
        (hnear rule d hrule hdst) (t := t)
        (by rw [hseg]; exact WithBot.coe_le_coe.mpr hbefore)
        (lt_of_le_of_lt (WithTop.coe_le_coe.mpr hreached) (Rule.lt_finish rule d t))
      rw [hsame]

theorem Zone.Parsed.latest (h : z.Parsed) (hnear : z.Near) {off : Int}
    (hlatest : z.LatestOffset t off) : (z.segmentAt t).off = off := by
  cases h.place t with
  | early hne hlt =>
    cases hlatest with
    | switch _ _ hcounts hlatest =>
      have hmem : z.instants.getD 0 0 ∈ z.instants := by
        rw [List.getD_eq_getElem?_getD, List.getElem?_eq_getElem hne, Option.getD_some]
        exact List.getElem_mem hne
      have hafter := hcounts _ hmem
      have hle := hlatest.reached
      omega
    | entry hi hle =>
      have hfirst := h.getD_le (Nat.zero_le _) hi
      omega
  | table i hi hle hlt heq =>
    cases hlatest with
    | switch _ _ hcounts hlatest =>
      have hmem : z.instants.getD (i + 1) 0 ∈ z.instants := by
        rw [List.getD_eq_getElem?_getD, List.getElem?_eq_getElem hi, Option.getD_some]
        exact List.getElem_mem hi
      have hafter := hcounts _ hmem
      have hle' := hlatest.reached
      omega
    | @entry j hj hlej hlast =>
      obtain rfl : i = j := by
        rcases Nat.lt_trichotomy i j with hij | hij | hij
        · have hbetween := h.getD_le (show i + 1 ≤ j by omega) hj
          omega
        · exact hij
        · have hcoming := hlast i hij (by omega)
          omega
      rw [heq]
  | footer hfloor heq =>
    rw [heq]
    cases hlatest with
    | @switch rule d s hrule hdst hcounts hlatest =>
      obtain ⟨s', n, haround, hseg⟩ :=
        Rule.segmentAt_around (h.inRange rule d hrule hdst) (hnear rule d hrule hdst) t
      obtain rfl := hlatest.unique haround.latest
      simp only [Zone.tail, hrule, hdst, hseg]
      rfl
    | @entry j hj hlej hlast hnone =>
      obtain rfl : j = z.instants.length - 1 := by
        rcases Nat.lt_or_ge j (z.instants.length - 1) with hlt | hge
        · have hcoming := hlast _ hlt (by omega)
          have hpast := WithBot.coe_le_coe.mp ((h.le_floor (i := z.instants.length - 1)
            (by omega)).trans hfloor)
          omega
        · omega
      exact h.tail_off hnear (by omega) hlej hnone

theorem le_pred_of_lt {b : WithBot Int} {e : Int} (h : b < (e : Int)) : b ≤ (e - 1 : Int) := by
  cases b with
  | bot => exact bot_le
  | coe b =>
    have hlt := WithBot.coe_lt_coe.mp h
    exact WithBot.coe_le_coe.mpr (by omega)

theorem le_of_pred_lt {b : WithTop Int} {e : Int} (h : (e - 1 : Int) < b) : (e : Int) ≤ b := by
  cases b with
  | top => exact le_top
  | coe b =>
    have hlt := WithTop.coe_lt_coe.mp h
    exact WithTop.coe_le_coe.mpr (by omega)

/-- Where every instant is in its stretch and a stretch is the same from within, a stretch starts
where the one before it ends. -/
theorem meets_of_same {f : Int → Segment}
    (hcontains : ∀ t : Int, (f t).start ≤ t ∧ t < (f t).finish)
    (hsame : ∀ t u : Int, (f t).start ≤ u → u < (f t).finish → f u = f t) (t e : Int) :
    ((f t).finish = e → (f e).start = e) ∧ ((f t).start = e → (f (e - 1)).finish = e) := by
  have hpred : ((e - 1 : Int) : WithTop Int) < e := WithTop.coe_lt_coe.mpr (by omega)
  have hpred' : ((e - 1 : Int) : WithBot Int) ≤ e := WithBot.coe_le_coe.mpr (by omega)
  obtain ⟨hstart_t, hfinish_t⟩ := hcontains t
  refine ⟨fun hfinish => ?_, fun hstart => ?_⟩
  · obtain ⟨hstart_e, hfinish_e⟩ := hcontains e
    refine le_antisymm hstart_e (not_lt.mp fun hlt => ?_)
    -- Otherwise the second in front of `e` would be in both.
    have hin_e := hsame e (e - 1) (le_pred_of_lt hlt) (hpred.trans hfinish_e)
    have hin_t := hsame t (e - 1)
      (hstart_t.trans (WithBot.coe_le_coe.mpr (by
        rw [hfinish] at hfinish_t
        have := WithTop.coe_lt_coe.mp hfinish_t
        omega)))
      (hfinish ▸ hpred)
    rw [← hin_e, hin_t, hfinish] at hfinish_e
    exact lt_irrefl _ hfinish_e
  · obtain ⟨hstart_e, hfinish_e⟩ := hcontains (e - 1)
    refine le_antisymm (not_lt.mp fun hlt => ?_) (le_of_pred_lt hfinish_e)
    -- Otherwise `e` would be in both.
    have hin_e := hsame (e - 1) e (hstart_e.trans hpred') hlt
    have hin_t := hsame t e hstart.le
      (lt_of_le_of_lt (WithTop.coe_le_coe.mpr (WithBot.coe_le_coe.mp (hstart ▸ hstart_t))) hfinish_t)
    rw [← hin_e, hin_t, hstart] at hstart_e
    have := WithBot.coe_le_coe.mp hstart_e
    omega

/-! ## Otherwise they do not -/

theorem Zone.segmentAt_switch (h : z.Parsed) {rule : Rule} {d : Dst} (hrule : z.rule = some rule)
    (hdst : rule.dst = some d) (hfloor : z.floor ≤ (t : Int)) :
    (z.segmentAt t).start = max (rule.segmentAt d t).start z.floor ∧
      (z.segmentAt t).finish = (rule.segmentAt d t).finish := by
  rw [h.segmentAt_footer hfloor]
  simp only [Zone.tail, hrule, hdst, and_self]

/-- A stretch does not go on across a switch. -/
theorem Zone.Partitions.not_across (hp : z.Partitions) (h : z.Parsed) {rule : Rule} {d : Dst}
    (hrule : z.rule = some rule) (hdst : rule.dst = some d) {s : Switch}
    (hfloor : z.floor ≤ (t : Int)) (hbefore : z.floor < (rule.instant d s : Int))
    (hstart : (rule.segmentAt d t).start < (rule.instant d s : Int)) :
    ¬ (rule.instant d s : Int) < (rule.segmentAt d t).finish := by
  intro hfinish
  obtain ⟨hstart_t, hfinish_t⟩ := Zone.segmentAt_switch h hrule hdst hfloor
  obtain ⟨hstart_s, -⟩ := Zone.segmentAt_switch h hrule hdst hbefore.le
  have hlt : (z.segmentAt t).start < (rule.instant d s : Int) := by
    rw [hstart_t]
    exact max_lt hstart hbefore
  have hsame := hp.same t (rule.instant d s) hlt.le (hfinish_t ▸ hfinish)
  rw [← hsame, hstart_s, Rule.start_instant (h.inRange rule d hrule hdst), max_eq_left hbefore.le] at hlt
  exact lt_irrefl _ hlt

/-- Far enough on every instant is behind the last transition. -/
theorem Zone.exists_floor_lt (z : Zone) : ∃ Y : Int, ∀ t, startOf Y ≤ t → z.floor < (t : Int) := by
  cases hfloor : z.floor with
  | bot => exact ⟨0, fun t _ => WithBot.bot_lt_coe t⟩
  | coe last =>
    refine ⟨yearOf last + 1, fun t ht => WithBot.coe_lt_coe.mpr ?_⟩
    have hyear := startOf_yearOf last
    omega

theorem Zone.Partitions.near (hp : z.Partitions) (h : z.Parsed) : z.Near := by
  intro rule d hrule hdst
  have hin := h.inRange rule d hrule hdst
  obtain ⟨Y, hY⟩ := z.exists_floor_lt
  have hspread : ∀ {y w : Int}, y < w → startOf y + 365 * 86400 ≤ startOf w := startOf_lt
  -- The dates come round, so years behind the table are enough.
  refine fun y => ⟨Rule.of_eventually (fun _ => Rule.PastNear.of_later hin) (Y := Y + 3) ?_ y,
    Rule.of_eventually (fun _ => Rule.ComingNear.of_later hin) (Y := Y + 3) ?_ y⟩
  · intro y hy
    by_contra hno
    obtain ⟨side, hover, hstart⟩ := Rule.missed_past hin hno
    have hnear := (Rule.instant_near hin ⟨y - 2, side⟩).1
    have hlater := hspread (show Y < y - 2 by omega)
    have hfar := hspread (show Y < y by omega)
    dsimp only at hnear
    refine hp.not_across h hrule hdst (hY (startOf y) (by omega)).le (hY _ (by omega)) hstart ?_
    exact (WithTop.coe_lt_coe.mpr hover).trans (Rule.lt_finish rule d (startOf y))
  · intro y hy
    by_contra hno
    obtain ⟨side, hahead, hfinish⟩ := Rule.missed_coming hin hno
    have hfar := hspread (show Y < y + 1 by omega)
    refine hp.not_across h hrule hdst (hY (startOf (y + 1) - 1) (by omega)).le (hY _ (by omega)) ?_
      hfinish
    exact lt_of_le_of_lt (Rule.start_le rule d _) (WithBot.coe_lt_coe.mpr (by omega))

/-- For every zone that was read: its stretches partition time exactly where, in every year, the
switches on either side of the year are dated next to it. -/
theorem partitions_iff (z : Zone) (h : z.Parsed) : z.Partitions ↔ z.Near := by
  refine ⟨fun hp => hp.near h, fun hnear => ?_⟩
  have hsame : ∀ t u : Int, (z.segmentAt t).start ≤ u → u < (z.segmentAt t).finish →
      z.segmentAt u = z.segmentAt t := fun t u => h.same hnear
  exact ⟨h.contains, fun t off => h.latest hnear, hsame,
    fun t e => (meets_of_same h.contains hsame t e).1,
    fun t b => (meets_of_same h.contains hsame t b).2⟩

/-- Berlin: the table up to October 2025, and the footer `CET-1CEST,M3.5.0,M10.5.0/3`. -/
def berlin : Zone where
  instants := [1743296400, 1761440400]
  kind := [1, 0]
  types := [⟨3600, false, false⟩, ⟨7200, true, false⟩]
  before := 0
  rule := some ⟨3600, some ⟨7200, ⟨.month 3 5 0, 7200⟩, ⟨.month 10 5 0, 10800⟩⟩⟩

/-- The switch of October is always well within its year. -/
theorem near_berlin : berlin.Near := by
  intro rule d hrule hdst
  cases hrule
  cases hdst
  have hoctober : ∀ y, yearStart y + 273 ≤ (Date.month 10 5 0).epochDay y ∧
      (Date.month 10 5 0).epochDay y ≤ yearStart y + 304 := by
    intro y
    have hday := epochDay_month (m := 10) (w := 5) (d := 0) (by decide) y
    have hmonth : ∀ leap, 273 ≤ monthStart leap (10 : Nat) ∧
        monthStart leap (10 : Nat) + monthLength leap (10 : Nat) ≤ 305 := by decide
    have hleap := hmonth (Lib.Calendar.isLeap y)
    omega
  have hmarch : ∀ y, yearStart y ≤ (Date.month 3 5 0).epochDay y ∧
      (Date.month 3 5 0).epochDay y ≤ yearStart y + 365 := Date.epochDay_year (by decide)
  have hnext : ∀ y, yearStart y + 365 ≤ yearStart (y + 1) := by
    intro y
    have hlen := yearLength_pos y
    rw [yearStart_succ]
    omega
  refine Rule.near_of_within ⟨by decide, by decide, by decide, by decide, by decide, by decide⟩
    false (fun y => ?_) fun y => ?_
  · have hin := hoctober y
    have hyear := hnext y
    simp only [Rule.instant, startOf, Bool.false_eq_true, if_false]
    omega
  · have hin := hoctober y
    have hbefore := hmarch (y - 1)
    have hafter := hmarch (y + 1)
    have hyear := hnext y
    have hlast := hnext (y - 1)
    rw [Int.sub_add_cancel] at hlast
    simp only [Rule.instant, Bool.false_eq_true, if_false, Bool.not_false, if_true]
    omega

/-- The stretches of Berlin partition time. -/
theorem partitions_iff_berlin : berlin.Partitions :=
  (partitions_iff berlin
    ⟨by decide, rfl, fun rule d hrule hdst => by
      cases hrule
      cases hdst
      exact ⟨by decide, by decide, by decide, by decide, by decide, by decide⟩,
      fun rule last hrule hlast => by
        cases hrule
        cases hlast
        decide⟩).mpr near_berlin

/-- The footer `AAA0BBB,J365/160,J365/167`: both switches of a year fall in the first week of the
next one. -/
def newYear : Zone where
  instants := []
  kind := []
  types := [⟨0, false, false⟩]
  before := 0
  rule := some ⟨0, some ⟨3600, ⟨.julian1 365, 160 * 3600⟩, ⟨.julian1 365, 167 * 3600⟩⟩⟩

/-- At the first second of 2030 the stretch starts at the beginning of time, with the switches of the
years before in it. -/
theorem partitions_newYear : newYear.Parsed ∧ ¬ newYear.Partitions := by
  refine ⟨⟨by decide, rfl, fun rule d hrule hdst => ?_, fun rule last hrule hlast => ?_⟩, fun hp => ?_⟩
  · cases hrule
    cases hdst
    exact ⟨by decide, by decide, by decide, by decide, by decide, by decide⟩
  · cases hlast
  · have hseg : newYear.segmentAt 1893456000 = ⟨⊥, ((1893945600 : Int) : WithTop Int), 0, false⟩ := by
      decide
    have hsame := hp.same 1893456000 1800000000
    rw [hseg] at hsame
    have hbefore := hsame bot_le (WithTop.coe_lt_coe.mpr (by decide))
    revert hbefore
    decide

end Nilo.Tz
