import Mathlib.Order.ConditionallyCompleteLattice.Basic
import Mathlib.Data.Int.ConditionallyCompleteOrder
import Nilo.Job.Switches

/-!
# The stretch of a rule around an instant (`job/tz.zig`)

`Rule.segmentAt` looks at the switches dated in three years. `Around` says which two switches of all
years an instant is between, and such a stretch is the same for every instant within it. Where the
switches of the three years are near enough (`Near`), they are the two that `segmentAt` finds
(`segmentAt_around`); where they are not, it steps over a switch (`near_of_segments`).
-/

namespace Nilo.Tz

open Lib.Insertion (Before)
open Lib.Calendar (yearStart yearLength yearStart_succ cycle yearStart_add_400 yearStart_lt
  yearLength_pos)

/-- The year that an instant is in. -/
def yearOf (t : Int) : Int := (civilFromDays (t / 86400)).year

theorem startOf_yearOf (t : Int) : startOf (yearOf t) ≤ t ∧ t < startOf (yearOf t + 1) := by
  have hyear := civilFromDays_year (t / 86400)
  rw [yearOf, startOf, startOf, yearStart_succ]
  omega

theorem yearOf_eq {t y : Int} (hstart : startOf y ≤ t) (hend : t < startOf (y + 1)) :
    yearOf t = y := by
  obtain ⟨hlow, hhigh⟩ := startOf_yearOf t
  rcases Int.lt_trichotomy (yearOf t) y with hlt | heq | hgt
  · have hle : startOf (yearOf t + 1) ≤ startOf y := by
      rcases Int.lt_or_eq_of_le (show yearOf t + 1 ≤ y by omega) with hlt | heq
      · have hnext := startOf_lt hlt
        omega
      · rw [heq]
    omega
  · exact heq
  · have hle : startOf (y + 1) ≤ startOf (yearOf t) := by
      rcases Int.lt_or_eq_of_le (show y + 1 ≤ yearOf t by omega) with hlt | heq
      · have hnext := startOf_lt hlt
        omega
      · rw [heq]
    omega

namespace Rule

variable {rule : Rule} {d : Dst} {s s' n n' : Switch} {t u y : Int}

/-! ## What an instant is between -/

/-- The last switch that has taken place; of two at one instant the one of the later date. -/
structure Latest (rule : Rule) (d : Dst) (t : Int) (s : Switch) : Prop where
  reached : rule.instant d s ≤ t
  last : ∀ s', rule.instant d s' ≤ t → s' = s ∨ Before (rule.instant d) Switch.Earlier s' s

/-- The instant is between two switches next to each other. -/
structure Around (rule : Rule) (d : Dst) (t : Int) (s n : Switch) : Prop where
  latest : rule.Latest d t s
  coming : t < rule.instant d n
  first : ∀ s', t < rule.instant d s' → rule.instant d n ≤ rule.instant d s'

theorem Latest.le (h : rule.Latest d t s) (hle : rule.instant d s' ≤ t) :
    rule.instant d s' ≤ rule.instant d s := by
  rcases h.last s' hle with rfl | hbefore
  · exact Int.le_refl _
  · exact hbefore.le

theorem Latest.unique (h : rule.Latest d t s) (h' : rule.Latest d t s') : s = s' := by
  rcases h.last s' h'.reached with heq | hbefore
  · exact heq.symm
  rcases h'.last s h.reached with heq | hbefore'
  · exact heq
  obtain ⟨hearlier, hlater⟩ := hbefore.both hbefore'
  exact absurd hlater hearlier.asymm

/-- Between two switches nothing changes. -/
theorem Around.within (h : rule.Around d t s n) (hstart : rule.instant d s ≤ u)
    (hfinish : u < rule.instant d n) : rule.Around d u s n := by
  refine ⟨⟨hstart, fun s' hle => ?_⟩, hfinish, fun s' hlt => ?_⟩
  · rcases Int.lt_or_le t (rule.instant d s') with hpast | hreached
    · have hfirst := h.first s' hpast
      omega
    · exact h.latest.last s' hreached
  · rcases Int.lt_or_le t (rule.instant d s') with hpast | hreached
    · exact h.first s' hpast
    · have hle := h.latest.le hreached
      omega

/-- The stretch between two switches. -/
def segmentOf (rule : Rule) (d : Dst) (s n : Switch) : Segment where
  start := (rule.instant d s : Int)
  finish := (rule.instant d n : Int)
  off := rule.offOf d s.toDst
  dst := s.toDst

theorem Around.segment_unique (h : rule.Around d t s n) (h' : rule.Around d t s' n') :
    rule.segmentOf d s n = rule.segmentOf d s' n' := by
  obtain rfl := h.latest.unique h'.latest
  have heq : rule.instant d n = rule.instant d n' :=
    Int.le_antisymm (h.first n' h'.coming) (h'.first n h.coming)
  rw [segmentOf, segmentOf, heq]

/-! ## What `segmentAt` finds -/

/-- The switches of three years, sorted. -/
def inOrder (rule : Rule) (d : Dst) (y : Int) : List Switch :=
  Lib.Insertion.sorted (rule.instant d) (near y)

theorem pairwise_inOrder (rule : Rule) (d : Dst) (y : Int) :
    (rule.inOrder d y).Pairwise (Before (rule.instant d) Switch.Earlier) :=
  Lib.Insertion.pairwise_sorted (pairwise_near y)

theorem mem_inOrder : s ∈ rule.inOrder d y ↔ y - 1 ≤ s.year ∧ s.year ≤ y + 1 := by
  rw [inOrder, Lib.Insertion.mem_sorted, mem_near]

theorem sorted_events (rule : Rule) (d : Dst) (y : Int) :
    sorted (rule.year d (y - 1) ++ rule.year d y ++ rule.year d (y + 1)) =
      (rule.inOrder d y).map (rule.event d) := by
  rw [inOrder, sorted]
  exact (Lib.Insertion.map_sorted (rule.event d) Event.instant (near y)).symm

theorem takeWhile_events (l : List Switch) (t : Int) :
    ((l.map (rule.event d)).takeWhile fun e => e.instant ≤ t) =
      (l.takeWhile fun s => rule.instant d s ≤ t).map (rule.event d) := by
  rw [List.takeWhile_map]
  rfl

theorem dropWhile_events (l : List Switch) (t : Int) :
    ((l.map (rule.event d)).dropWhile fun e => e.instant ≤ t) =
      (l.dropWhile fun s => rule.instant d s ≤ t).map (rule.event d) := by
  rw [List.dropWhile_map]
  rfl

theorem segmentAt_eq (rule : Rule) (d : Dst) (t : Int) :
    rule.segmentAt d t = rule.stretchIn d ((rule.inOrder d (yearOf t)).map (rule.event d)) t := by
  rw [← sorted_events]
  rfl

/-- Where a stretch starts: at the last switch of the three years that has taken place. -/
theorem segmentAt_start (rule : Rule) (d : Dst) (t : Int) :
    ((rule.segmentAt d t).start = ⊥ ∧
        ∀ s, yearOf t - 1 ≤ s.year → s.year ≤ yearOf t + 1 → t < rule.instant d s) ∨
      ∃ s, (yearOf t - 1 ≤ s.year ∧ s.year ≤ yearOf t + 1) ∧ rule.instant d s ≤ t ∧
        (rule.segmentAt d t).start = (rule.instant d s : Int) ∧
        (rule.segmentAt d t).off = rule.offOf d s.toDst ∧ (rule.segmentAt d t).dst = s.toDst ∧
        ∀ s', yearOf t - 1 ≤ s'.year → s'.year ≤ yearOf t + 1 → rule.instant d s' ≤ t →
          s' = s ∨ Before (rule.instant d) Switch.Earlier s' s := by
  have hpair := pairwise_inOrder rule d (yearOf t)
  simp only [segmentAt_eq, stretchIn, takeWhile_events, List.getLast?_map]
  cases hlast : ((rule.inOrder d (yearOf t)).takeWhile fun s => rule.instant d s ≤ t).getLast? with
  | none =>
    exact .inl ⟨rfl, fun s hlow hhigh =>
      Lib.Insertion.none_reached hlast hpair (mem_inOrder.mpr ⟨hlow, hhigh⟩)⟩
  | some s =>
    obtain ⟨hmem, hle, hall⟩ := Lib.Insertion.last_reached hpair hlast
    exact .inr ⟨s, mem_inOrder.mp hmem, hle, rfl, rfl, rfl, fun s' hlow hhigh hreached =>
      hall s' (mem_inOrder.mpr ⟨hlow, hhigh⟩) hreached⟩

/-- Where it ends: at the first switch of the three years that is to come. -/
theorem segmentAt_finish (rule : Rule) (d : Dst) (t : Int) :
    ((rule.segmentAt d t).finish = ⊤ ∧
        ∀ s, yearOf t - 1 ≤ s.year → s.year ≤ yearOf t + 1 → rule.instant d s ≤ t) ∨
      ∃ n, (yearOf t - 1 ≤ n.year ∧ n.year ≤ yearOf t + 1) ∧ t < rule.instant d n ∧
        (rule.segmentAt d t).finish = (rule.instant d n : Int) ∧
        ∀ s', yearOf t - 1 ≤ s'.year → s'.year ≤ yearOf t + 1 → t < rule.instant d s' →
          rule.instant d n ≤ rule.instant d s' := by
  have hpair := pairwise_inOrder rule d (yearOf t)
  have hfinish : (rule.segmentAt d t).finish =
      finishOf (((rule.inOrder d (yearOf t)).dropWhile fun s => rule.instant d s ≤ t).map
        (rule.event d)) := by
    rw [← dropWhile_events, segmentAt_eq, stretchIn]
    split <;> rfl
  rw [hfinish]
  cases hdrop : (rule.inOrder d (yearOf t)).dropWhile fun s => rule.instant d s ≤ t with
  | nil =>
    exact .inl ⟨rfl, fun s hlow hhigh =>
      Lib.Insertion.none_coming hdrop (mem_inOrder.mpr ⟨hlow, hhigh⟩)⟩
  | cons n rest =>
    obtain ⟨hmem, hlt, hall⟩ := Lib.Insertion.first_coming hpair hdrop
    exact .inr ⟨n, mem_inOrder.mp hmem, hlt, rfl, fun s' hlow hhigh hcoming =>
      hall s' (mem_inOrder.mpr ⟨hlow, hhigh⟩) hcoming⟩

theorem start_le (rule : Rule) (d : Dst) (t : Int) : (rule.segmentAt d t).start ≤ (t : Int) := by
  rcases segmentAt_start rule d t with ⟨hstart, -⟩ | ⟨s, -, hle, hstart, -⟩
  · rw [hstart]
    exact bot_le
  · rw [hstart]
    exact WithBot.coe_le_coe.mpr hle

theorem lt_finish (rule : Rule) (d : Dst) (t : Int) : (t : Int) < (rule.segmentAt d t).finish := by
  rcases segmentAt_finish rule d t with ⟨hfinish, -⟩ | ⟨n, -, hlt, hfinish, -⟩
  · rw [hfinish]
    exact WithTop.coe_lt_top t
  · rw [hfinish]
    exact WithTop.coe_lt_coe.mpr hlt

/-- The year of a switch's instant is next to the year of its date. -/
theorem year_near (h : rule.InRange d) (s : Switch) :
    yearOf (rule.instant d s) - 1 ≤ s.year ∧ s.year ≤ yearOf (rule.instant d s) + 1 := by
  obtain ⟨hlow, hhigh⟩ := startOf_yearOf (rule.instant d s)
  refine ⟨Int.not_lt.mp fun hpast => ?_, Int.not_lt.mp fun hcoming => ?_⟩
  · have hover := instant_past h (s := s) (y := yearOf (rule.instant d s)) (by omega)
    omega
  · have hahead := lt_instant h (s := s) (y := yearOf (rule.instant d s) + 1) (by omega)
    omega

/-- At a switch a stretch starts. -/
theorem start_instant (h : rule.InRange d) (s : Switch) :
    (rule.segmentAt d (rule.instant d s)).start = (rule.instant d s : Int) := by
  obtain ⟨hlow, hhigh⟩ := year_near h s
  rcases segmentAt_start rule d (rule.instant d s) with ⟨-, hnone⟩ | ⟨r, -, hle, hstart, -, -, hlast⟩
  · exact absurd (hnone s hlow hhigh) (Int.lt_irrefl _)
  · rw [hstart]
    rcases hlast s hlow hhigh (Int.le_refl _) with rfl | hbefore
    · rfl
    · rw [Int.le_antisymm hle hbefore.le]

/-! ## Whether three years are enough -/

/-- The last switch in front of a year is dated in the year before it at the earliest. -/
def PastNear (rule : Rule) (d : Dst) (y : Int) : Prop :=
  ∃ s : Switch, (y - 1 ≤ s.year ∧ s.year ≤ y + 1) ∧ rule.instant d s ≤ startOf y ∧
    ∀ toDst, rule.instant d ⟨y - 2, toDst⟩ ≤ rule.instant d s

/-- The first switch behind a year is dated in the year after it at the latest. -/
def ComingNear (rule : Rule) (d : Dst) (y : Int) : Prop :=
  ∃ n : Switch, (y - 1 ≤ n.year ∧ n.year ≤ y + 1) ∧ startOf (y + 1) ≤ rule.instant d n ∧
    ∀ toDst, rule.instant d n ≤ rule.instant d ⟨y + 2, toDst⟩

/-- In every year the switches on either side of it are dated next to it. -/
def Near (rule : Rule) (d : Dst) : Prop := ∀ y, rule.PastNear d y ∧ rule.ComingNear d y

/-- It is enough that one of the two switches falls within its year, and between those of the other
that are dated in the years around. -/
theorem near_of_within (hin : rule.InRange d) (side : Bool)
    (hwithin : ∀ y, startOf y ≤ rule.instant d ⟨y, side⟩ ∧
      rule.instant d ⟨y, side⟩ < startOf (y + 1))
    (hbetween : ∀ y, rule.instant d ⟨y - 1, !side⟩ ≤ rule.instant d ⟨y, side⟩ ∧
      rule.instant d ⟨y, side⟩ ≤ rule.instant d ⟨y + 1, !side⟩) : rule.Near d := by
  have hsides : ∀ toDst : Bool, toDst = side ∨ toDst = !side := by
    intro toDst
    cases toDst <;> cases side <;> simp
  refine fun y => ⟨⟨⟨y - 1, side⟩, by dsimp only; omega, ?_, fun toDst => ?_⟩,
    ⟨⟨y + 1, side⟩, by dsimp only; omega, (hwithin (y + 1)).1, fun toDst => ?_⟩⟩
  · have hend := (hwithin (y - 1)).2
    rw [Int.sub_add_cancel] at hend
    exact Int.le_of_lt hend
  · rcases hsides toDst with rfl | rfl
    · exact instant_mono hin _ (by omega)
    · have hother := (hbetween (y - 1)).1
      rwa [show y - 1 - 1 = y - 2 by omega] at hother
  · rcases hsides toDst with rfl | rfl
    · exact instant_mono hin _ (by omega)
    · have hother := (hbetween (y + 1)).2
      rwa [show y + 1 + 1 = y + 2 by omega] at hother

/-- The last switch of all is among those of the three years. -/
theorem latest_of_near (hin : rule.InRange d) (hnear : rule.PastNear d (yearOf t)) :
    ∃ s, rule.Latest d t s ∧ (rule.segmentAt d t).start = (rule.instant d s : Int) ∧
      (rule.segmentAt d t).off = rule.offOf d s.toDst ∧ (rule.segmentAt d t).dst = s.toDst := by
  obtain ⟨hlow, hhigh⟩ := startOf_yearOf t
  obtain ⟨s₀, ⟨hyear, hyear'⟩, hreached, hover⟩ := hnear
  rcases segmentAt_start rule d t with ⟨-, hnone⟩ | ⟨s, ⟨hs, -⟩, hle, hstart, hoff, hdst, hlast⟩
  · have hlt := hnone s₀ hyear hyear'
    omega
  · refine ⟨s, ⟨hle, fun s' hle' => ?_⟩, hstart, hoff, hdst⟩
    rcases Int.lt_or_le (yearOf t + 1) s'.year with hlate | hlate
    · have hahead := lt_instant hin (s := s') (y := yearOf t + 1) (by omega)
      omega
    rcases Int.lt_or_le s'.year (yearOf t - 1) with hearly | hearly
    · -- Dated earlier it is no later than the switch in front of the year.
      have hmono := instant_mono hin s'.toDst (show s'.year ≤ yearOf t - 2 by omega)
      have hfront := hover s'.toDst
      have hs₀ : rule.instant d s₀ ≤ rule.instant d s := by
        rcases hlast s₀ hyear hyear' (by omega) with rfl | hbefore
        · exact Int.le_refl _
        · exact hbefore.le
      have hinstant : rule.instant d s' ≤ rule.instant d s := by
        change rule.instant d s' ≤ _ at hmono
        omega
      rcases Int.lt_or_eq_of_le hinstant with hlt | heq
      · exact .inr (.inl hlt)
      · exact .inr (.inr ⟨heq, .inl (by omega)⟩)
    · exact hlast s' hearly hlate hle'

/-- The first switch of all to come is among those of the three years. -/
theorem coming_of_near (hin : rule.InRange d) (hnear : rule.ComingNear d (yearOf t)) :
    ∃ n, t < rule.instant d n ∧ (rule.segmentAt d t).finish = (rule.instant d n : Int) ∧
      ∀ s', t < rule.instant d s' → rule.instant d n ≤ rule.instant d s' := by
  obtain ⟨hlow, hhigh⟩ := startOf_yearOf t
  obtain ⟨n₀, ⟨hyear, hyear'⟩, hcoming, hover⟩ := hnear
  rcases segmentAt_finish rule d t with ⟨-, hnone⟩ | ⟨n, -, hlt, hfinish, hfirst⟩
  · have hle := hnone n₀ hyear hyear'
    omega
  · refine ⟨n, hlt, hfinish, fun s' hlt' => ?_⟩
    rcases Int.lt_or_le s'.year (yearOf t - 1) with hearly | hearly
    · have hpast := instant_past hin (s := s') (y := yearOf t) (by omega)
      omega
    rcases Int.lt_or_le (yearOf t + 1) s'.year with hlate | hlate
    · -- Dated later it is no earlier than the switch behind the year.
      have hmono := instant_mono hin s'.toDst (show yearOf t + 2 ≤ s'.year by omega)
      change _ ≤ rule.instant d s' at hmono
      have hback := hover s'.toDst
      have hn₀ := hfirst n₀ hyear hyear' (by omega)
      omega
    · exact hfirst s' hearly hlate hlt'

/-- Where three years are enough, `segmentAt` finds the stretch the instant is in. -/
theorem segmentAt_around (hin : rule.InRange d) (hnear : rule.Near d) (t : Int) :
    ∃ s n, rule.Around d t s n ∧ rule.segmentAt d t = rule.segmentOf d s n := by
  obtain ⟨s, hlatest, hstart, hoff, hdst⟩ := latest_of_near hin (hnear (yearOf t)).1
  obtain ⟨n, hlt, hfinish, hfirst⟩ := coming_of_near hin (hnear (yearOf t)).2
  refine ⟨s, n, ⟨hlatest, hlt, hfirst⟩, ?_⟩
  generalize rule.segmentAt d t = seg at *
  obtain ⟨start, finish, off, dst⟩ := seg
  cases hstart
  cases hfinish
  cases hoff
  cases hdst
  rfl

/-- Every instant of a stretch gets the same stretch. -/
theorem segmentAt_same (hin : rule.InRange d) (hnear : rule.Near d)
    (hstart : (rule.segmentAt d t).start ≤ (u : Int))
    (hfinish : (u : Int) < (rule.segmentAt d t).finish) :
    rule.segmentAt d u = rule.segmentAt d t := by
  obtain ⟨s, n, haround, hseg⟩ := segmentAt_around hin hnear t
  obtain ⟨s', n', haround', hseg'⟩ := segmentAt_around hin hnear u
  rw [hseg] at hstart hfinish ⊢
  rw [hseg']
  have hwithin := haround.within (WithBot.coe_le_coe.mp hstart) (WithTop.coe_lt_coe.mp hfinish)
  exact haround'.segment_unique hwithin

/-! ## Where they are not -/

theorem startOf_add_cycle (y : Int) : startOf (y + 400) = startOf y + cycle * 86400 := by
  rw [startOf, startOf, yearStart_add_400]
  omega

/-- What holds of a year holds of the one 400 years before it. -/
theorem PastNear.of_later (hin : rule.InRange d) (h : rule.PastNear d (y + 400)) :
    rule.PastNear d y := by
  obtain ⟨⟨year, toDst⟩, hyear, hle, hover⟩ := h
  refine ⟨⟨year - 400, toDst⟩, ?_, ?_, fun side => ?_⟩
  all_goals
    have hs := instant_add_cycle hin (year - 400) toDst
    rw [Int.sub_add_cancel] at hs
  · dsimp only at hyear ⊢
    omega
  · rw [startOf_add_cycle] at hle
    omega
  · have hfront := hover side
    have hside := instant_add_cycle hin (y - 2) side
    rw [show y - 2 + 400 = y + 400 - 2 by omega] at hside
    omega

theorem ComingNear.of_later (hin : rule.InRange d) (h : rule.ComingNear d (y + 400)) :
    rule.ComingNear d y := by
  obtain ⟨⟨year, toDst⟩, hyear, hle, hover⟩ := h
  refine ⟨⟨year - 400, toDst⟩, ?_, ?_, fun side => ?_⟩
  all_goals
    have hs := instant_add_cycle hin (year - 400) toDst
    rw [Int.sub_add_cancel] at hs
  · dsimp only at hyear ⊢
    omega
  · rw [show y + 400 + 1 = y + 1 + 400 by omega, startOf_add_cycle] at hle
    omega
  · have hback := hover side
    have hside := instant_add_cycle hin (y + 2) side
    rw [show y + 2 + 400 = y + 400 + 2 by omega] at hside
    omega

/-- What holds from some year on holds of every year. -/
theorem of_eventually {p : Int → Prop} (hback : ∀ y, p (y + 400) → p y) {Y : Int}
    (h : ∀ y, Y ≤ y → p y) (y : Int) : p y := by
  obtain ⟨n, hn⟩ : ∃ n : Nat, Y ≤ y + 400 * n := ⟨(Y - y).toNat, by omega⟩
  induction n generalizing y with
  | zero => exact h y (by omega)
  | succ n ih => exact hback y (ih (y + 400) (by omega))

/-- Where the last switch in front of a year is missed, the stretch at its first second starts in
front of a switch. -/
theorem missed_past (hin : rule.InRange d) (h : ¬ rule.PastNear d y) :
    ∃ side, rule.instant d ⟨y - 2, side⟩ < startOf y ∧
      (rule.segmentAt d (startOf y)).start < (rule.instant d ⟨y - 2, side⟩ : Int) := by
  have hyear : yearOf (startOf y) = y :=
    yearOf_eq (Int.le_refl _) (by have := startOf_lt (show y < y + 1 by omega); omega)
  have hover : ∀ side, rule.instant d ⟨y - 2, side⟩ < startOf y := fun side =>
    instant_past hin (show y - 2 + 2 ≤ y by omega)
  rcases segmentAt_start rule d (startOf y) with ⟨hstart, -⟩ | ⟨s, hs, hle, hstart, -⟩
  · refine ⟨true, hover true, ?_⟩
    rw [hstart]
    exact WithBot.bot_lt_coe _
  · rw [hyear] at hs
    obtain ⟨side, hside⟩ : ∃ side, rule.instant d s < rule.instant d ⟨y - 2, side⟩ := by
      by_contra hno
      refine h ⟨s, hs, hle, fun side => ?_⟩
      exact Int.not_lt.mp fun hlt => hno ⟨side, hlt⟩
    refine ⟨side, hover side, ?_⟩
    rw [hstart]
    exact WithBot.coe_lt_coe.mpr hside

/-- Where the first switch behind a year is missed, the stretch at its last second ends behind a
switch. -/
theorem missed_coming (hin : rule.InRange d) (h : ¬ rule.ComingNear d y) :
    ∃ side, startOf (y + 1) ≤ rule.instant d ⟨y + 2, side⟩ ∧
      (rule.instant d ⟨y + 2, side⟩ : Int) < (rule.segmentAt d (startOf (y + 1) - 1)).finish := by
  have hnext := startOf_lt (show y < y + 1 by omega)
  have hyear : yearOf (startOf (y + 1) - 1) = y := yearOf_eq (by omega) (by omega)
  have hahead : ∀ side, startOf (y + 1) ≤ rule.instant d ⟨y + 2, side⟩ := fun side =>
    Int.le_of_lt (lt_instant hin (show y + 1 + 1 ≤ y + 2 by omega))
  rcases segmentAt_finish rule d (startOf (y + 1) - 1) with ⟨hfinish, -⟩ | ⟨n, hn, hlt, hfinish, -⟩
  · refine ⟨true, hahead true, ?_⟩
    rw [hfinish]
    exact WithTop.coe_lt_top _
  · rw [hyear] at hn
    obtain ⟨side, hside⟩ : ∃ side, rule.instant d ⟨y + 2, side⟩ < rule.instant d n := by
      by_contra hno
      refine h ⟨n, hn, by omega, fun side => ?_⟩
      exact Int.not_lt.mp fun hlt => hno ⟨side, hlt⟩
    refine ⟨side, hahead side, ?_⟩
    rw [hfinish]
    exact WithTop.coe_lt_coe.mpr hside

end Rule

end Nilo.Tz
