import Nilo.Core.Parse

/-!
# Printing moments and days (`writeRfc3339` and `writeIso` of `core/time.zig`)

What is printed is the text of a valid `Stated`, whose fields have one width each: so it is read back,
and two texts compare as their times do.
-/

namespace Nilo.Time

open Text (Bytes isDigit padded digits digits_lt padded_eq_word decimal_word all_digits)
open Mem (Run Fault)
open Lib (Lex.append_lt Lex.append_lt_append_iff Lex.length_word)
open Lib.Calendar (IsDate monthLength yearStart yearLength yearStart_lt)

/-! ## Days -/

theorem Day.Valid.isDate {d : Day} (h : d.Valid) : IsDate d.days d.year d.month d.day := by
  have hmonth := h.month
  have hday := h.day
  exact IsDate.of_valid (by omega) (by omega) (by omega) h.within

theorem Day.eq_of_days {d d' : Day} (h : d.Valid) (h' : d'.Valid) (heq : d.days = d'.days) :
    d = d' := by
  obtain ⟨hy, hm, hd⟩ := h.isDate.unique (heq ▸ h'.isDate)
  cases d
  cases d'
  simp only [Nat.cast_inj] at hy hm hd
  rw [hy, hm, hd]

/-- The years of four digits are the days between two. -/
theorem year_in_range {days y m d : Int} (h : IsDate days y m d) :
    (-719162 ≤ days ∧ days ≤ 2932896) ↔ (1 ≤ y ∧ y ≤ 9999) := by
  obtain ⟨hlow, hhigh⟩ := h.in_year
  have hfirst : yearStart 1 = -719162 := by decide
  have hlast : yearStart 10000 = 2932897 := by decide
  constructor
  · rintro ⟨h1, h2⟩
    constructor
    · by_contra hy
      have := yearStart_lt (show y < 1 by omega)
      omega
    · by_contra hy
      rcases Int.lt_or_eq_of_le (show 10000 ≤ y by omega) with hlt | rfl
      · have := yearStart_lt hlt
        have := Lib.Calendar.yearLength_pos 10000
        omega
      · omega
  · rintro ⟨h1, h2⟩
    have hend := yearStart_lt (show y < 10000 by omega)
    rcases Int.lt_or_eq_of_le h1 with hlt | rfl
    · have := yearStart_lt hlt
      have := Lib.Calendar.yearLength_pos 1
      omega
    · omega

/-- Every day of the range is one of the calendar's. -/
theorem civilFromDays_day (days : Int) (h : -719162 ≤ days ∧ days ≤ 2932896) :
    ∃ d : Day, d.Valid ∧ d.days = days ∧ civilFromDays days = .ok ⟨d.year, d.month, d.day⟩ := by
  obtain ⟨civil, hcivil, hdate⟩ := civilFromDays_ok days (by omega) (by omega)
  obtain ⟨year, month, day⟩ := civil
  dsimp only at hdate
  have hyear := (year_in_range hdate).mp h
  obtain ⟨n, rfl⟩ := Int.eq_ofNat_of_zero_le (show 0 ≤ year by omega)
  have hmonth := hdate.one_le_month
  have hmonth' := hdate.month_le
  have hday := hdate.one_le
  refine ⟨⟨n, month, day⟩, ⟨by dsimp only; omega, by dsimp only; omega, by dsimp only; omega,
    hdate.le⟩, hdate.day_eq.symm, hcivil⟩

theorem Date.writeIso_of_range {days : Int} (h : -719162 ≤ days ∧ days ≤ 2932896) :
    ∃ d : Day, d.Valid ∧ d.days = days ∧ Date.writeIso days = .ok (some d.text) := by
  obtain ⟨d, hvalid, hdays, hcivil⟩ := civilFromDays_day days h
  refine ⟨d, hvalid, hdays, ?_⟩
  have hyear := hvalid.year
  have hmonth := hvalid.month
  have hday := hvalid.le_31
  refine (bind_of_ok hcivil).trans ?_
  rw [if_neg (by dsimp only; omega)]
  refine (bind_of_ok (intCast_ok (by dsimp only; omega) (by dsimp only; omega))).trans ?_
  dsimp only
  rw [Int.toNat_natCast, padded_eq_word (by decide) (show d.year < 10 ^ 4 by omega),
    padded_eq_word (by decide) (show d.month < 10 ^ 2 by omega),
    padded_eq_word (by decide) (show d.day < 10 ^ 2 by omega), Day.text]
  rfl

/-- Any other day of 32 bits is `error.OutOfRange`. -/
theorem Date.writeIso_out {days : Int} (hlow : -2 ^ 31 ≤ days) (hhigh : days < 2 ^ 31)
    (h : ¬ (-719162 ≤ days ∧ days ≤ 2932896)) : Date.writeIso days = .ok none := by
  obtain ⟨civil, hcivil, hdate⟩ := civilFromDays_ok days (by omega) (by omega)
  have hyear := mt (year_in_range hdate).mpr h
  refine (bind_of_ok hcivil).trans ?_
  rw [if_pos (by omega)]
  rfl

/-! ## Fields in order -/

/-- A field decides, or what follows it. -/
theorem field_lt {k n m : Nat} {as bs : Bytes} (hm : m < 10 ^ k) (h : n < m ∨ n = m ∧ as < bs) :
    digits k n ++ as < digits k m ++ bs := by
  rcases h with hlt | ⟨rfl, hlt⟩
  · exact Lex.append_lt (by rw [Lex.length_word, Lex.length_word]) (digits_lt hlt hm) as bs
  · exact List.append_left_lt hlt

theorem Day.text_append (d : Day) (as : Bytes) : d.text ++ as =
    digits 4 d.year ++ ([45] ++ (digits 2 d.month ++ ([45] ++ (digits 2 d.day ++ as)))) := by
  simp only [Day.text, List.append_assoc]

theorem Day.text_lt {d d' : Day} (h : d.Valid) (h' : d'.Valid) {as bs : Bytes}
    (hlt : d.days < d'.days ∨ d = d' ∧ as < bs) : d.text ++ as < d'.text ++ bs := by
  have hyear := h'.year
  have hmonth := h'.month
  have hday := h'.le_31
  have hfields : d.year < d'.year ∨ d.year = d'.year ∧ (d.month < d'.month ∨ d.month = d'.month ∧
      (d.day < d'.day ∨ d.day = d'.day ∧ as < bs)) := by
    rcases hlt with hlt | ⟨rfl, hlt⟩
    · have hdate := h.isDate.lt h'.isDate hlt
      omega
    · exact .inr ⟨rfl, .inr ⟨rfl, .inr ⟨rfl, hlt⟩⟩⟩
  rw [Day.text_append, Day.text_append]
  refine field_lt (show d'.year < 10 ^ 4 by omega) (hfields.imp_right fun ⟨heq, hrest⟩ => ⟨heq, ?_⟩)
  refine List.append_left_lt (field_lt (show d'.month < 10 ^ 2 by omega)
    (hrest.imp_right fun ⟨heq, hrest⟩ => ⟨heq, ?_⟩))
  exact List.append_left_lt (field_lt (show d'.day < 10 ^ 2 by omega) hrest)

/-! ## Moments -/

/-- What the writer says of a moment: UTC, and six digits of a fraction. -/
def printed (d : Day) (intoDay fraction : Nat) : Stated :=
  { day := d, lower := false, hour := intoDay / 3600, minute := intoDay / 60 % 60,
    second := intoDay % 60, fraction := digits 6 fraction, zone := .utc false }

variable {d d' : Day} {into into' fraction fraction' : Nat}

theorem printed_valid (h : d.Valid) (hinto : into < 86400) (hf : fraction < 10 ^ 6) :
    (printed d into fraction).Valid :=
  ⟨h, by dsimp only [printed]; omega, by dsimp only [printed]; omega, by dsimp only [printed]; omega,
    all_digits hf, trivial⟩

theorem printed_micros (hf : fraction < 10 ^ 6) : (printed d into fraction).micros =
    (d.days * 86400 + into) * 1000000 + fraction := by
  have hmicros : microsOf (digits 6 fraction) = fraction := by
    rw [microsOf, decimal_word hf, Lex.length_word]
    exact Nat.mul_div_cancel _ (by decide)
  rw [Stated.micros]
  dsimp only [printed, Zone.seconds, secsPerDay, microsPerSec]
  rw [hmicros]
  omega

theorem printed_text : (printed d into fraction).text = d.text ++ ([84] ++ (digits 2 (into / 3600) ++
    ([58] ++ (digits 2 (into / 60 % 60) ++ ([58] ++ (digits 2 (into % 60) ++ ([46] ++
      (digits 6 fraction ++ [90])))))))) := by
  have hsome : digits 6 fraction ≠ [] := by
    intro hnil
    have hlength := congrArg List.length hnil
    rw [Lex.length_word] at hlength
    cases hlength
  have hfraction : fractionText (digits 6 fraction) = 46 :: digits 6 fraction := if_neg hsome
  rw [Stated.text, Stated.clock]
  dsimp only [printed, Zone.text]
  rw [hfraction]
  simp only [Bool.false_eq_true, if_false, List.append_assoc, List.cons_append, List.nil_append]

theorem printed_lt (h : d.Valid) (h' : d'.Valid) (hinto : into' < 86400) (hf : fraction' < 10 ^ 6)
    (hlt : d.days < d'.days ∨ d.days = d'.days ∧ (into < into' ∨ into = into' ∧ fraction < fraction')) :
    (printed d into fraction).text < (printed d' into' fraction').text := by
  rw [printed_text, printed_text]
  refine Day.text_lt h h' (hlt.imp_right fun ⟨hdays, hrest⟩ => ⟨Day.eq_of_days h h' hdays, ?_⟩)
  have hfields : into / 3600 < into' / 3600 ∨ into / 3600 = into' / 3600 ∧
      (into / 60 % 60 < into' / 60 % 60 ∨ into / 60 % 60 = into' / 60 % 60 ∧
        (into % 60 < into' % 60 ∨ into % 60 = into' % 60 ∧ fraction < fraction')) := by omega
  refine List.append_left_lt (field_lt (show into' / 3600 < 10 ^ 2 by omega)
    (hfields.imp_right fun ⟨heq, hrest⟩ => ⟨heq, ?_⟩))
  refine List.append_left_lt (field_lt (show into' / 60 % 60 < 10 ^ 2 by omega)
    (hrest.imp_right fun ⟨heq, hrest⟩ => ⟨heq, ?_⟩))
  refine List.append_left_lt (field_lt (show into' % 60 < 10 ^ 2 by omega)
    (hrest.imp_right fun ⟨heq, hrest⟩ => ⟨heq, ?_⟩))
  exact List.append_left_lt (field_lt hf (.inl hrest))

/-- A moment in range is printed. -/
theorem writeRfc3339_of_inRange {micros : Int} (h : InRange micros) :
    ∃ (d : Day) (into fraction : Nat), d.Valid ∧ into < 86400 ∧ fraction < 10 ^ 6 ∧
      (d.days * 86400 + into) * 1000000 + fraction = micros ∧
      writeRfc3339 micros = .ok (some (printed d into fraction).text) := by
  obtain ⟨hlow, hhigh⟩ := h
  rw [firstMicros] at hlow
  rw [lastMicros] at hhigh
  obtain ⟨d, hvalid, hdays, hcivil⟩ := civilFromDays_day (micros / 1000000 / 86400) (by omega)
  have hyear := hvalid.year
  have hmonth := hvalid.month
  have hday := hvalid.le_31
  obtain ⟨into, hinto⟩ := Int.eq_ofNat_of_zero_le
    (show 0 ≤ micros / 1000000 - micros / 1000000 / 86400 * 86400 by omega)
  obtain ⟨fraction, hfraction⟩ := Int.eq_ofNat_of_zero_le (show 0 ≤ micros % 1000000 by omega)
  refine ⟨d, into, fraction, hvalid, by omega, by omega, by omega, ?_⟩
  have hin : ¬ (micros < firstMicros ∨ micros > lastMicros) := by
    rw [firstMicros, lastMicros]
    omega
  have hcast : intCast (2 ^ 32) (into : Int) = .ok into := intCast_ok (by omega) (by omega)
  have hcast' : intCast (2 ^ 32) (fraction : Int) = .ok fraction := intCast_ok (by omega) (by omega)
  have hcast'' : intCast (2 ^ 16) (d.year : Int) = .ok d.year := intCast_ok (by omega) (by omega)
  rw [writeRfc3339, if_neg hin, microsPerSec, secsPerDay]
  dsimp only
  rw [hinto, hfraction]
  refine (bind_of_ok hcast).trans ((bind_of_ok hcivil).trans ((bind_of_ok hcast'').trans
    ((bind_of_ok hcast').trans ?_)))
  dsimp only
  rw [padded_eq_word (by decide) (show d.year < 10 ^ 4 by omega),
    padded_eq_word (by decide) (show d.month < 10 ^ 2 by omega),
    padded_eq_word (by decide) (show d.day < 10 ^ 2 by omega),
    padded_eq_word (by decide) (show into / 3600 < 10 ^ 2 by omega),
    padded_eq_word (by decide) (show into / 60 % 60 < 10 ^ 2 by omega),
    padded_eq_word (by decide) (show into % 60 < 10 ^ 2 by omega),
    padded_eq_word (by decide) (show fraction < 10 ^ 6 by omega), printed_text, Day.text]
  simp only [List.append_assoc]
  rfl

theorem writeRfc3339_out {micros : Int} (h : ¬ InRange micros) : writeRfc3339 micros = .ok none := by
  refine if_pos ?_
  rw [InRange] at h
  omega

theorem inRange_of_text {micros : Int} {text : Bytes} (h : writeRfc3339 micros = .ok (some text)) :
    InRange micros := by
  by_contra hout
  rw [writeRfc3339_out hout] at h
  cases h

/-- What is printed is read back. -/
theorem niloParse_printed {micros : Int} {text : Bytes} (h : writeRfc3339 micros = .ok (some text)) :
    niloParse text = .ok (some micros) := by
  have hin := inRange_of_text h
  obtain ⟨d, into, fraction, hvalid, hinto, hfraction, hmicros, htext⟩ := writeRfc3339_of_inRange hin
  rw [htext] at h
  cases h
  rw [niloParse_stated (printed_valid hvalid hinto hfraction), printed_micros hfraction, hmicros,
    if_pos hin]

theorem text_lt_of_micros {micros micros' : Int} {text text' : Bytes}
    (h : writeRfc3339 micros = .ok (some text)) (h' : writeRfc3339 micros' = .ok (some text'))
    (hlt : micros < micros') : text < text' := by
  obtain ⟨d, into, fraction, hvalid, hinto, hfraction, hmicros, htext⟩ :=
    writeRfc3339_of_inRange (inRange_of_text h)
  obtain ⟨d', into', fraction', hvalid', hinto', hfraction', hmicros', htext'⟩ :=
    writeRfc3339_of_inRange (inRange_of_text h')
  rw [htext] at h
  rw [htext'] at h'
  cases h
  cases h'
  exact printed_lt hvalid hvalid' hinto' hfraction' (by omega)

/-- A printed day is the text of a date. -/
theorem day_of_writeIso {days : Int} {text : Bytes} (hlow : -2 ^ 31 ≤ days) (hhigh : days < 2 ^ 31)
    (h : Date.writeIso days = .ok (some text)) : ∃ d : Day, d.Valid ∧ d.days = days ∧ d.text = text := by
  by_cases hin : -719162 ≤ days ∧ days ≤ 2932896
  · obtain ⟨d, hvalid, hdays, htext⟩ := Date.writeIso_of_range hin
    rw [htext] at h
    cases h
    exact ⟨d, hvalid, hdays, rfl⟩
  · rw [Date.writeIso_out hlow hhigh hin] at h
    cases h

theorem text_lt_of_days {days days' : Int} {text text' : Bytes}
    (hrange : -2 ^ 31 ≤ days ∧ days < 2 ^ 31) (hrange' : -2 ^ 31 ≤ days' ∧ days' < 2 ^ 31)
    (h : Date.writeIso days = .ok (some text)) (h' : Date.writeIso days' = .ok (some text'))
    (hlt : days < days') : text < text' := by
  obtain ⟨d, hvalid, rfl, rfl⟩ := day_of_writeIso hrange.1 hrange.2 h
  obtain ⟨d', hvalid', rfl, rfl⟩ := day_of_writeIso hrange'.1 hrange'.2 h'
  have hdays : d.text ++ [] < d'.text ++ [] := Day.text_lt hvalid hvalid' (.inl hlt)
  rwa [List.append_nil, List.append_nil] at hdays

/-- What keeps the order of the times on one side keeps it on both. -/
theorem lt_iff_of_lt {m m' : Int} {text text' : Bytes} (h : m < m' → text < text')
    (h' : m' < m → text' < text) (heq : m = m' → text = text') : text < text' ↔ m < m' := by
  refine ⟨fun hlt => ?_, h⟩
  rcases Int.lt_trichotomy m m' with hm | hm | hm
  · exact hm
  · exact absurd (heq hm ▸ hlt) (List.lt_irrefl _)
  · exact absurd hlt (List.lt_asymm (h' hm))

/-! ## The two together -/

/-- What is printed in range is read back and compares as its time, what is out of range is an error,
and what is read is the civil time of the text less its offset. -/
theorem printed_and_read :
    (∀ micros, (InRange micros → ∃ text, writeRfc3339 micros = .ok (some text) ∧
        niloParse text = .ok (some micros)) ∧
      (¬ InRange micros → writeRfc3339 micros = .ok none)) ∧
    (∀ micros micros' text text', writeRfc3339 micros = .ok (some text) →
      writeRfc3339 micros' = .ok (some text') → (text < text' ↔ micros < micros')) ∧
    (∀ s : Stated, s.Valid → niloParse s.text = .ok (if InRange s.micros then some s.micros else none)) ∧
    (∀ text, niloParse text = .ok none ∨ ∃ s : Stated, s.Valid ∧ s.text = text ∧ InRange s.micros ∧
      niloParse text = .ok (some s.micros)) ∧
    (∀ days, -2 ^ 31 ≤ days ∧ days < 2 ^ 31 →
      ((∃ text, Date.writeIso days = .ok (some text) ∧ Date.niloParse text = .ok (some days)) ↔
        (-719162 ≤ days ∧ days ≤ 2932896)) ∧
      (¬ (-719162 ≤ days ∧ days ≤ 2932896) → Date.writeIso days = .ok none)) ∧
    (∀ days days' text text', -2 ^ 31 ≤ days ∧ days < 2 ^ 31 → -2 ^ 31 ≤ days' ∧ days' < 2 ^ 31 →
      Date.writeIso days = .ok (some text) → Date.writeIso days' = .ok (some text') →
        (text < text' ↔ days < days')) ∧
    (∀ d : Day, d.Valid → Date.niloParse d.text = .ok (some d.days)) ∧
    (∀ text, Date.niloParse text = .ok none ∨ ∃ d : Day, d.Valid ∧ d.text = text ∧
      (-719162 ≤ d.days ∧ d.days ≤ 2932896) ∧ Date.niloParse text = .ok (some d.days)) := by
  refine ⟨fun micros => ⟨fun hin => ?_, writeRfc3339_out⟩, ?_, fun s => niloParse_stated, ?_,
    fun days hrange => ⟨⟨?_, fun hin => ?_⟩, Date.writeIso_out hrange.1 hrange.2⟩, ?_,
    fun d => Date.niloParse_day, ?_⟩
  · obtain ⟨d, into, fraction, -, -, -, -, htext⟩ := writeRfc3339_of_inRange hin
    exact ⟨_, htext, niloParse_printed htext⟩
  · intro micros micros' text text' h h'
    refine lt_iff_of_lt (text_lt_of_micros h h') (text_lt_of_micros h' h) fun heq => ?_
    subst heq
    rw [h] at h'
    cases h'
    rfl
  · intro text
    rcases niloParse_cases text with hnone | ⟨s, hvalid, rfl⟩
    · exact .inl hnone
    · rw [niloParse_stated hvalid]
      by_cases hin : InRange s.micros
      · rw [if_pos hin]
        exact .inr ⟨s, hvalid, rfl, hin, rfl⟩
      · rw [if_neg hin]
        exact .inl rfl
  · rintro ⟨text, htext, -⟩
    obtain ⟨d, hvalid, rfl, -⟩ := day_of_writeIso hrange.1 hrange.2 htext
    exact hvalid.bounds
  · obtain ⟨d, hvalid, rfl, htext⟩ := Date.writeIso_of_range hin
    exact ⟨_, htext, Date.niloParse_day hvalid⟩
  · intro days days' text text' hrange hrange' h h'
    refine lt_iff_of_lt (text_lt_of_days hrange hrange' h h') (text_lt_of_days hrange' hrange h' h)
      fun heq => ?_
    subst heq
    rw [h] at h'
    cases h'
    rfl
  · intro text
    rcases Date.niloParse_cases text with hnone | ⟨d, hvalid, rfl⟩
    · exact .inl hnone
    · exact .inr ⟨d, hvalid, rfl, hvalid.bounds, Date.niloParse_day hvalid⟩

end Nilo.Time
