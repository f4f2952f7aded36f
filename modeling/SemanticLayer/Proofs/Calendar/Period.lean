import SemanticLayer.Proofs.Calendar.Date
import SemanticLayer.Proofs.Outcome

/-!
# Periods in a row

The day after the last day of a period is the first day of the next one (`Date.lastOf_add_one`).
Periods end one second before the next one starts, but for quarters, which end with the midnight of
their last day (`Clock.endMoment_next_start`).
-/

namespace SemanticLayer

variable {k : Int}

namespace Date

variable {d x y : Date} {n lag : Int} {unit : Interval}

/-! ### Days later -/

theorem addDays_eq_ok (h : d.addDays n = .ok x) :
    x.toOrdinal = d.toOrdinal + n ∧ 1 ≤ d.toOrdinal + n := by
  unfold addDays at h
  dsimp only at h
  split_ifs at h with hrg
  cases h
  rw [Bool.and_eq_true, decide_eq_true_iff] at hrg
  exact ⟨toOrdinal_ofOrdinal _, hrg.1⟩

theorem exists_addDays (h : 1 ≤ d.toOrdinal + n) (h' : d.toOrdinal + n ≤ lastOrdinal) :
    ∃ x, d.addDays n = .ok x ∧ x.toOrdinal = d.toOrdinal + n := by
  refine ⟨ofOrdinal (d.toOrdinal + n), ?_, toOrdinal_ofOrdinal _⟩
  unfold addDays
  rw [if_pos (by simp [h, h'])]

theorem IsDay.le_lastOrdinal (h : d.IsDay) (hyr : inRange d.year = true) :
    d.toOrdinal ≤ lastOrdinal := by
  rw [inRange, Bool.and_eq_true, decide_eq_true_iff, decide_eq_true_iff] at hyr
  calc d.toOrdinal ≤ daysBeforeYear (d.year + 1) := h.toOrdinal_le.2
    _ ≤ daysBeforeYear 10000 := daysBeforeYear_mono (by omega)
    _ = lastOrdinal := by decide

/-! ### Months later -/

/-- The month of a date, counted from the year 0. -/
def monthIndex (d : Date) : Int := d.year * 12 + Int.ofNat (d.month - 1)

theorem addMonths_eq_ok (h : d.addMonths n = .ok x) :
    inRange ((d.monthIndex + n) / 12) = true ∧ ∃ k, x = ofMonth (d.monthIndex + n) k := by
  unfold addMonths at h
  dsimp only at h
  split_ifs at h with hrg
  cases h
  exact ⟨hrg, _, rfl⟩

theorem exists_addMonths (h : inRange ((d.monthIndex + n) / 12) = true) :
    ∃ k, d.addMonths n = .ok (ofMonth (d.monthIndex + n) k) :=
  ⟨_, if_pos h⟩

/-- The number of months of the units that are made of months. -/
inductive IsMonths : Interval → Int → Prop
  | month : IsMonths .month 1
  | quarter : IsMonths .quarter 3
  | year : IsMonths .year 12

theorem IsMonths.shift_eq (h : IsMonths unit k) (d : Date) (n : Int) :
    d.shift unit n = d.addMonths (k * n) := by
  cases h with
  | month => rw [Int.one_mul]; rfl
  | quarter => rfl
  | year => rfl

theorem IsMonths.firstOf_eq (h : IsMonths unit k) (i : Int) (day w : Nat) :
    (ofMonth i day).firstOf unit w = .ok (ofMonth (k * (i / k)) 1) := by
  cases h with
  | month => simp [firstOf, ofMonth]
  | quarter =>
    have hyr : 3 * (i / 3) / 12 = i / 12 := by omega
    have hmo : (3 * (i / 3) % 12).toNat + 1 = ((i % 12).toNat + 1 + 2) / 3 * 3 - 2 := by omega
    simp only [firstOf, ofMonth, Date.quarter, hyr, hmo]
  | year =>
    have hyr : 12 * (i / 12) / 12 = i / 12 := by omega
    have hmo : (12 * (i / 12) % 12).toNat + 1 = 1 := by omega
    simp only [firstOf, ofMonth, hyr, hmo]

theorem IsMonths.lastOf_eq (h : IsMonths unit k) (i : Int) (day w : Nat) :
    (ofMonth i day).lastOf unit w = .ok (monthEnd (k * (i / k) + k - 1)) := by
  unfold monthEnd
  cases h with
  | month => simp [lastOf, ofMonth]
  | quarter =>
    have hyr : (3 * (i / 3) + 3 - 1) / 12 = i / 12 := by omega
    have hmo : ((3 * (i / 3) + 3 - 1) % 12).toNat + 1 = ((i % 12).toNat + 1 + 2) / 3 * 3 := by
      omega
    simp only [lastOf, ofMonth, Date.quarter, hyr, hmo]
  | year =>
    have hyr : (12 * (i / 12) + 12 - 1) / 12 = i / 12 := by omega
    have hmo : ((12 * (i / 12) + 12 - 1) % 12).toNat + 1 = 12 := by omega
    have hlen : daysInMonth (i / 12) 12 = 31 := daysInMonth_eq (by omega) le_rfl
    simp only [lastOf, ofMonth, hyr, hmo, hlen]

/-! ### Periods later -/

section

variable (hd : d.IsDay) (hyr : inRange d.year = true) (hlag : 1 ≤ lag)
  (hx : d.shift unit (-lag) = .ok x) (w : Nat)
include hd hyr hlag hx

theorem IsMonths.lastOf_add_one (h : IsMonths unit k) :
    ∃ y last first, d.shift unit (-(lag - 1)) = .ok y ∧ x.lastOf unit w = .ok last ∧
      y.firstOf unit w = .ok first ∧ last.toOrdinal + 1 = first.toOrdinal := by
  rw [h.shift_eq] at hx ⊢
  obtain ⟨hrg, day, rfl⟩ := addMonths_eq_ok hx
  have hix : d.monthIndex / 12 = d.year := by
    have hle := hd.month_le
    unfold monthIndex
    simp only [Int.ofNat_eq_natCast]
    omega
  have hk : 0 < k := by cases h <;> omega
  have hnx : d.monthIndex + k * -(lag - 1) = d.monthIndex + k * -lag + k := by ring
  have hle : d.monthIndex + k * -lag + k ≤ d.monthIndex := by
    have := Int.mul_le_mul_of_nonneg_left hlag hk.le
    lia
  obtain ⟨day', hy⟩ := exists_addMonths (d := d) (n := k * -(lag - 1)) (by
    rw [inRange, Bool.and_eq_true, decide_eq_true_iff, decide_eq_true_iff] at hrg hyr ⊢
    omega)
  refine ⟨_, _, _, hy, h.lastOf_eq _ _ _, h.firstOf_eq _ _ _, ?_⟩
  rw [toOrdinal_monthEnd, hnx, Int.add_ediv_of_dvd_right (Int.dvd_refl k), Int.ediv_self hk.ne']
  congr 2
  ring

/-- **The next period begins on the day after the last one of a period.**  Wherever the day `lag`
units ago is in the calendar, so are the days in question. -/
theorem lastOf_add_one (hun : unit ≠ .unknown) :
    ∃ y last first, d.shift unit (-(lag - 1)) = .ok y ∧ x.lastOf unit w = .ok last ∧
      y.firstOf unit w = .ok first ∧ last.toOrdinal + 1 = first.toOrdinal := by
  have hend := hd.le_lastOrdinal hyr
  cases unit with
  | unknown => exact absurd rfl hun
  | day =>
    obtain ⟨hord, hpos⟩ := addDays_eq_ok hx
    obtain ⟨y, hy, hnx⟩ := exists_addDays (d := d) (n := -(lag - 1)) (by omega) (by omega)
    exact ⟨y, x, y, hy, rfl, rfl, by omega⟩
  | week =>
    obtain ⟨hord, hpos⟩ := addDays_eq_ok hx
    obtain ⟨y, hy, hnx⟩ := exists_addDays (d := d) (n := 7 * -(lag - 1)) (by omega) (by omega)
    -- both days are equally far into their weeks
    have hinto : y.daysIntoWeek w = x.daysIntoWeek w := by
      unfold daysIntoWeek
      omega
    have hbound : 0 ≤ x.daysIntoWeek w ∧ x.daysIntoWeek w ≤ 6 := by
      unfold daysIntoWeek
      omega
    obtain ⟨last, hlast, hlast'⟩ := exists_addDays (d := x) (n := 6 - x.daysIntoWeek w)
      (by omega) (by omega)
    obtain ⟨first, hfst, hfst'⟩ := exists_addDays (d := y) (n := -(y.daysIntoWeek w))
      (by omega) (by omega)
    exact ⟨y, last, first, hy, hlast, hfst, by omega⟩
  | month => exact IsMonths.month.lastOf_add_one hd hyr hlag hx w
  | quarter => exact IsMonths.quarter.lastOf_add_one hd hyr hlag hx w
  | year => exact IsMonths.year.lastOf_add_one hd hyr hlag hx w

end

end Date

namespace Moment

theorem toSeconds_startOfDay (d : Date) : (startOfDay d).toSeconds = d.toOrdinal * 86400 := by
  simp [startOfDay, toSeconds, secondOfDay]

theorem toSeconds_endOfDay (d : Date) : (endOfDay d).toSeconds + 1 = (d.toOrdinal + 1) * 86400 := by
  simp only [endOfDay, toSeconds, secondOfDay, Option.getD_none, Int.ofNat_eq_natCast]
  omega

end Moment

namespace Clock

variable {c : Clock} {unit : Interval} {lag : Int}

/-- The seconds from the end of a period to the start of the next one. -/
def gapAfter (unit : Interval) : Int := if unit = .quarter then 86400 else 1

/-- **Periods follow each other.**  Wherever the day `lag` units ago is in the calendar, the period
there has an end, the period after it has a start, and the start is the gap of the unit later: one
second, and for quarters the whole last day. -/
theorem endMoment_next_start (hnow : Date.inRange c.today.year = true) (hunit : unit ≠ .unknown)
    (hlag : 1 ≤ lag) (hreach : ∃ d, c.today.shift unit (-lag) = .ok d) :
    ∃ stop start, c.endMoment lag unit = .ok stop ∧ c.startDate (lag - 1) unit = .ok start ∧
      stop.toSeconds + gapAfter unit = (Moment.startOfDay start).toSeconds := by
  obtain ⟨x, hx⟩ := hreach
  obtain ⟨y, last, first, hy, hlast, hfirst, hnext⟩ :=
    Date.lastOf_add_one (Date.isDay_ofOrdinal _) hnow hlag hx c.weekStart hunit
  have hreached : ∀ {n d}, c.today.shift unit n = .ok d → reach c.today unit n = .ok d := by
    intro n d hd
    rw [reach, if_neg (by simpa using hunit), hd]
    rfl
  refine ⟨.endOfPeriod unit last, first, ?_, ?_, ?_⟩
  · unfold endMoment Clock.last
    rw [hreached hx, Result.ok_bind, hlast]
    rfl
  · unfold startDate Clock.first
    rw [hreached hy, Result.ok_bind, hfirst]
    rfl
  · rw [Moment.toSeconds_startOfDay, Moment.endOfPeriod, gapAfter]
    simp only [beq_iff_eq]
    split_ifs
    · rw [Moment.toSeconds_startOfDay]
      omega
    · rw [Moment.toSeconds_endOfDay, hnext]

/-- The fifteenth of June 2023, half past ten; weeks begin on Monday. -/
def midJune : Clock := { instant := 63822507630, zone := .utc, weekStart := 1 }

theorem endMoment_next_start_midJune :
    (∃ d, midJune.today.shift .month (-4) = .ok d) ∧
      ∃ stop start, midJune.endMoment 4 .month = .ok stop ∧
        midJune.startDate (4 - 1) .month = .ok start ∧
        stop.toSeconds + gapAfter .month = (Moment.startOfDay start).toSeconds :=
  ⟨⟨_, rfl⟩, endMoment_next_start (by decide +kernel) (by decide) (by decide) ⟨_, rfl⟩⟩

/-- The last quarter is over when its last day begins. -/
theorem last_quarter_lacks_a_day :
    ∃ stop start, midJune.endMoment 1 .quarter = .ok stop ∧
      midJune.startDate 0 .quarter = .ok start ∧ stop.wall = "2023-03-31T00:00:00" ∧
      (Moment.startOfDay start).wall = "2023-04-01T00:00:00" ∧
      stop.toSeconds + 1 ≠ (Moment.startOfDay start).toSeconds :=
  ⟨_, _, rfl, rfl, by decide +kernel, by decide +kernel, by decide +kernel⟩

end Clock

end SemanticLayer
