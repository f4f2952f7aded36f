import SemanticLayer.Proofs.Calendar.Period

/-!
# Numbered periods

The periods of a unit are numbered, and each has a first day (`Date.firstDay`).  Counting back gives
smaller numbers (`Clock.toOrdinal_startDate`), and counting on from there the same periods as
counting from today (`Clock.endAfter_startDate`).
-/

namespace SemanticLayer

open Date

namespace Date

variable {d x s : Date} {n k : Int} {unit : Interval} {w : Nat}

theorem monthIndex_ofMonth (i : Int) (day : Nat) : (ofMonth i day).monthIndex = i := by
  simp only [monthIndex, ofMonth, Int.ofNat_eq_natCast]
  omega

theorem IsMonths.lastOf_addMonths (h : IsMonths unit k) (d : Date) (n : Int) (w : Nat) :
    (d.addMonths n).bind (·.lastOf unit w) = if inRange ((d.monthIndex + n) / 12) then
          .ok (monthEnd (k * ((d.monthIndex + n) / k) + k - 1))
        else .error .year := by
  split_ifs with hrg
  · obtain ⟨day, hy⟩ := exists_addMonths hrg
    rw [hy]
    exact h.lastOf_eq _ _ _
  · have herr : d.addMonths n = .error .year := if_neg hrg
    rw [herr]
    rfl

theorem addDays_eq (d : Date) (n : Int) :
    d.addDays n = if 1 ≤ d.toOrdinal + n ∧ d.toOrdinal + n ≤ lastOrdinal
      then .ok (ofOrdinal (d.toOrdinal + n)) else .error .day := by
  simp [addDays]

theorem lastOf_addDays (d : Date) (n : Int) (w : Nat) : (d.addDays n).bind (·.lastOf .week w)
      = if 1 ≤ d.toOrdinal + n ∧ d.toOrdinal + n + (6 - (d.toOrdinal + n - w) % 7) ≤ lastOrdinal
        then .ok (ofOrdinal (d.toOrdinal + n + (6 - (d.toOrdinal + n - w) % 7)))
        else .error .day := by
  rw [addDays_eq]
  split_ifs with hday hweek hweek
  · simp only [Except.bind, lastOf, daysIntoWeek, addDays_eq, toOrdinal_ofOrdinal]
    exact if_pos ⟨by omega, hweek.2⟩
  · simp only [Except.bind, lastOf, daysIntoWeek, addDays_eq, toOrdinal_ofOrdinal]
    exact if_neg fun h => hweek ⟨hday.1, h.2⟩
  · omega
  · rfl

/-- Counting on from the first day of a period reaches the same periods as counting from any of its
days. -/
theorem lastOf_shift_firstOf {j : Int} (hun : unit ≠ .unknown) (hx : d.shift unit (-n) = .ok x)
    (hs : x.firstOf unit w = .ok s) (hj : 0 ≤ j) :
    (s.shift unit j).bind (·.lastOf unit w) = (d.shift unit (-(n - j))).bind (·.lastOf unit w) := by
  have hmos : ∀ {k}, IsMonths unit k →
      (s.shift unit j).bind (·.lastOf unit w) = (d.shift unit (-(n - j))).bind (·.lastOf unit w) := by
    intro k h
    rw [h.shift_eq] at hx
    obtain ⟨-, day, rfl⟩ := addMonths_eq_ok hx
    rw [h.firstOf_eq, Except.ok.injEq] at hs
    subst hs
    rw [h.shift_eq, h.shift_eq, h.lastOf_addMonths, h.lastOf_addMonths, monthIndex_ofMonth,
      show d.monthIndex + k * -(n - j) = d.monthIndex + k * -n + k * j by ring]
    generalize d.monthIndex + k * -n = i
    cases h <;> congr 3 <;> omega
  cases unit with
  | unknown => exact absurd rfl hun
  | day =>
    obtain ⟨hord, -⟩ := addDays_eq_ok hx
    cases hs
    simp only [shift, addDays_eq, show x.toOrdinal + j = d.toOrdinal + -(n - j) by omega]
  | week =>
    obtain ⟨hord, -⟩ := addDays_eq_ok hx
    obtain ⟨hfst, hpos⟩ := addDays_eq_ok hs
    unfold daysIntoWeek at hfst hpos
    simp only [Int.ofNat_eq_natCast] at hfst hpos
    -- the day reached from the first day is the first of the week that the other one reaches
    have hweek : s.toOrdinal + 7 * j + (6 - (s.toOrdinal + 7 * j - w) % 7)
        = d.toOrdinal + 7 * -(n - j) + (6 - (d.toOrdinal + 7 * -(n - j) - w) % 7) := by omega
    simp only [shift, lastOf_addDays, hweek]
    congr 1
    rw [eq_iff_iff]
    omega
  | month => exact hmos .month
  | quarter => exact hmos .quarter
  | year => exact hmos .year

/-! ### Numbered periods -/

def periodOf (unit : Interval) (w : Nat) (d : Date) : Int :=
  match unit with
  | .unknown | .day => d.toOrdinal
  | .week => (d.toOrdinal - w) / 7
  | .month => d.monthIndex
  | .quarter => d.monthIndex / 3
  | .year => d.monthIndex / 12

def firstDay (unit : Interval) (w : Nat) (j : Int) : Int :=
  match unit with
  | .unknown | .day => j
  | .week => 7 * j + w
  | .month => (ofMonth j 1).toOrdinal
  | .quarter => (ofMonth (3 * j) 1).toOrdinal
  | .year => (ofMonth (12 * j) 1).toOrdinal

theorem toOrdinal_ofMonth (i : Int) (day : Nat) :
    (ofMonth i day).toOrdinal = (ofMonth i 1).toOrdinal + day - 1 := by
  simp only [ofMonth, toOrdinal, Int.ofNat_eq_natCast]
  omega

theorem toOrdinal_ofMonth_strictMono : StrictMono fun i => (ofMonth i 1).toOrdinal := by
  refine strictMono_int_of_lt_succ fun i => ?_
  have hlengths : ∀ m < 12, 0 < monthLengths.getD m 30 := by decide
  have hpos := hlengths (i % 12).toNat (by omega)
  have hlen := daysInMonth_eq (y := i / 12) (m := (i % 12).toNat + 1) (by omega) (by omega)
  have hend := toOrdinal_monthEnd i
  rw [monthEnd, toOrdinal_ofMonth] at hend
  rw [Nat.add_sub_cancel] at hlen
  omega

theorem firstDay_strictMono (unit : Interval) (w : Nat) : StrictMono (firstDay unit w) := by
  intro i j h
  cases unit with
  | unknown => exact h
  | day => exact h
  | week => simp only [firstDay]; omega
  | month => exact toOrdinal_ofMonth_strictMono h
  | quarter => exact toOrdinal_ofMonth_strictMono (by omega : 3 * i < 3 * j)
  | year => exact toOrdinal_ofMonth_strictMono (by omega : 12 * i < 12 * j)

theorem IsDay.eq_ofMonth (h : d.IsDay) : d = ofMonth d.monthIndex d.day := by
  have hpos := h.month_pos
  have hle := h.month_le
  obtain ⟨y, m, day⟩ := d
  simp only [ofMonth, monthIndex, Int.ofNat_eq_natCast, mk.injEq, and_true] at *
  omega

theorem IsDay.firstDay_le (h : d.IsDay) (unit : Interval) (w : Nat) :
    firstDay unit w (periodOf unit w d) ≤ d.toOrdinal := by
  have hmo : ∀ i ≤ d.monthIndex, (ofMonth i 1).toOrdinal ≤ d.toOrdinal := by
    intro i hi
    have hfst := toOrdinal_ofMonth_strictMono.monotone hi
    have hday := toOrdinal_ofMonth d.monthIndex d.day
    rw [← h.eq_ofMonth] at hday
    have hpos := h.day_pos
    omega
  cases unit with
  | unknown => exact le_rfl
  | day => exact le_rfl
  | week => simp only [firstDay, periodOf]; omega
  | month => exact hmo _ le_rfl
  | quarter => exact hmo (3 * (d.monthIndex / 3)) (by omega)
  | year => exact hmo (12 * (d.monthIndex / 12)) (by omega)

theorem IsDay.elapsed_le (h : d.IsDay) (hun : unit = .week ∨ unit = .year) (w : Nat) (j : Int) :
    d.toOrdinal - firstDay unit w (periodOf unit w d)
      ≤ firstDay unit w (j + 1) - firstDay unit w j := by
  rcases hun with rfl | rfl
  · simp only [firstDay, periodOf]
    omega
  · have hyr : ∀ y, firstDay .year w y = daysBeforeYear y + 1 := by
      intro y
      have hix : 12 * y / 12 = y := by omega
      have hmo : 12 * y % 12 = 0 := by omega
      simp only [firstDay, ofMonth, hix, hmo]
      change daysBeforeYear y + 0 + 1 = _
      rw [Int.add_zero]
    have hthis : periodOf .year w d = d.year := by
      rw [h.eq_ofMonth, periodOf, monthIndex_ofMonth]
      rfl
    have hleap := leapDay_le d.year
    have hlen := daysBeforeYear_succ d.year
    have hlen' := daysBeforeYear_succ j
    have hend := h.toOrdinal_le
    rw [hthis, hyr, hyr, hyr]
    omega

end Date

namespace Clock

variable {c : Clock} {unit : Interval} {lag : Int} {d s first : Date}

section

variable (hun : unit ≠ .unknown)
include hun

theorem startDate_eq :
    c.startDate lag unit = ((c.today.shift unit (-lag)).bind (·.firstOf unit c.weekStart)).mapError
      ofDateError := by
  unfold startDate reach
  rw [if_neg (by simpa using hun)]
  cases c.today.shift unit (-lag) <;> rfl

theorem endAfter_eq :
    c.endAfter d lag unit = (((d.shift unit lag).bind (·.lastOf unit c.weekStart)).mapError
      ofDateError).map (Moment.endOfPeriod unit) := by
  unfold endAfter reach
  rw [if_neg (by simpa using hun)]
  cases d.shift unit lag with
  | error e => rfl
  | ok x =>
    change (c.last x unit >>= _) = ((x.lastOf unit c.weekStart).mapError ofDateError).map _
    unfold Clock.last
    cases x.lastOf unit c.weekStart <;> rfl

theorem startDate_eq_ok : c.startDate lag unit = .ok s ↔
      ∃ x, c.today.shift unit (-lag) = .ok x ∧ x.firstOf unit c.weekStart = .ok s := by
  rw [startDate_eq hun]
  cases c.today.shift unit (-lag) with
  | error e => simp [Except.bind, Except.mapError]
  | ok x => cases hx : x.firstOf unit c.weekStart <;> simp [Except.bind, Except.mapError, hx]

/-- **The period `lag` units ago begins on its first day**, which is in the calendar. -/
theorem toOrdinal_startDate (hs : c.startDate lag unit = .ok s) :
    s.toOrdinal = Date.firstDay unit c.weekStart (Date.periodOf unit c.weekStart c.today - lag) ∧
      1 ≤ s.toOrdinal := by
  obtain ⟨x, hx, hs⟩ := (startDate_eq_ok hun).mp hs
  have hmos : ∀ {n : Int}, Date.IsMonths unit n →
      s = ofMonth (n * (c.today.monthIndex / n - lag)) 1 ∧ 1 ≤ s.toOrdinal := by
    intro n h
    have hn : 0 < n := by cases h <;> decide
    rw [h.shift_eq] at hx
    obtain ⟨hrg, day, rfl⟩ := addMonths_eq_ok hx
    rw [h.firstOf_eq, Except.ok.injEq, Int.add_mul_ediv_left _ _ hn.ne'] at hs
    rw [inRange, Bool.and_eq_true, decide_eq_true_iff] at hrg
    have hyr : 12 ≤ n * (c.today.monthIndex / n - lag) := by cases h <;> omega
    have hpos := toOrdinal_ofMonth_strictMono.monotone hyr
    exact ⟨hs.symm, hs ▸ hpos⟩
  cases unit with
  | unknown => exact absurd rfl hun
  | day =>
    cases hs
    have hday := addDays_eq_ok hx
    simp only [firstDay, periodOf]
    omega
  | week =>
    have hday := addDays_eq_ok hx
    have hfst := addDays_eq_ok hs
    simp only [daysIntoWeek, Int.ofNat_eq_natCast, firstDay, periodOf] at hfst ⊢
    omega
  | month =>
    obtain ⟨rfl, hpos⟩ := hmos .month
    refine ⟨?_, hpos⟩
    simp only [Int.one_mul, Int.ediv_one]
    rfl
  | quarter => exact ⟨congrArg _ (hmos .quarter).1, (hmos .quarter).2⟩
  | year => exact ⟨congrArg _ (hmos .year).1, (hmos .year).2⟩

end

theorem endAfter_startDate {n : Int} (hn : 0 ≤ n) (hs : c.startDate lag unit = .ok s) :
    c.endAfter s n unit = c.endMoment (lag - n) unit := by
  cases hun : decide (unit = .unknown)
  · have hun := of_decide_eq_false hun
    obtain ⟨x, hx, hs⟩ := (startDate_eq_ok hun).mp hs
    change _ = c.endAfter c.today (-(lag - n)) unit
    rw [endAfter_eq hun, endAfter_eq hun, lastOf_shift_firstOf hun hx hs hn]
  · obtain rfl := of_decide_eq_true hun
    rfl

theorem exists_startDate_zero {k : Nat} (hnow : Date.inRange c.today.year = true)
    (hun : unit ≠ .unknown) (hs : c.startDate k unit = .ok s) :
    ∃ first, c.startDate 0 unit = .ok first := by
  induction k generalizing s with
  | zero => exact ⟨s, hs⟩
  | succ k ih =>
    obtain ⟨x, hx, -⟩ := (startDate_eq_ok hun).mp hs
    obtain ⟨y, -, first, hy, -, hfst, -⟩ :=
      lastOf_add_one (isDay_ofOrdinal _) hnow (by omega) hx c.weekStart hun
    rw [Int.natCast_succ, Int.add_sub_cancel] at hy
    exact ih ((startDate_eq_ok hun).mpr ⟨y, hy, hfst⟩)

theorem toOrdinal_today (hzone : c.zone = .utc) : c.today.toOrdinal = c.instant / 86400 := by
  have hoffset : Zone.utc.offsetAt c.instant = 0 := rfl
  rw [today, Zone.wallOf, hzone, hoffset, Int.add_zero]
  exact toOrdinal_ofOrdinal _

theorem elapsedDays_eq (hzone : c.zone = .utc) (hfst : c.startDate 0 unit = .ok first) :
    c.elapsedDays unit = .ok (c.today.toOrdinal - first.toOrdinal) := by
  have hmidnight : Zone.utc.midnight first = first.toOrdinal * 86400 := rfl
  rw [elapsedDays, hfst, hzone, Result.ok_bind, hmidnight, toOrdinal_today hzone]
  change Except.ok _ = _
  congr 1
  omega

theorem endAfter_day {n : Int} (hpos : 1 ≤ d.toOrdinal + n)
    (hle : d.toOrdinal + n ≤ Date.lastOrdinal) :
    ∃ e, c.endAfter d n .day = .ok (.endOfDay e) ∧ e.toOrdinal = d.toOrdinal + n := by
  obtain ⟨e, he, hord⟩ := exists_addDays hpos hle
  refine ⟨e, ?_, hord⟩
  rw [endAfter_eq (by decide), shift, he]
  rfl

end Clock

end SemanticLayer
