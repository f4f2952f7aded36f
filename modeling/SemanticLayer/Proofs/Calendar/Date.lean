import Mathlib
import SemanticLayer.Calendar.Date

/-!
# Days and their numbers

The date of a day number has that number (`Date.toOrdinal_ofOrdinal`) and names a day
(`Date.isDay_ofOrdinal`); the day after the last of a month is the first of the next one
(`Date.toOrdinal_monthEnd`).
-/

namespace SemanticLayer.Date

variable {d : Date} {n y : Int} {m : Nat}

/-! ### Lengths of months and years -/

/-- One for the years with a February 29. -/
def leapDay (y : Int) : Nat := if isLeap y then 1 else 0

theorem leapDay_le (y : Int) : leapDay y ≤ 1 := by
  unfold leapDay
  split_ifs <;> omega

theorem daysInMonth_eq (hm : 1 ≤ m) (hm' : m ≤ 12) :
    daysInMonth y m = monthLengths.getD (m - 1) 30 + if m = 2 then leapDay y else 0 := by
  unfold daysInMonth leapDay monthLengths
  cases isLeap y <;> interval_cases m <;> rfl

theorem daysBeforeMonth_succ (y : Int) (hm : 1 ≤ m) :
    daysBeforeMonth y (m + 1) = daysBeforeMonth y m + daysInMonth y m := by
  obtain ⟨k, rfl⟩ : ∃ k, m = k + 1 := ⟨m - 1, by omega⟩
  simp [daysBeforeMonth, List.range_succ]

/-- The days before a month, by the thirty-one days of most of them from March on. -/
theorem daysBeforeMonth_eq (hm : 1 ≤ m) (hm' : m ≤ 13) :
    daysBeforeMonth y m
      = if m ≤ 2 then 31 * (m - 1) else (153 * (m - 3) + 2) / 5 + 59 + leapDay y := by
  have hlengths : ∀ k, 1 ≤ k → k ≤ 12 → daysInMonth y k
      = monthLengths.getD (k - 1) 30 + if k = 2 then leapDay y else 0 :=
    fun k hk hk' => daysInMonth_eq hk hk'
  induction m, hm using Nat.le_induction with
  | base => rfl
  | succ m hm ih =>
    rw [daysBeforeMonth_succ y hm, ih (by omega), hlengths m hm (by omega)]
    have hm'' : m ≤ 12 := by omega
    unfold monthLengths
    interval_cases m <;> simp <;> omega

theorem daysBeforeYear_succ (y : Int) :
    daysBeforeYear (y + 1) = daysBeforeYear y + 365 + leapDay y := by
  simp only [daysBeforeYear, leapDay, isLeap, Bool.and_eq_true, Bool.or_eq_true, beq_iff_eq,
    bne_iff_ne]
  split_ifs with h <;> omega

theorem daysBeforeYear_mono {y' : Int} (h : y ≤ y') : daysBeforeYear y ≤ daysBeforeYear y' := by
  simp only [daysBeforeYear]
  omega

/-! ### Years of an era -/

/-- Days of an era of 400 years, begun in March, before its year `y`. -/
def daysBeforeEraYear (y : Nat) : Nat := 365 * y + y / 4 - y / 100 + y / 400

/-- The days of an era without the leap days that are over. -/
def plainDays (n : Nat) : Nat := n - n / 1460 + n / 36524 - n / 146096

theorem plainDays_mono : Monotone plainDays := by
  refine monotone_nat_of_le_succ fun n => ?_
  unfold plainDays
  omega

theorem plainDays_of_year :
    ∀ y < 400, 365 * y ≤ plainDays (daysBeforeEraYear y) ∧
      plainDays (daysBeforeEraYear (y + 1) - 1) < 365 * (y + 1) := by
  decide +kernel

theorem plainDays_div {n : Nat} (hn : n < 146097) :
    plainDays n / 365 < 400 ∧ daysBeforeEraYear (plainDays n / 365) ≤ n ∧
      n < daysBeforeEraYear (plainDays n / 365 + 1) := by
  have hlt : plainDays n / 365 < 400 := by
    have hle := plainDays_mono (show n ≤ 146096 by omega)
    rw [show plainDays 146096 = 145999 by decide +kernel] at hle
    omega
  generalize hy : plainDays n / 365 = y at hlt ⊢
  refine ⟨hlt, ?_, ?_⟩
  · by_contra hnot
    obtain ⟨k, rfl⟩ : ∃ k, y = k + 1 := by
      refine ⟨y - 1, ?_⟩
      rcases y with _ | y
      · exact absurd (Nat.zero_le n) hnot
      · rfl
    have hle := plainDays_mono (show n ≤ daysBeforeEraYear (k + 1) - 1 by omega)
    have hlast := (plainDays_of_year k (by omega)).2
    omega
  · by_contra hnot
    rcases Nat.lt_or_ge (y + 1) 400 with h | h
    · have hle := plainDays_mono (show daysBeforeEraYear (y + 1) ≤ n by omega)
      have hfst := (plainDays_of_year (y + 1) h).1
      omega
    · obtain rfl : y = 399 := by omega
      exact hnot (lt_of_lt_of_eq hn (by decide +kernel))

theorem daysBeforeYear_era (a : Int) (y : Nat) :
    daysBeforeYear (y + a * 400 + 1) = 146097 * a + daysBeforeEraYear y := by
  simp only [daysBeforeYear, daysBeforeEraYear]
  omega

/-! ### Dates of day numbers -/

/-- The year and the day of the year, both begun in March, that a day number leads to. -/
theorem exists_ofOrdinal (n : Int) :
    ∃ (y : Int) (k s : Nat), n + 305 = daysBeforeYear (y + 1) + k ∧ k ≤ 364 + leapDay (y + 1) ∧
      s = (5 * k + 2) / 153 ∧
      ofOrdinal n = ⟨y + if s < 10 then 0 else 1, if s < 10 then s + 3 else s - 9,
        k - (153 * s + 2) / 5 + 1⟩ := by
  obtain ⟨e, he⟩ : ∃ e : Nat, (n + 305) % 146097 = e :=
    ⟨((n + 305) % 146097).toNat, by omega⟩
  obtain ⟨hlt, hle, hnx⟩ := plainDays_div (n := e) (by omega)
  have hpl : ((e : Int) - e / 1460 + e / 36524 - e / 146096) = plainDays e := by
    unfold plainDays
    omega
  generalize hy : plainDays e / 365 = y at hlt hle hnx
  generalize ha : (n + 305) / 146097 = a
  have hyr := daysBeforeYear_era a y
  have hlen := daysBeforeYear_succ (y + a * 400 + 1)
  rw [show y + a * 400 + 1 + 1 = ((y + 1 : Nat) : Int) + a * 400 + 1 by omega,
    daysBeforeYear_era] at hlen
  generalize hk : e - daysBeforeEraYear y = k
  have hdays : (e : Int) - (365 * y + y / 4 - y / 100) = k := by
    unfold daysBeforeEraYear at hk hle
    omega
  refine ⟨y + a * 400, k, _, by omega, by omega, rfl, ?_⟩
  have hquotient : (plainDays e : Int) / 365 = y := by omega
  have hmo : (5 * (k : Int) + 2) / 153 = ((5 * k + 2) / 153 : Nat) := by omega
  simp only [ofOrdinal, he, ha, hpl, hquotient, hdays, hmo]
  generalize hs : (5 * k + 2) / 153 = s
  have hday : ((k : Int) - (153 * s + 2) / 5 + 1).toNat = k - (153 * s + 2) / 5 + 1 := by omega
  rw [hday, Date.mk.injEq]
  refine ⟨?_, ?_, rfl⟩ <;> split_ifs <;> omega

theorem toOrdinal_ofOrdinal (n : Int) : (ofOrdinal n).toOrdinal = n := by
  obtain ⟨y, k, s, hn, hk, hs, heq⟩ := exists_ofOrdinal n
  have hleap := leapDay_le (y + 1)
  have hday : (153 * s + 2) / 5 ≤ k := by omega
  have hyr := daysBeforeYear_succ y
  rw [heq]
  unfold toOrdinal
  dsimp only
  rcases Nat.lt_or_ge s 10 with h | h
  · rw [if_pos h, if_pos h, daysBeforeMonth_eq (by omega) (by omega), if_neg (by omega)]
    simp only [Int.add_zero, Int.ofNat_eq_natCast]
    omega
  · rw [if_neg (by omega), if_neg (by omega), daysBeforeMonth_eq (by omega) (by omega),
      if_pos (by omega)]
    simp only [Int.ofNat_eq_natCast]
    obtain rfl | rfl : s = 10 ∨ s = 11 := by omega
    · omega
    · omega

structure IsDay (d : Date) : Prop where
  month_pos : 1 ≤ d.month
  month_le : d.month ≤ 12
  day_pos : 1 ≤ d.day
  day_le : d.day ≤ daysInMonth d.year d.month

theorem isDay_ofOrdinal (n : Int) : (ofOrdinal n).IsDay := by
  obtain ⟨y, k, s, hn, hk, hs, heq⟩ := exists_ofOrdinal n
  have hleap := leapDay_le (y + 1)
  have hs' : s ≤ 11 := by omega
  rw [heq]
  refine ⟨?_, ?_, by dsimp only; omega, ?_⟩
  · dsimp only
    split_ifs <;> omega
  · dsimp only
    split_ifs <;> omega
  · dsimp only
    rw [daysInMonth_eq (by split_ifs <;> omega) (by split_ifs <;> omega)]
    unfold monthLengths
    interval_cases s <;> simp <;> omega

theorem IsDay.toOrdinal_le (h : d.IsDay) :
    daysBeforeYear d.year < d.toOrdinal ∧ d.toOrdinal ≤ daysBeforeYear (d.year + 1) := by
  have hpos := h.day_pos
  have hmo := daysBeforeMonth_succ d.year h.month_pos
  have hend : daysBeforeMonth d.year (d.month + 1) ≤ 365 + leapDay d.year := by
    rw [daysBeforeMonth_eq (by omega) (Nat.add_le_add_right h.month_le 1)]
    have := h.month_le
    split_ifs <;> omega
  have hyr := daysBeforeYear_succ d.year
  have hle := h.day_le
  unfold toOrdinal
  simp only [Int.ofNat_eq_natCast]
  omega

/-! ### Months in a row -/

/-- The day `k` of a month, which is given by the number of months since the year 0. -/
def ofMonth (i : Int) (k : Nat) : Date := ⟨i / 12, (i % 12).toNat + 1, k⟩

def monthEnd (i : Int) : Date := ofMonth i (daysInMonth (i / 12) ((i % 12).toNat + 1))

theorem toOrdinal_monthEnd (i : Int) :
    (monthEnd i).toOrdinal + 1 = (ofMonth (i + 1) 1).toOrdinal := by
  unfold monthEnd ofMonth toOrdinal
  have hmo := daysBeforeMonth_succ (i / 12) (m := (i % 12).toNat + 1) (by omega)
  have hyr := daysBeforeYear_succ (i / 12)
  rcases (show i % 12 < 11 ∨ i % 12 = 11 by omega) with h | h
  · rw [show (i + 1) / 12 = i / 12 by omega, show (i + 1) % 12 = i % 12 + 1 by omega,
      show (i % 12 + 1).toNat = (i % 12).toNat + 1 by omega]
    simp only [Int.ofNat_eq_natCast]
    omega
  · rw [show (i + 1) / 12 = i / 12 + 1 by omega, show (i + 1) % 12 = 0 by omega, h]
    rw [h] at hmo
    have hbef : daysBeforeMonth (i / 12) 13 = 365 + leapDay (i / 12) := by
      rw [daysBeforeMonth_eq (by omega) (by omega), if_neg (by omega)]
    have hfst : daysBeforeMonth (i / 12 + 1) 1 = 0 := rfl
    simp only [Int.ofNat_eq_natCast, Int.reduceToNat, Nat.reduceAdd, Nat.zero_add] at *
    omega

end SemanticLayer.Date
