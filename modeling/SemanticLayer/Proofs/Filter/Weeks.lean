import SemanticLayer.Proofs.Calendar.Numbered

/-!
# Weeks in SQL and weeks in filters

In SQL the truncation to Mondays is moved by days, in filters weeks are counted from a weekday.
Both begin weeks on the latest day of the configured name (`weeks_agree_iff`), unless it has
capitals, which only SQL knows (`capital_sunday_apart`).
-/

namespace SemanticLayer

/-- The expressions that truncate to weeks. -/
inductive WeekExpression where
  | column
  | date (e : WeekExpression)
  | time (e : WeekExpression)
  | later (e : WeekExpression) (days : Nat)
  | earlier (e : WeekExpression) (days : Nat)
  /-- Midnight of the Monday on or before. -/
  | monday (e : WeekExpression)

namespace WeekExpression

def sql (days : Nat → String) (column : String) : WeekExpression → String
  | .column => column
  | .date e => "CAST(" ++ e.sql days column ++ " AS DATE)"
  | .time e => "CAST(" ++ e.sql days column ++ " AS TIMESTAMP)"
  | .later e n => e.sql days column ++ " + " ++ days n
  | .earlier e n => e.sql days column ++ " - " ++ days n
  | .monday e => "DATE_TRUNC('WEEK', " ++ e.sql days column ++ ")"

/-- The value of an expression in seconds, the column being `t`; day 1 is a Monday. -/
def value (t : Int) : WeekExpression → Int
  | .column => t
  | .date e => e.value t / 86400 * 86400
  | .time e => e.value t
  | .later e n => e.value t + n * 86400
  | .earlier e n => e.value t - n * 86400
  | .monday e => (e.value t / 86400 - (e.value t / 86400 - 1) % 7) * 86400

/-- How days are written where weeks are truncated to Mondays. -/
def days? : Warehouse → Option (Nat → String)
  | .snowflake | .redshift => some toString
  | .postgres | .druid | .duckDb | .databricks => some fun n => "INTERVAL '" ++ toString n ++ "' DAY"
  | _ => none

end WeekExpression

variable {warehouse : Warehouse} {days : Nat → String} {name : String} {w : Nat}

theorem weekSql_eq_ok (hdays : WeekExpression.days? warehouse = some days)
    (hn : (name, w) ∈ Filter.weekdays) (column : String) (datatype : Result String) :
    ∃ e : WeekExpression, Timeframe.weekSql column name warehouse datatype = .ok (e.sql days column) ∧
      ∀ t, e.value t = (t / 86400 - (t / 86400 - w) % 7) * 86400 := by
  -- the column is cast to a date or to a time, then moved if weeks do not begin on Monday
  obtain ⟨cast, hval, hno, hsome⟩ : ∃ cast : WeekExpression,
      (∀ t, cast.value t / 86400 = t / 86400) ∧
      Timeframe.weekTrunc column none warehouse = .ok (cast.monday.sql days column) ∧
      ∀ n, Timeframe.weekTrunc column (some (toString n)) warehouse
        = .ok (((cast.later n).monday.earlier n).sql days column) := by
    have happ : ∀ a b c d : String, a ++ b ++ " + " ++ c ++ ") - " ++ d
        = a ++ (b ++ " + " ++ c) ++ ")" ++ " - " ++ d := by
      intro a b c d
      rw [show ") - " = ")" ++ " - " by decide]
      simp only [String.append_assoc]
    cases warehouse <;> cases hdays
    case snowflake | redshift =>
      exact ⟨.date .column, fun t => Int.mul_ediv_cancel _ (by decide), rfl,
        fun n => congrArg Except.ok (happ _ _ _ _)⟩
    all_goals
      exact ⟨.time .column, fun t => rfl, rfl, fun n => congrArg Except.ok (happ _ _ _ _)⟩
  have hbig : warehouse ≠ .bigquery := by
    rintro rfl
    cases hdays
  have hmoved : ∀ n, name ≠ "monday" → Timeframe.weekOffsets.find? (·.1 == name) = some (name, n) →
      Timeframe.weekSql column name warehouse datatype
        = .ok (((cast.later n).monday.earlier n).sql days column) := by
    intro n hne hfi
    rw [Timeframe.weekSql, if_neg (by simpa using hne), hfi]
    simp only [hsome, beq_false_of_ne hbig]
    rfl
  simp only [Filter.weekdays, List.mem_cons, Prod.mk.injEq, List.not_mem_nil, or_false] at hn
  rcases hn with ⟨rfl, rfl⟩ | h | h | h | h | h | h
  · refine ⟨_, hno, fun t => ?_⟩
    simp only [WeekExpression.value, hval]
    rfl
  all_goals
    obtain ⟨rfl, rfl⟩ := h
    refine ⟨_, hmoved _ (by decide) rfl, fun t => ?_⟩
    have := hval t
    simp only [WeekExpression.value]
    omega

theorem weekStart_eq (hn : (Text.lower name, w) ∈ Filter.weekdays) :
    Filter.weekStart (.text name) = if name = Text.lower name then w else 1 := by
  have hlow : ∀ a ∈ Filter.weekdays, Text.lower a.1 = a.1 := by decide
  have hdis : ∀ a ∈ Filter.weekdays, ∀ b ∈ Filter.weekdays, a.1 = b.1 → a.2 = b.2 := by decide
  change ((Filter.weekdays.find? (·.1 == name)).map (·.2)).getD 1 = _
  cases hfi : Filter.weekdays.find? (·.1 == name) with
  | none =>
    refine (if_neg fun hsame => ?_).symm
    simpa [← hsame] using List.find?_eq_none.mp hfi _ hn
  | some a =>
    have ha := List.mem_of_find?_eq_some hfi
    have hkey : a.1 = name := by simpa using List.find?_some hfi
    have hsm : Text.lower name = name := hkey ▸ hlow a ha
    rw [if_pos hsm.symm]
    exact hdis a ha _ hn (hkey.trans hsm.symm)

theorem weekStart_of_model {p : Project} {v : View} {m : Model} (hmd : v.model p = .ok (some m))
    (hday : m.definition.get "week_start_day" = .text name)
    (hn : (Text.lower name, w) ∈ Filter.weekdays) : v.weekStart p = .ok (Text.lower name) := by
  have htru : (Value.text name).truthy = true := by
    have hem : ∀ a ∈ Filter.weekdays, a.1 ≠ Text.lower "" := by decide
    by_contra hff
    obtain rfl : name = "" := by simpa [Value.truthy] using hff
    exact hem _ hn rfl
  unfold View.weekStart
  rw [hmd, Result.ok_bind]
  dsimp only
  rw [hday, if_pos htru]
  rfl

/-- A week in SQL begins on the latest day of the configured name, whatever its letters.
**Weeks in filters begin there exactly if the name has small letters only, or is Monday.** -/
theorem weeks_agree_iff {p : Project} {v : View} {m : Model} {c : Clock} {t : Int}
    (hdays : WeekExpression.days? warehouse = some days) (hmodel : v.model p = .ok (some m))
    (hday : m.definition.get "week_start_day" = .text name)
    (hname : (Text.lower name, w) ∈ Filter.weekdays)
    (hweek : c.weekStart = Filter.weekStart (m.definition.get "week_start_day"))
    (ht : t / 86400 = c.today.toOrdinal) (hnow : Date.inRange c.today.year = true)
    (hcal : c.today.daysIntoWeek c.weekStart < c.today.toOrdinal)
    (column : String) (datatype : Result String) :
    ∃ (e : WeekExpression) (start : Date),
      (v.weekStart p >>= fun day => Timeframe.weekSql column day warehouse datatype)
        = .ok (e.sql days column) ∧
      IsGreatest {n | n ≤ c.today.toOrdinal ∧ (Date.ofOrdinal n).weekday = w} (e.value t / 86400) ∧
      e.value t % 86400 = 0 ∧ c.startDate 0 .week = .ok start ∧
      (e.value t = (Moment.startOfDay start).toSeconds ↔
        name = Text.lower name ∨ Text.lower name = "monday") := by
  obtain ⟨e, hsql, hvalue⟩ := weekSql_eq_ok hdays hname column datatype
  have hnumbers : ∀ a ∈ Filter.weekdays, a.2 < 7 ∧ (a.1 = "monday" ↔ a.2 = 1) := by decide
  obtain ⟨hw, hmonday⟩ := hnumbers _ hname
  have htoday : c.today.IsDay := Date.isDay_ofOrdinal _
  have hend := htoday.le_lastOrdinal hnow
  unfold Date.daysIntoWeek at hcal
  obtain ⟨x, hx, hxo⟩ := Date.exists_addDays (d := c.today) (n := 7 * -0) (by omega) (by omega)
  obtain ⟨start, hs, -⟩ := Date.exists_addDays (d := x) (n := -(x.daysIntoWeek c.weekStart))
    (by unfold Date.daysIntoWeek; omega) (by unfold Date.daysIntoWeek; omega)
  have hstart : c.startDate 0 .week = .ok start :=
    (Clock.startDate_eq_ok (by decide)).mpr ⟨x, hx, hs⟩
  refine ⟨e, start, ?_, ?_, ?_, hstart, ?_⟩
  · rw [weekStart_of_model hmodel hday hname, Result.ok_bind, hsql]
  · have hweekday : ∀ n : Int, (Date.ofOrdinal n).weekday = w ↔ n % 7 = w := by
      intro n
      rw [Date.weekday, Date.toOrdinal_ofOrdinal]
      omega
    simp only [hvalue, hweekday, ht]
    refine ⟨⟨by omega, by omega⟩, ?_⟩
    rintro n ⟨hle, hn⟩
    omega
  · rw [hvalue]
    omega
  · obtain ⟨hfirst, -⟩ := Clock.toOrdinal_startDate (by decide) hstart
    rw [hday, weekStart_eq hname] at hweek
    rw [hmonday, hvalue, Moment.toSeconds_startOfDay, hfirst, ht]
    simp only [Date.firstDay, Date.periodOf, hweek]
    split_ifs with hsmall
    · exact iff_of_true (by omega) (.inl hsmall)
    · rw [or_iff_right hsmall]
      omega

/-- A view looked at for a model whose weeks begin on a day. -/
def weekly (day : String) : View :=
  { definition := [], shelf := 0, always := .null, expanded := false,
    asked := some ⟨[("week_start_day", .text day)]⟩ }

theorem weeks_agree_iff_saturday :
    (weekly "saturday").model default = .ok (some ⟨[("week_start_day", .text "saturday")]⟩) ∧
      ∃ (e : WeekExpression) (start : Date),
        ((weekly "saturday").weekStart default >>= fun day =>
          Timeframe.weekSql "made" day .postgres (.ok "DATE"))
          = .ok (e.sql (fun n => "INTERVAL '" ++ toString n ++ "' DAY") "made") ∧
        IsGreatest {n | n ≤ Clock.midJune.today.toOrdinal ∧ (Date.ofOrdinal n).weekday = 6}
          (e.value Clock.midJune.instant / 86400) ∧
        e.value Clock.midJune.instant % 86400 = 0 ∧
        ({ Clock.midJune with weekStart := 6 } : Clock).startDate 0 .week = .ok start ∧
        (e.value Clock.midJune.instant = (Moment.startOfDay start).toSeconds ↔
          "saturday" = Text.lower "saturday" ∨ Text.lower "saturday" = "monday") :=
  ⟨rfl, weeks_agree_iff (c := { Clock.midJune with weekStart := 6 }) rfl rfl rfl (by decide)
    (by decide) (by decide +kernel) (by decide +kernel) (by decide +kernel) _ _⟩

/-- Weeks that are to begin on `Sunday` do so in SQL and begin on Monday in filters. -/
theorem capital_sunday_apart :
    let e : WeekExpression := ((WeekExpression.column.date.later 1).monday).earlier 1
    let c : Clock := { Clock.midJune with weekStart := Filter.weekStart (.text "Sunday") }
    ((weekly "Sunday").weekStart default >>= fun day =>
        Timeframe.weekSql "made" day .snowflake (.ok "DATE")).toOption
          = some (e.sql toString "made") ∧
      e.value c.instant = (Moment.startOfDay ⟨2023, 6, 11⟩).toSeconds ∧
      c.startDate 0 .week = .ok ⟨2023, 6, 12⟩ :=
  ⟨by decide +kernel, by decide +kernel, rfl⟩

end SemanticLayer
