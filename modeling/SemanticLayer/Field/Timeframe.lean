import SemanticLayer.Error
import SemanticLayer.Warehouse

/-!
# Timeframes

A date is looked at by timeframes: truncated to a second, day, week or year, or reduced to a part
such as the month of the year.  Every family of warehouses has its own SQL for them.
-/

namespace SemanticLayer.Timeframe

def all : List String :=
  ["raw", "time", "second", "minute", "hour", "date", "week", "month", "quarter", "year",
   "week_index", "week_of_year", "week_of_month", "month_of_year", "month_of_year_index",
   "month_name", "month_index", "quarter_of_year", "hour_of_day", "day_of_week", "day_of_month",
   "day_of_year"]

/-! ### Weeks -/

def weekTrunc (sql : String) (offset : Option String) (warehouse : Warehouse) : Result String :=
  let date := "CAST(" ++ sql ++ " AS DATE)"
  let time := "CAST(" ++ sql ++ " AS TIMESTAMP)"
  match warehouse with
  | .snowflake | .redshift =>
    match offset with
    | none => .ok ("DATE_TRUNC('WEEK', " ++ date ++ ")")
    | some n => .ok ("DATE_TRUNC('WEEK', " ++ date ++ " + " ++ n ++ ") - " ++ n)
  | .postgres | .druid | .duckDb | .databricks =>
    match offset with
    | none => .ok ("DATE_TRUNC('WEEK', " ++ time ++ ")")
    | some n =>
      let days := "INTERVAL '" ++ n ++ "' DAY"
      .ok ("DATE_TRUNC('WEEK', " ++ time ++ " + " ++ days ++ ") - " ++ days)
  | .bigquery =>
    match offset with
    | none => .ok ("DATE_TRUNC(" ++ date ++ ", WEEK)")
    | some n => .ok ("DATE_TRUNC(" ++ date ++ " + " ++ n ++ ", WEEK) - " ++ n)
  | .sqlServer | .azureSynapse =>
    match offset with
    | none => .ok ("DATEADD(WEEK, DATEDIFF(WEEK, 0, " ++ date ++ "), 0)")
    | some n =>
      .ok ("DATEADD(DAY, -" ++ n ++ ", DATEADD(WEEK, DATEDIFF(WEEK, 0, DATEADD(DAY, " ++ n ++ ", "
        ++ date ++ ")), 0))")
  | .other _ => .error (.weekUnsupported warehouse.value)

def weekOffsets : List (String × Nat) :=
  [("sunday", 1), ("saturday", 2), ("friday", 3), ("thursday", 4), ("wednesday", 5), ("tuesday", 6)]

def weekSql (sql weekStart : String) (warehouse : Warehouse) (datatype : Result String) :
    Result String :=
  if weekStart == "monday" then weekTrunc sql none warehouse
  else match weekOffsets.find? (·.1 == weekStart) with
    | none => malformed .missingKey
    | some (_, n) => do
      let positioned ← weekTrunc sql (some (toString n)) warehouse
      if warehouse == .bigquery then return "CAST(" ++ positioned ++ " AS " ++ (← datatype) ++ ")"
      else return positioned

/-! ### Families of warehouses -/

def plainName : String → String
  | "month_name" => "month_of_year"
  | "month_index" => "month_of_year_index"
  | "week_of_year" => "week_index"
  | g => g

def cast (s type : String) : String := "CAST(" ++ s ++ " AS " ++ type ++ ")"

def trunc (unit s : String) : String := "DATE_TRUNC('" ++ unit ++ "', " ++ s ++ ")"

def extract (part s : String) : String := "EXTRACT(" ++ part ++ " FROM " ++ s ++ ")"

def truncations : List (String × String) :=
  [("second", "SECOND"), ("minute", "MINUTE"), ("hour", "HOUR"), ("date", "DAY"),
   ("month", "MONTH"), ("quarter", "QUARTER"), ("year", "YEAR")]

def unit? (group : String) : Option String :=
  (truncations.find? (·.1 == group)).map (·.2)

def names (subject : String) (labels : List String) (otherwise : String) : String :=
  let whens := (labels.zipIdx 1).map fun (l, i) => " WHEN " ++ toString i ++ " THEN '" ++ l ++ "'"
  "CASE " ++ subject ++ String.join whens ++ " ELSE '" ++ otherwise ++ "' END"

def weekOfMonth (s month : String) : String :=
  extract "WEEK" s ++ " - " ++ extract "WEEK" month ++ " + 1"

def snowflake? (s group : String) : Option String :=
  let time := cast s "TIMESTAMP"
  match unit? group with
  | some u => some (trunc u s)
  | none =>
    match group with
    | "week_index" => some (extract "WEEK" s)
    | "week_of_month" => some (weekOfMonth s (trunc "MONTH" s))
    | "month_of_year_index" => some (extract "MONTH" s)
    | "month_of_year" => some ("TO_CHAR(" ++ time ++ ", 'MON')")
    | "quarter_of_year" => some (extract "QUARTER" s)
    | "hour_of_day" => some ("HOUR(" ++ time ++ ")")
    | "day_of_week" => some ("TO_CHAR(" ++ time ++ ", 'Dy')")
    | "day_of_month" => some (extract "DAY" s)
    | "day_of_year" => some (extract "DOY" s)
    | _ => none

def casting? (time group : String) : Option String :=
  match unit? group with
  | some u => some (trunc u time)
  | none =>
    match group with
    | "week_index" => some (extract "WEEK" time)
    | "week_of_month" => some (weekOfMonth time (trunc "MONTH" time))
    | "month_of_year_index" => some (extract "MONTH" time)
    | "quarter_of_year" => some (extract "QUARTER" time)
    | "hour_of_day" => some (extract "HOUR" time)
    | "day_of_month" => some (extract "DAY" time)
    | "day_of_year" => some (extract "DOY" time)
    | _ => none

def databricks? (s group : String) : Option String :=
  let time := cast s "TIMESTAMP"
  match group with
  | "month_of_year" => some ("DATE_FORMAT(" ++ time ++ ", 'MMM')")
  | "day_of_week" => some ("DATE_FORMAT(" ++ time ++ ", 'E')")
  | _ => casting? time group

def postgres? (s group : String) : Option String :=
  let time := cast s "TIMESTAMP"
  match group with
  | "month_of_year" => some ("TO_CHAR(" ++ time ++ ", 'MON')")
  | "day_of_week" => some ("TO_CHAR(" ++ time ++ ", 'Dy')")
  | "hour_of_day" => some (extract "'HOUR'" time)
  | "day_of_month" => some (extract "'DAY'" time)
  | "day_of_year" => some (extract "'DOY'" time)
  | _ => casting? time group

def druid? (s group : String) : Option String :=
  let time := cast s "TIMESTAMP"
  match group with
  | "month_of_year" =>
    some (names (extract "MONTH" time)
      ["Jan", "Feb", "Mar", "Apr", "May", "Jun", "Jul", "Aug", "Sep", "Oct", "Nov", "Dec"]
      "Invalid Month")
  | "day_of_week" =>
    some (names (extract "DOW" time) ["Mon", "Tue", "Wed", "Thu", "Fri", "Sat", "Sun"]
      "Invalid Day")
  | _ => casting? time group

def sqlServer? (s group : String) : Option String :=
  let date := cast s "DATE"
  let since (unit x : String) : String :=
    "DATEADD(" ++ unit ++ ", DATEDIFF(" ++ unit ++ ", 0, " ++ x ++ "), 0)"
  match group with
  | "second" => some (since "SECOND" (cast s "DATETIME"))
  | "minute" => some (since "MINUTE" (cast s "DATETIME"))
  | "hour" => some (since "HOUR" (cast s "DATETIME"))
  | "date" => some (cast date "DATETIME")
  | "month" => some (since "MONTH" date)
  | "quarter" => some (since "QUARTER" date)
  | "year" => some (since "YEAR" date)
  | "week_index" => some (extract "WEEK" date)
  | "week_of_month" => some (weekOfMonth date (since "MONTH" date))
  | "month_of_year_index" => some (extract "MONTH" date)
  | "month_of_year" => some ("LEFT(DATENAME(MONTH, " ++ date ++ "), 3)")
  | "quarter_of_year" => some ("DATEPART(QUARTER, " ++ date ++ ")")
  | "hour_of_day" => some ("DATEPART(HOUR, " ++ cast s "DATETIME" ++ ")")
  | "day_of_week" => some ("LEFT(DATENAME(WEEKDAY, " ++ date ++ "), 3)")
  | "day_of_month" => some ("DATEPART(DAY, " ++ date ++ ")")
  | "day_of_year" => some ("DATEPART(Y, " ++ date ++ ")")
  | _ => none

def bigquery? (s group : String) (datatype : Result String) : Option (Result String) :=
  let date := cast s "DATE"
  let back (x : String) : Result String := do return cast x (← datatype)
  let dateTrunc (unit : String) : String := "DATE_TRUNC(" ++ date ++ ", " ++ unit ++ ")"
  let timeTrunc (unit : String) : String :=
    "DATETIME_TRUNC(" ++ cast s "DATETIME" ++ ", " ++ unit ++ ")"
  match group with
  | "second" => some (back (timeTrunc "SECOND"))
  | "minute" => some (back (timeTrunc "MINUTE"))
  | "hour" => some (back (timeTrunc "HOUR"))
  | "date" => some (back (dateTrunc "DAY"))
  | "month" => some (back (dateTrunc "MONTH"))
  | "quarter" => some (back (dateTrunc "QUARTER"))
  | "year" => some (back (dateTrunc "YEAR"))
  | "week_index" => some (.ok (extract "WEEK" s))
  | "week_of_month" => some (.ok (weekOfMonth s (dateTrunc "MONTH")))
  | "month_of_year_index" => some (.ok (extract "MONTH" s))
  | "month_of_year" => some (.ok ("FORMAT_DATETIME('%B', CAST(" ++ s ++ " as DATETIME))"))
  | "quarter_of_year" => some (.ok (extract "QUARTER" s))
  | "hour_of_day" => some (.ok ("CAST(" ++ s ++ " AS STRING FORMAT 'HH24')"))
  | "day_of_week" => some (.ok ("CAST(" ++ s ++ " AS STRING FORMAT 'DAY')"))
  | "day_of_month" => some (.ok (extract "DAY" s))
  | "day_of_year" => some (.ok (extract "DAYOFYEAR" s))
  | _ => none

/-! ### All timeframes -/

def asTime (warehouse : Warehouse) (s : String) : String :=
  match warehouse with
  | .sqlServer | .azureSynapse => cast s "DATETIME"
  | _ => cast s "TIMESTAMP"

def family? (warehouse : Warehouse) (s group : String) (datatype : Result String) :
    Option (Result String) :=
  match warehouse with
  | .snowflake | .redshift => (snowflake? s group).map .ok
  | .databricks => (databricks? s group).map .ok
  | .postgres | .duckDb => (postgres? s group).map .ok
  | .druid => (druid? s group).map .ok
  | .sqlServer | .azureSynapse => (sqlServer? s group).map .ok
  | .bigquery => bigquery? s group datatype
  | .other _ => none

def sql (warehouse : Warehouse) (s : String) (group : Value) (datatype : Result String)
    (weekStart : Result String) : Result String :=
  match warehouse, group with
  | .other _, _ => malformed .missingKey
  | _, .text g =>
    match g with
    | "raw" => .ok s
    | "time" => .ok (asTime warehouse s)
    | "week" => do weekSql s (← weekStart) warehouse datatype
    | g => (family? warehouse s (plainName g) datatype).getD (malformed .missingKey)
  | _, _ => malformed .missingKey

def inZone (warehouse : Warehouse) (s timezone : String) (datatype : Result String) :
    Result String :=
  match warehouse with
  | .snowflake | .databricks => do
    return cast (cast ("CONVERT_TIMEZONE('" ++ timezone ++ "', " ++ s ++ ")") "TIMESTAMP_NTZ")
      (← datatype)
  | .bigquery => do
    return cast ("DATETIME(" ++ cast s "TIMESTAMP" ++ ", '" ++ timezone ++ "')") (← datatype)
  | .redshift => do
    return cast (cast ("CONVERT_TIMEZONE('" ++ timezone ++ "', " ++ s ++ ")") "TIMESTAMP")
      (← datatype)
  | .postgres | .duckDb => do
    return cast (cast s "TIMESTAMP" ++ " at time zone 'utc' at time zone '" ++ timezone ++ "'")
      (← datatype)
  | .druid | .sqlServer | .azureSynapse => .ok s
  | .other _ => .error (.timezoneUnsupported warehouse.value)

end SemanticLayer.Timeframe
