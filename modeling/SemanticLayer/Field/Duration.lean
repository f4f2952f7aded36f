import SemanticLayer.Error
import SemanticLayer.Warehouse

/-!
# Durations

The SQL for the time between two expressions, counted in a unit.
-/

namespace SemanticLayer.Duration

def units : List String :=
  ["seconds", "minutes", "hours", "days", "weeks", "months", "quarters", "years"]

def word (unit : String) : String := Text.upper (Text.dropRight unit 1)

def call (function unit start stop : String) : String :=
  function ++ "(" ++ unit ++ ", " ++ start ++ ", " ++ stop ++ ")"

def age (part start stop : String) : String :=
  "DATE_PART('" ++ part ++ "', AGE(" ++ stop ++ ", " ++ start ++ "))"

def postgres (unit start stop : String) : String :=
  let days := age "DAY" start stop
  let hours := days ++ " * 24 + " ++ age "HOUR" start stop
  let minutes := hours ++ " * 60 + " ++ age "MINUTE" start stop
  let years := age "YEAR" start stop
  match unit with
  | "seconds" => minutes ++ " * 60 + " ++ age "SECOND" start stop
  | "minutes" => minutes
  | "hours" => hours
  | "days" => days
  | "weeks" => "TRUNC(" ++ days ++ "/7)"
  | "months" => years ++ " * 12 + (" ++ age "month" start stop ++ ")"
  | "quarters" => years ++ " * 4 + TRUNC(" ++ age "month" start stop ++ "/3)"
  | _ => years

def bigquery (unit start stop : String) : String :=
  let difference (function type unit : String) : String :=
    function ++ "(CAST(" ++ stop ++ " as " ++ type ++ "), CAST(" ++ start ++ " as " ++ type ++ "), "
      ++ unit ++ ")"
  match unit with
  | "seconds" | "minutes" | "hours" => difference "TIMESTAMP_DIFF" "TIMESTAMP" (word unit)
  | "weeks" => difference "DATE_DIFF" "DATE" "ISOWEEK"
  | "years" => difference "DATE_DIFF" "DATE" "ISOYEAR"
  | _ => difference "DATE_DIFF" "DATE" (word unit)

def sql (start stop : String) (warehouse : Warehouse) (group : Value) : Result String :=
  let unsupported : Result String := .error (.durationUnsupported group warehouse.value)
  match group with
  | .text unit =>
    if units.contains unit then
      match warehouse with
      | .snowflake | .redshift | .duckDb =>
        .ok (call "DATEDIFF" ("'" ++ word unit ++ "'") start stop)
      | .sqlServer | .databricks | .azureSynapse => .ok (call "DATEDIFF" (word unit) start stop)
      | .druid => .ok (call "TIMESTAMPDIFF" (word unit) start stop)
      | .postgres => .ok (postgres unit start stop)
      | .bigquery => .ok (bigquery unit start stop)
      | .other _ => unsupported
    else unsupported
  | _ => unsupported

end SemanticLayer.Duration
