import SemanticLayer.Warehouse

/-!
# Column types

Warehouses name the types of columns in their own ways.  Each name stands for one of a few types of
fields; a name that is not known stands for text.
-/

namespace SemanticLayer

inductive ColumnType where
  | timestamp
  | date
  | datetime
  | number
  | yesno
  | string
  deriving DecidableEq, Repr, Inhabited

namespace ColumnType

def name : ColumnType → String
  | .timestamp => "timestamp"
  | .date => "date"
  | .datetime => "datetime"
  | .number => "number"
  | .yesno => "yesno"
  | .string => "string"

def isTime : ColumnType → Bool
  | .timestamp | .date | .datetime => true
  | _ => false

def namesIn : Warehouse → List (ColumnType × List String)
  | .snowflake =>
    [(.date, ["DATE"]),
     (.timestamp, ["DATETIME", "TIMESTAMP_TZ", "TIMESTAMP_NTZ", "TIMESTAMP_LTZ", "TIMESTAMP"]),
     (.yesno, ["BOOLEAN"]), (.number, ["FIXED", "FLOAT", "REAL", "NUMBER"])]
  | .redshift =>
    [(.timestamp, ["TIME", "TIMETZ", "TIMESTAMP", "TIMESTAMPTZ"]), (.date, ["DATE"]),
     (.yesno, ["BOOLEAN"]),
     (.number, ["DOUBLE PRECISION", "DOUBLE", "PRECISION", "REAL", "DECIMAL", "BIGINT"])]
  | .databricks =>
    [(.timestamp, ["TIME", "TIMESTAMP", "TIMESTAMP_NTZ"]), (.date, ["DATE"]),
     (.yesno, ["BOOLEAN"]),
     (.number, ["DOUBLE", "FLOAT", "DECIMAL", "LONG", "INT", "SMALLINT", "BIGINT", "TINYINT"])]
  | .druid =>
    [(.number, ["DECIMAL", "FLOAT", "REAL", "DOUBLE", "TINYINT", "SMALLINT", "INTEGER", "BIGINT"]),
     (.yesno, ["BOOLEAN"]), (.timestamp, ["TIMESTAMP"]), (.date, ["DATE"])]
  | .postgres | .duckDb =>
    [(.date, ["date"]),
     (.timestamp, ["timestamp without time zone", "timestamp with time zone"]),
     (.yesno, ["boolean"]),
     (.number, ["bigint", "integer", "smallint", "real", "double precision", "numeric", "float",
       "money"])]
  | .sqlServer | .azureSynapse =>
    [(.number, ["float", "real", "bigint", "numeric", "smallint", "decimal", "smallmoney", "int",
       "tinyint", "money"]),
     (.date, ["date"]), (.datetime, ["datetime2", "smalldatetime", "datetime", "time"]),
     (.yesno, ["bit"])]
  | .bigquery =>
    [(.date, ["DATE"]), (.timestamp, ["DATETIME", "TIMESTAMP"]), (.yesno, ["BOOL"]),
     (.number, ["FLOAT64", "INT64", "NUMERIC"])]
  | .other _ => []

def ofName (w : Warehouse) (name : String) : ColumnType :=
  (((namesIn w).find? fun (_, names) => names.contains name).map (·.1)).getD .string

end ColumnType

end SemanticLayer
