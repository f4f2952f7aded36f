import SemanticLayer.Field.Sql

/-!
# Aggregates

The SQL of a measure.  Where a join repeats rows, sums and counts are taken over distinct keys:
the key of the measure's view is added to every value as a hash and subtracted again.
-/

namespace SemanticLayer

inductive RowKey where
  | none
  | missing
  | field (id : String)
  deriving DecidableEq, Repr, Inhabited

namespace Field

/-- Whether a query repeats the rows of the measure's view. -/
def needsSymmetric (p : Project) (f : Field) (key : RowKey) : Result Bool := do
  match key with
  | .none => return false
  | .missing => return true
  | .field id =>
    match ← f.view.primaryKey p with
    | some pk => return pk.id != id
    | none => throw (.primaryKeyUndefined f.view.name)

def isSymmetric (p : Project) (f : Field) (key : RowKey) (warehouse : Warehouse) : Result Bool :=
  if warehouse.hasSymmetricAggregates then f.needsSymmetric p key else return false

/-- What a value is scaled by, so that sums of fractions stay exact. -/
def factor : String := "1000000"

def hashedSum (sql key : String) : String :=
  let adjusted :=
    "(CAST(FLOOR(COALESCE(" ++ sql ++ ", 0) * (" ++ factor ++ " * 1.0)) AS DECIMAL(38,0)))"
  let hash := "(TO_NUMBER(MD5(" ++ key
    ++ "), 'XXXXXXXXXXXXXXXXXXXXXXXXXXXXXXXX') % 1.0e27)::NUMERIC(38, 0)"
  let difference :=
    "SUM(DISTINCT " ++ adjusted ++ " + " ++ hash ++ ") - SUM(DISTINCT " ++ hash ++ ")"
  "COALESCE(CAST((" ++ difference ++ ") AS DOUBLE PRECISION) / CAST((" ++ factor
    ++ "*1.0) AS DOUBLE PRECISION), 0)"

def fingerprintSum (sql key : String) : String :=
  let adjusted :=
    "(CAST(FLOOR(COALESCE(" ++ sql ++ ", 0) * (" ++ factor ++ " * 1.0)) AS FLOAT64))"
  let hash := "CAST(FARM_FINGERPRINT(CAST(" ++ key ++ " AS STRING)) AS BIGNUMERIC)"
  let difference :=
    "SUM(DISTINCT " ++ adjusted ++ " + " ++ hash ++ ") - SUM(DISTINCT " ++ hash ++ ")"
  "COALESCE(CAST((" ++ difference ++ ") AS FLOAT64) / CAST((" ++ factor ++ "*1.0) AS FLOAT64), 0)"

def keyedCount (sql key : String) : String :=
  "NULLIF(COUNT(DISTINCT CASE WHEN  (" ++ sql ++ ")  IS NOT NULL THEN  " ++ key
    ++ "  ELSE NULL END), 0)"

def keyText (p : Project) (f : Field) (key : Value) : Result (Option String) := do
  if f.filters.truthy then
    return some (← Filter.caseSql p.almanac key.plain (← filterList f.filters))
  match key with
  | .null => return none
  | v => return some (← v.needText)

def keySql (p : Project) (f : Field) (table : View → String) (aliasOnly : Bool)
    (warehouse : Warehouse) (key : Value) : Result (Option String) := do
  f.replaceAll p (← f.keyText p key) (table f.view) aliasOnly fun g =>
    g.rawSql p warehouse aliasOnly table

def viewKey (p : Project) (f : Field) (table : View → String) (aliasOnly : Bool)
    (query : Warehouse → Field → Result (Option String)) (warehouse : Warehouse) :
    Result String := do
  match ← f.view.primaryKey p with
  | none => malformed .noAttribute
  | some pk =>
    return orNone (← f.keySql p table aliasOnly warehouse (.ofOption (← query warehouse pk)))

def numberSql (p : Project) (f : Field) (table : String) (aliasOnly : Bool)
    (query : Field → Result (Option String)) : Result String := do
  let sql ← match ← f.expression p with
    | some s => pure s
    | none => malformed .wrongType
  (Reference.all sql).foldlM (fun acc name => do
    let written := Reference.wrap name
    if name == Reference.table then
      if aliasOnly then return Text.replace acc (written ++ ".") "()"
      else return Text.replace acc written ("(" ++ table ++ ")")
    else
      let replacement ← query (← f.refer p name)
      return Text.replace acc written ("(" ++ orNone replacement ++ ")")) sql

/-- The aggregation of the values of a measure.  `viewKey` is the key of its view and `ownKey` the
key it names, each in the SQL of a warehouse. -/
def aggregate (p : Project) (f : Field) (key : RowKey) (warehouse : Warehouse)
    (values : Option String) (viewKey : Warehouse → Result String)
    (ownKey : Warehouse → Result (Option String)) : Result String := do
  let sql := orNone values
  let symmetric := f.isSymmetric p key warehouse
  let keyOr (given : Option String) (w : Warehouse) : Result String :=
    match nonEmpty given with
    | some s => .ok s
    | none => viewKey w
  let symmetricSum (given : Option String) : Result String := do
    match warehouse with
    | .snowflake | .postgres | .duckDb | .redshift =>
      return hashedSum sql (← keyOr given .snowflake)
    | .bigquery => return fingerprintSum sql (← keyOr given .bigquery)
    | w => throw (.symmetricUnsupported w.value "sum" "sum_distinct")
  let symmetricCount (given : Option String) : Result String := do
    return keyedCount sql (← keyOr given warehouse)
  let symmetricAverage (given : Option String) : Result String := do
    let sum ← symmetricSum given
    let count ← symmetricCount given
    return "(" ++ sum ++ " / " ++ count ++ ")"
  match f.property "type" with
  | .text "sum" => if ← symmetric then symmetricSum none else return "SUM(" ++ sql ++ ")"
  | .text "sum_distinct" => symmetricSum (← ownKey warehouse)
  | .text "count" =>
    if ← symmetric then
      if (f.property "primary_key_count").truthy then return "COUNT(DISTINCT(" ++ sql ++ "))"
      else symmetricCount none
    else return "COUNT(" ++ sql ++ ")"
  | .text "count_distinct" => return "COUNT(DISTINCT(" ++ sql ++ "))"
  | .text "average" => if ← symmetric then symmetricAverage none else return "AVG(" ++ sql ++ ")"
  | .text "average_distinct" =>
    if !warehouse.hasSymmetricAggregates then
      throw (.symmetricUnsupported warehouse.value "average" "average_distinct")
    symmetricAverage (← ownKey warehouse)
  | .text "median" =>
    match warehouse with
    | .druid | .postgres | .bigquery | .sqlServer | .azureSynapse =>
      throw (.medianUnsupported warehouse.value f.id)
    | _ => return "MEDIAN(" ++ sql ++ ")"
  | .text "max" => return "MAX(" ++ sql ++ ")"
  | .text "min" => return "MIN(" ++ sql ++ ")"
  | .text "number" => throw (.numberWithoutReferences (.ofOption values))
  | v => throw (.aggregateUnsupported v)

/-- The SQL of a field in a query; `depth` bounds the way through references. -/
def sqlWithin (p : Project) (aliasOnly : Bool) (table : View → String) :
    Nat → RowKey → Warehouse → Field → Result (Option String)
  | 0, _, _, _ => malformed .endless
  | depth + 1, key, warehouse, f => do
    if f.hasType "cumulative" && aliasOnly then
      let measured ← (← f.measure p).get
      return some (orNone (f.cumulativeTable true) ++ "." ++ measured.column)
    let raw ← f.rawSql p warehouse aliasOnly table
    if !f.isMeasure then
      match raw with
      | .text s => return s
      | .fields _ => malformed .wrongType
    let query := sqlWithin p aliasOnly table depth
    match raw with
    | .fields _ =>
      return some (← f.numberSql p (table f.view) aliasOnly (query key warehouse))
    | .text values =>
      return some (← f.aggregate p key warehouse values
        (f.viewKey p table aliasOnly (query .none))
        (f.keySql p table aliasOnly · (f.property "sql_distinct_key")))

def sqlQuery (p : Project) (f : Field) (warehouse : Option Warehouse) (key : RowKey)
    (aliasOnly : Bool) (table : View → String := View.name) : Result (Option String) := do
  let w ← match warehouse with
    | some w => pure w
    | none => f.deriveWarehouse p
  sqlWithin p aliasOnly table (chainLimit p) key w f

end Field

end SemanticLayer
