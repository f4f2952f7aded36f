import SemanticLayer.Value.Read

/-!
# The order of written definitions

Known keys are written first, then all others as they come.  The fields of a view are written by
kind, and within a kind those whose names speak of an id come first.
-/

namespace SemanticLayer.Arrange

def byKeys (order : List String) (d : Definition) : Definition :=
  let known := order.filterMap fun k => (d.get? k).map fun v => (k, v)
  known ++ d.filter fun (k, _) => !order.contains k

def modelKeys : List String :=
  ["version", "type", "name", "label", "connection", "fiscal_month_offset", "week_start_day",
   "access_grants"]

def fieldKeys : List String :=
  ["name", "field_type", "type", "datatype", "hidden", "primary_key", "label", "view_label",
   "description", "required_access_grants", "value_format_name", "drill_fields",
   "sql_distinct_key", "tiers", "timeframes", "intervals", "sql_start", "sql_end", "sql",
   "filters", "extra"]

def viewKeys : List String :=
  ["version", "type", "name", "label", "description", "model_name", "sql_table_name",
   "default_date", "row_label", "extends", "extension", "required_access_grants", "sets",
   "identifiers", "fields"]

def fieldKinds : List String := ["dimension", "dimension_group", "measure"]

def rank (f : Definition) : Result (Nat × Nat) := do
  let kind ← f.need "field_type"
  match fieldKinds.findIdx? kind.isTextOf with
  | none => malformed .badValue
  | some i => return (i, if ← (← f.need "name").includes (.text "id") then 0 else 1)

def model (d : Definition) : Definition := byKeys modelKeys d

def field (d : Definition) : Definition := byKeys fieldKeys d

def fields (v : Value) : Result Value := do
  let ranked ← (← v.iterate).mapM fun f => do
    let d ← f.needMap
    return (← rank d, d)
  let inOrder := ranked.mergeSort fun a b =>
    decide (a.1.1 < b.1.1) || (a.1.1 == b.1.1 && decide (a.1.2 ≤ b.1.2))
  return .list (inOrder.map fun (_, d) => .map (field d))

def view (d : Definition) : Result Definition := do
  (byKeys viewKeys d).mapM fun (k, v) => do
    if k == "fields" then return (k, ← fields v) else return (k, v)

end SemanticLayer.Arrange
