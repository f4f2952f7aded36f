import SemanticLayer.Field.Aggregate

/-!
# Reporting fields

What is shown of a field, and what is wrong with its definition.
-/

namespace SemanticLayer.Field

def describe (f : Field) : String := "<Field name=" ++ (f.property "name").plain ++ ">"

def followsTimeframe (f : Field) : Value :=
  (f.definition.get? "update_where_timeframe").getD (.bool true)

/-! ### Showing -/

def referenceValue (p : Project) (f : Field) : Result Value := do
  match ← f.referenceKeys p with
  | some keys => return .texts (keys.mergeSort fun a b => decide (a ≤ b))
  | none => return .null

def toDefinition (p : Project) (f : Field) (warehouse : Option Warehouse) :
    Result Definition := do
  let sql ← f.expression p
  let d := f.definition.set "sql_raw" (.ofOption sql)
  let isNumber ← if f.isMeasure then do pure ((← d.need "type").isTextOf "number") else pure false
  if isNumber then return d.set "sql" (← f.referenceValue p)
  if f.isGroup && f.group.isNull then return d.set "sql" (.ofOption sql)
  match warehouse with
  | some w => return d.set "sql" (.ofOption (← f.sqlQuery p (some w) .none false))
  | none => return d

def shownKeys : List String :=
  ["name", "field_type", "type", "label", "group_label", "hidden", "primary_key", "timeframes",
   "datatype", "sql"]

def printable (p : Project) (f : Field) : Result Definition := do
  return (← f.toDefinition p none).pick shownKeys

/-! ### Errors in the definition -/

def formatNames : List String :=
  ["decimal_0", "decimal_1", "decimal_2", "decimal_pct_0", "decimal_pct_1", "decimal_pct_2",
   "percent_0", "percent_1", "percent_2", "eur", "eur_0", "eur_1", "eur_2", "usd", "usd_0",
   "usd_1", "usd_2", "string", "date", "week", "month", "quarter", "year"]

private def shownList (names : List String) : String := (Value.texts names).plain

private def outside (v : Value) (allowed : List String) : Result (List Value) := do
  return (← v.iterate).filter fun i => !allowed.any i.isTextOf

def nameErrors (f : Field) : Result (List String) := do
  let name ← (f.property "name").needText
  return if Name.isValid name then [] else [Name.complaint "field" name]

def timeframeErrors (f : Field) : Result (List String) := do
  if !f.hasType "time" then return []
  let misplaced := if f.definition.has "intervals" then
      ["Field " ++ f.name ++ " is of type time, but has property "
        ++ "intervals when it should have property timeframes"]
    else []
  let frames := (f.definition.get? "timeframes").getD (.list [])
  let missing := if frames.truthy then [] else
      ["Field " ++ f.name ++ " is of type time and but does not have values for the timeframe "
        ++ "property. Add valid timeframes (options: " ++ shownList Timeframe.all ++ ")"]
  let wrong := (← outside frames Timeframe.all).map fun i =>
    "Field " ++ f.name ++ " is of type time and has timeframe value of '" ++ i.plain
      ++ "' which is not a valid timeframes (valid timeframes are "
      ++ shownList Timeframe.all ++ ")"
  return misplaced ++ missing ++ wrong

def intervalErrors (f : Field) : Result (List String) := do
  if !f.hasType "duration" then return []
  let misplaced := if f.definition.has "timeframes" then
      ["Field " ++ f.name ++ " is of type duration, but has property "
        ++ "timeframes when it should have property intervals"]
    else []
  let intervals := (f.definition.get? "intervals").getD (.list [])
  let wrong := (← outside intervals defaultIntervals).map fun i =>
    "Field " ++ f.name ++ " is of type duration and has interval value of '" ++ i.plain
      ++ "' which is not a valid interval (valid intervals are "
      ++ shownList defaultIntervals ++ ")"
  return misplaced ++ wrong

def dateErrors (p : Project) (f : Field) : Result (List String) := do
  if !f.isMeasure then return []
  if (nonEmpty (← f.canonDate)).isSome then return []
  if (← f.isMergedResult p).truthy then
    return ["Field " ++ f.name ++ " is a merged result metric (measure), but does not have a date "
      ++ "associated with it. Associate a date with the metric (measure) by setting either "
      ++ "the canon_date property on the measure itself or the default_date property on "
      ++ "the view the measure is in. Merged results are not possible without associated dates."]
  else
    return ["Warning: Field " ++ f.name ++ " is a metric (measure), but does not have a date "
      ++ "associated with it. Associate a date with the metric (measure) by setting either the "
      ++ "canon_date property on the measure itself or the default_date property on the view the "
      ++ "measure is in. Time periods and merged results will not be possible to use until you "
      ++ "define the date association"]

def typeErrors (f : Field) : List String :=
  let kind := (f.property "field_type").plain
  if (f.isMeasure || f.isGroup) && (f.property "type").isNull then
    ["Field " ++ f.name ++ " is a " ++ kind ++ ", but does not have a type associated "
      ++ "with it. You must set a type for this " ++ kind ++ "."]
  else []

def sqlErrors (p : Project) (f : Field) : Result (List String) := do
  let itself := if nonEmpty (← f.expression p) == some (Reference.wrap f.name) then
      ["Field " ++ f.name ++ " references itself in its 'sql' property. You need to reference "
        ++ "a column using the $\x7bTABLE\x7d.myfield_name syntax or reference another dimension "
        ++ "or measure."]
    else []
  let unreadable := if (← f.allReferences p).isNone then
      ["Field " ++ f.key ++ " contains invalid SQL for Zenlytic. "
        ++ "Remove any Looker parameter references from the SQL."]
    else []
  return itself ++ unreadable

def filterErrors (f : Field) : Result (List String) := do
  if f.filters.isNull then return []
  (← f.filters.iterate).filterMapM fun v => do
    let hasField ← v.includes (.text "field")
    let hasBoth ← if hasField then v.includes (.text "value") else pure false
    if hasBoth then return none
    return some ("Field " ++ f.name ++ " has a filter " ++ v.plain
      ++ " that is missing the key value.")

def viewDate (f : Field) : String :=
  let date := (f.view.property "default_date").plain
  if Text.contains date "." then date else f.view.name ++ "." ++ date

def ownDateErrors (p : Project) (f : Field) : Result (List String) := do
  match ← f.canonDate with
  | none => return []
  | some date =>
    if date == f.viewDate then return []
    match p.getFieldByName date with
    | .ok g =>
      if g.isGroup && g.hasType "time" then return []
      else return ["Canon date " ++ date ++ " is not of field_type: dimension_group and type: time "
        ++ "in field " ++ f.name ++ "."]
    | .error e =>
      if e.isQuery || e.isAccess then
        return ["Canon date " ++ date ++ " is unreachable in field " ++ f.name ++ "."]
      else throw e

def formatErrors (f : Field) : List String :=
  let format := f.property "value_format_name"
  if format.truthy && !formatNames.any format.isTextOf then
    ["Warning: Field " ++ f.name ++ " has an invalid value_format_name " ++ format.plain
      ++ ". Valid value_format_name's are: " ++ shownList formatNames]
  else []

def errors (p : Project) (f : Field) : Result (List String) := do
  let name ← f.nameErrors
  let frames ← f.timeframeErrors
  let intervals ← f.intervalErrors
  let date ← f.dateErrors p
  let sql ← f.sqlErrors p
  let filters ← f.filterErrors
  let ownDate ← f.ownDateErrors p
  let all := name ++ frames ++ intervals ++ date ++ f.typeErrors ++ sql ++ filters ++ ownDate
    ++ f.formatErrors
  if (f.property "is_personal_field").truthy then
    return (all.filter fun e => !Text.contains e "Warning:").map fun e => "Warning: " ++ e
  else return all

end SemanticLayer.Field
