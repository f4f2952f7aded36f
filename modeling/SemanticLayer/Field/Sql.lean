import SemanticLayer.Field.Duration
import SemanticLayer.Field.References
import SemanticLayer.Field.Timeframe

/-!
# The SQL of a field

A field's expression with all references expanded: to another field's own SQL, or to the name of the
view.  Where results of an earlier table are used, fields stand by their column names instead.
-/

namespace SemanticLayer

inductive RawSql where
  /-- SQL, unless it cannot be read. -/
  | text (sql : Option String)
  /-- A number is the fields it is computed from. -/
  | fields (keys : List String)
  deriving Repr, Inhabited

namespace Field

/-! ### Properties that the SQL of dates depends on -/

def datatype (f : Field) : Value :=
  match f.definition.get? "datatype" with
  | some v => v
  | none => if f.isGroup then .text "timestamp" else .null

def datatypeName (f : Field) : Result String := do return Text.upper (← f.datatype.asText)

def convertsTimezone (p : Project) (f : Field) : Result Value :=
    orWritten (.ok (f.property "convert_timezone")) do
  match ← f.view.model p with
  | none => malformed .noAttribute
  | some m =>
    let isFalse (v : Value) : Bool := match v with
      | .bool false => true
      | _ => false
    let usual : Value := .bool !(isFalse (m.definition.get "default_convert_tz")
      || isFalse (m.definition.get "default_convert_timezone"))
    match f.definition.get? "convert_timezone" with
    | some v => return v
    | none => return (f.definition.get? "convert_tz").getD usual

end Field

def View.weekStart (p : Project) (v : View) : Result String :=
    orWritten (.ok (v.property "week_start_day").plain) do
  match ← v.model p with
  | none => return "monday"
  | some m =>
    let day := m.definition.get "week_start_day"
    if day.truthy then return Text.lower (← day.asText) else return "monday"

namespace Field

def timeSql (p : Project) (f : Field) (sql : String) (warehouse : Warehouse) : Result String := do
  let zone ← p.timezone
  let moved ← if zone.truthy then do
      if (← f.convertsTimezone p).truthy then
        Timeframe.inZone warehouse sql zone.plain f.datatypeName
      else pure sql
    else pure sql
  Timeframe.sql warehouse moved f.group f.datatypeName (f.view.weekStart p)

/-! ### Expanding references -/

/-- One reference replaced by what it stands for; `table` is how the view's table is written. -/
def replaceStep (p : Project) (f : Field) (table : String) (aliasOnly : Bool)
    (raw : Field → Result RawSql) (sql name : String) : Result String := do
  if name == Reference.table then
    if aliasOnly then return Text.replace sql (Reference.wrap name ++ ".") ""
    else return Text.replace sql (Reference.wrap name) table
  else
    match ← raw (← f.refer p name (some f.view.name)) with
    | .fields _ => throw (.wrongMeasureType (f.property "name") name)
    | .text none => malformed .wrongType
    | .text (some s) => return Text.replace sql (Reference.wrap name) s

def replaceReferences (p : Project) (f : Field) (sql table : String) (aliasOnly : Bool)
    (raw : Field → Result RawSql) : Result String := do
  let replaced ← (Reference.all sql).foldlM (f.replaceStep p table aliasOnly raw) sql
  return Text.strip replaced

/-- SQL with all its references replaced and runs of blanks collapsed; template code has none. -/
def replaceAll (p : Project) (f : Field) (sql : Option String) (table : String) (aliasOnly : Bool)
    (raw : Field → Result RawSql) : Result (Option String) := do
  match nonEmpty sql with
  | none => return none
  | some s =>
    if isTemplate s then return none
    else return some (Text.collapseBlanks (← f.replaceReferences p s table aliasOnly raw))

def orNone (s : Option String) : String := s.getD "None"

/-- The field before it is aggregated; `depth` bounds the way through references. -/
def rawWithin (p : Project) (warehouse : Warehouse) (aliasOnly : Bool) (table : View → String) :
    Nat → Field → Result RawSql
  | 0, _ => malformed .endless
  | depth + 1, f => do
    if f.isMeasure && f.hasType "number" then
      match ← f.referenceKeys p with
      | some keys => return .fields keys
      | none => return .text none
    if aliasOnly then return .text (some f.column)
    let replaced (sql : Option String) : Result (Option String) :=
      f.replaceAll p sql (table f.view) aliasOnly (rawWithin p warehouse aliasOnly table depth)
    match nonEmpty (← f.expression p) with
    | some sql =>
      let clean ← replaced (some sql)
      if f.isGroup && f.hasType "time" then
        return .text (some (← f.timeSql p (orNone clean) warehouse))
      else return .text clean
    | none =>
      match f.durationEnds with
      | some (start, stop) =>
        if f.hasType "duration" then
          let front ← replaced (some (← start.needText))
          let back ← replaced (some (← stop.needText))
          return .text (some (← Duration.sql (orNone front) (orNone back) warehouse f.group))
        else if f.hasType "cumulative" then throw (.cumulativeSql f.id)
        else throw (.unknownSql (f.property "name"))
      | none =>
        if f.hasType "cumulative" then throw (.cumulativeSql f.id)
        else throw (.unknownSql (f.property "name"))

def rawSql (p : Project) (f : Field) (warehouse : Warehouse) (aliasOnly : Bool)
    (table : View → String := View.name) : Result RawSql :=
  f.rawWithin p warehouse aliasOnly table (chainLimit p)

/-- A field in terms of columns that were selected before; numbers are looked through.  `depth`
bounds the way through them. -/
def columnSqlWithin (p : Project) : Nat → Field → Result String
  | 0, _ => malformed .endless
  | depth + 1, f => do
    let sql ← match ← f.expression p with
      | some s => pure s
      | none => malformed .wrongType
    let replaced ← (Reference.all sql).foldlM (fun acc name => do
      if name == Reference.table then return Text.replace acc (Reference.wrap name ++ ".") ""
      let g ← f.refer p name
      let isNumber ← if (← g.isMergedResult p).truthy then pure true else pure (g.hasType "number")
      let column ← if isNumber then do pure ("(" ++ (← columnSqlWithin p depth g) ++ ")")
        else pure g.column
      return Text.replace acc (Reference.wrap name) column) sql
    return Text.strip replaced

def columnSql (p : Project) (f : Field) : Result String := f.columnSqlWithin p (chainLimit p)

def deriveWarehouse (p : Project) (f : Field) : Result Warehouse := do
  match ← f.view.model p with
  | none => throw (.warehouseWithoutModel f.aliasName)
  | some m =>
    let connection := m.definition.get "connection"
    let type := match connection with
      | .text c => p.connectionTypes.get c
      | _ => .null
    if type.isNull then throw (.warehouseWithoutConnection connection m.name)
    else return .ofValue type

def cumulativeTable (f : Field) (aggregated : Bool) : Option String :=
  if f.hasType "cumulative" then
    some ((if aggregated then "aggregated_" else "subquery_") ++ f.column)
  else none

end Field

end SemanticLayer
