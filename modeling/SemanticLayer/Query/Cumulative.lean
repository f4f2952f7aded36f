import SemanticLayer.Query.Funnel

/-!
# Cumulative metrics

A cumulative metric adds up its measure over all days so far: the rows of the measure are joined to
a spine of dates, each row to every later date, and summed up.  Metrics that are not cumulative come
from a selection of their own.
-/

namespace SemanticLayer

structure CumulativeQuery where
  metrics : List String
  dimensions : List String
  wheres : Conditions
  havings : Conditions
  orders : Value
  rawColumns : Value
  limit : Value
  isWhole : Bool := false
  deriving Repr, Inhabited

namespace CumulativeQuery

def spine : String := "date_spine"

def spineDate : String := spine ++ ".date"

def spineSql : Warehouse → Result String
  | .snowflake | .redshift =>
    .ok ("select dateadd(day, seq4(), '2000-01-01') as date "
      ++ "from table(generator(rowcount => 365*40))")
  | .bigquery =>
    .ok "select date from unnest(generate_date_array('2000-01-01', '2040-01-01')) as date"
  | .postgres =>
    .ok ("select date from generate_series('2000-01-01'::date, '2040-01-01'::date, '1 day') "
      ++ "as date")
  | w => .error (.dateSpineUnsupported w.value)

def today : Warehouse → Result String
  | .snowflake | .redshift | .bigquery => .ok "current_date()"
  | .postgres => .ok "current_date"
  | w => .error (.currentDateUnsupported w.value)

/-! ### Metrics -/

structure Running where
  metric : Field
  measure : Field
  deriving Inhabited

namespace Running

def rowsTable (r : Running) : String := Field.orNone (r.metric.cumulativeTable false)

def sumsTable (r : Running) : String := Field.orNone (r.metric.cumulativeTable true)

def condition (r : Running) : Value := r.metric.property "cumulative_where"

def updatesTimeframe (r : Running) : Bool :=
  ((r.metric.definition.get? "update_where_timeframe").getD (.bool true)).truthy

end Running

def separate (p : Project) (f : Field) : Result (List Field × List Field) := do
  if ← f.isCumulative p then
    if f.hasType "number" then
      let found ← (← f.references p (← f.expression p)).mapM fun r => do
        let g ← r.get
        return (g, ← g.isCumulative p)
      return ((found.filter (·.2)).map (·.1), (found.filter (!·.2)).map (·.1))
    else return ([f], [])
  else return ([], [f])

def allNames (q : CumulativeQuery) : Result (List String) := do
  match q.havings with
  | .listed items =>
    return q.metrics ++ (← items.mapM fun c => do (← c.definition.need "field").needText)
  | _ => malformed .wrongType

def metricFields (p : Project) (d : Design) (q : CumulativeQuery) :
    Result (List Field × List Field) := do
  let found ← (← q.allNames).mapM fun n => do separate p (← d.field p n)
  return (Project.distinct (found.flatMap (·.1)), Project.distinct (found.flatMap (·.2)))

/-! ### Dates -/

def dateKeys (running : List Running) : Result (List String) :=
  running.mapM fun r => do
    let date ← (r.measure.view.property "default_date").needText
    return Name.qualify r.measure.view.name date

def timeframe (p : Project) (d : Design) (keys : Result (List String)) :
    List String → Result Value
  | [] => .ok (.text "date")
  | n :: rest => do
    let f ← d.field p n
    if (← keys).contains f.key then return f.group else timeframe p d keys rest

def dateField (p : Project) (d : Design) (frame : Value) (r : Running) : Result Field := do
  let view := r.measure.view
  let name := (view.property "default_date").plain ++ "_" ++ frame.plain
  match d.field p (view.name ++ "." ++ name) with
  | .ok f => return f
  | .error _ => throw (.cumulativeDateNotFound (r.metric.property "name") name view.name)

def conditionNames (r : Running) : Result (List String) := do
  let sql ← r.condition.asText
  return Reference.all (Text.replace sql (Reference.wrap "cumulative_date") "")

def takesFrame (frame : Value) (r : Running) (f : Field) : Bool :=
  f.isGroup && !f.group.same frame && r.updatesTimeframe

def conditionFields (p : Project) (d : Design) (frame : Value) (r : Running) :
    Result (List Field) := do
  (← conditionNames r).mapM fun n => do
    let f ← d.field p n
    if takesFrame frame r f then d.field p (f.key ++ "_" ++ frame.plain) else return f

/-! ### Tables -/

def inner (q : CumulativeQuery) (d : Design) (metrics : List Field) (dimensions : List String)
    (wheres : Conditions) (isUngrouped : Bool) : Action Sql.Statement := do
  if Funnel.isNested q.wheres then malformed .endless
  let kept := { d with fields := d.fields.filter fun e => !e.2.isMeasure }
  let design := metrics.foldl (fun (acc : Design) m => acc.put m.id m) kept
  Selection.compile
    { metrics := metrics.map Field.id, dimensions := dimensions, wheres := wheres,
      havings := .listed [], orders := q.orders, rawColumns := q.rawColumns,
      isUngrouped := isUngrouped } design

def whereItems (q : CumulativeQuery) : Result (List Condition) :=
  match q.wheres with
  | .listed items => .ok items
  | .text s => if s.isEmpty then .ok [] else malformed .wrongType
  | .absent => malformed .wrongType

def isOnDate (p : Project) (d : Design) (keys : Result (List String)) (c : Condition) :
    Result Bool := do
  let f ← d.field p (← (← c.definition.need "field").needText)
  return (← keys).contains f.key

def rows (q : CumulativeQuery) (d : Design) (keys : Result (List String)) (frame : Value)
    (r : Running) : Action Sql.Statement := do
  let p ← Action.project
  let own ← q.dimensions.mapM fun n => do return (← d.field p n)
  let date ← dateField p d frame r
  let own := if own.any (·.key == date.key) then own else own ++ [date]
  let more ← if r.condition.truthy then conditionFields p d frame r else pure []
  let wheres ← (← q.whereItems).filterM fun c => do return !(← isOnDate p d keys c)
  q.inner d [r.measure] ((own ++ more).map Field.id) (.listed wheres) true

def spineFrames : List String := ["date", "week", "month", "quarter", "year"]

def spineSource (p : Project) (d : Design) (dialect : Sql.Dialect) (frame : Value)
    (first : Running) : Result Sql.Source := do
  if frame.isTextOf "date" || !spineFrames.any frame.isTextOf then return { table := spine }
  let date ← dateField p d frame first
  let sql ← date.timeSql p "date" d.warehouse
  let query : Sql.Select :=
    { dialect := dialect, isDistinct := true, columns := [.expression sql (some "date")],
      source := some { table := spine } }
  return { table := "(" ++ (← query.render) ++ ")", name := some spine }

def standInDate (frame : Value) (first : Running) : Option String :=
  if spineFrames.any frame.isTextOf then none
  else
    let view := first.measure.view
    some (view.name ++ "." ++ (view.property "default_date").plain ++ "_date")

/-- A field of a condition; one that takes the timeframe of the query keeps it from there on. -/
def framedField (p : Project) (frame : Value) (r : Running) (name : String) (f : Field)
    (d : Design) : Result (Field × Design) := do
  if takesFrame frame r f then
    let (_, view) ← Project.parseName name none
    let asked ← p.getField name none d.model
    let shift : Shift := ⟨view, asked.id, frame⟩
    return ({ f with chosen := some frame }, { d with shifts := shift :: d.shifts })
  else return (f, d)

/-- The condition of a metric in terms of its rows and the spine; dates in it that take the
timeframe of the query keep it. -/
def conditionSql (p : Project) (frame : Value) (r : Running) (d : Design) :
    Result (String × Design) := do
  let sql ← r.condition.asText
  let sql := Text.replace sql (Reference.wrap "cumulative_date") spineDate
  (← conditionNames r).foldlM (fun (state : String × Design) name => do
    let (sql, d) := state
    let (f, d) ← framedField p frame r name (← d.field p name) d
    let column ← f.sqlQuery p (some d.warehouse) .none true
    let written := r.rowsTable ++ "." ++ Field.orNone column
    return (Text.replace sql (Reference.wrap name) written, d)) (sql, d)

def spineJoin (p : Project) (frame : Value) (r : Running) (date : Field) (d : Design) :
    Result (String × Design) := do
  let untilNow := r.rowsTable ++ "." ++ date.column ++ "<=" ++ spineDate
  if r.condition.truthy then
    let (sql, d) ← conditionSql p frame r d
    return (untilNow ++ " AND " ++ sql, d)
  else return (untilNow, d)

def sumColumns (p : Project) (d : Design) (keys : Result (List String)) (names : List String) :
    Result (List Sql.Column × List String × Bool) := do
  let found ← names.mapM fun n => do
    let f ← d.field p n
    if (← keys).contains f.key then
      return (Sql.Column.expression spineDate (some f.column), none, true)
    let sql ← Selection.written (← f.sqlQuery p (some d.warehouse) .none true)
    return (.expression sql (some f.column), if f.isMeasure then none else some sql, false)
  return (found.map (·.1), found.filterMap (·.2.1), found.any (·.2.2))

def spineConditions (p : Project) (d : Design) (keys : Result (List String)) (date : Field)
    (items : List Condition) : Result (List Sql.Criterion) := do
  let found ← items.mapM fun c => do
    let f ← d.field p (← (← c.definition.need "field").needText)
    if !(← keys).contains f.key then return []
    let shifted := { date with chosen := some f.group }
    let r ← Restriction.readAlone d.warehouse .groups
      ((c.definition.set "field" (.text shifted.id)).set "query_type" d.warehouse.value)
    r.criteria p (← shifted.timeSql p spineDate d.warehouse)
  return found.flatten

/-- Conditions on dates as one; they hold only where a date is among the columns. -/
def spineHaving (conditions : List Sql.Criterion) (hasDate : Bool) :
    Result (List Sql.Criterion) := do
  if conditions.isEmpty || !hasDate then return []
  else return [.raw (← Sql.Criterion.renderAllAlone conditions)]

def sums (p : Project) (q : CumulativeQuery) (dialect : Sql.Dialect) (keys : Result (List String))
    (frame : Value) (first r : Running) (date : Field) (dimensions : List String) (d : Design) :
    Result (Sql.Statement × List String × Design) := do
  let source ← spineSource p d dialect frame first
  let dimensions := dimensions ++ (standInDate frame first).toList
  let (on, d) ← spineJoin p frame r date d
  let (columns, groups, hasDate) ← sumColumns p d keys (r.measure.id :: dimensions)
  let now ← today d.warehouse
  let having ← spineHaving (← spineConditions p d keys date (← q.whereItems)) hasDate
  return (.select []
    { dialect := dialect, columns := columns, source := some source,
      joins := [⟨.inner, { table := r.rowsTable }, some on⟩],
      wheres := [.raw (spineDate ++ "<=" ++ now)],
      groups := groups ++ (if hasDate then [spineDate] else []), havings := having }, dimensions, d)

/-! ### The query -/

def sumsJoin (p : Project) (d : Design) (base : String) (dimensions : List String) (r : Running) :
    Result Sql.JoinClause := do
  let parts ← dimensions.mapM fun n => do
    let f ← d.field p n
    return base ++ "." ++ f.column ++ "=" ++ r.sumsTable ++ "." ++ f.column
  return ⟨.left, { table := r.sumsTable },
    some (if parts.isEmpty then "1=1" else Text.join " and " parts)⟩

def resultColumn (p : Project) (d : Design) (base name : String) : Result Sql.Column := do
  let f ← d.field p name
  let sql ← if ← f.isCumulative p then do
      if f.hasType "number" then
        Selection.written (← f.sqlQuery p (some d.warehouse) .none true)
      else do
        let m ← (← f.measure p).get
        pure (Field.orNone (f.cumulativeTable true) ++ "." ++ m.column)
    else pure (base ++ "." ++ f.column)
  return .expression sql (some f.column)

def runningOf (p : Project) (f : Field) : Result Running := do
  return ⟨f, ← (← f.measure p).get⟩

/-- A dimension that is added to a whole request stays in its list. -/
def addToRequest (q : CumulativeQuery) (added : List String) : Action Unit :=
  if q.isWhole then
    modify fun w => { w with request :=
      { w.request with dimensions := w.request.dimensions ++ added } }
  else pure ()

def metricStep (q : CumulativeQuery) (dialect : Sql.Dialect) (keys : Result (List String))
    (frame : Value) (first : Running) (state : List (String × Sql.Statement) × List String × Design)
    (r : Running) : Action (List (String × Sql.Statement) × List String × Design) := do
  let (tables, dimensions, d) := state
  let rows ← { q with dimensions := dimensions }.rows d keys frame r
  let p ← Action.project
  let date ← dateField p d frame r
  q.addToRequest (standInDate frame first).toList
  let (sums, dimensions, d) ← sums p q dialect keys frame first r date dimensions d
  return (tables ++ [(r.rowsTable, rows), (r.sumsTable, sums)], dimensions, d)

def firstOf : List Running → Result Running
  | r :: _ => .ok r
  | [] => malformed .outOfRange

def otherTables (q : CumulativeQuery) (d : Design) (others : List Field) :
    Action (List (String × Sql.Statement)) := do
  if others.isEmpty then return []
  else return [(Funnel.baseTable, ← q.inner d others q.dimensions q.wheres false)]

def compile (q : CumulativeQuery) (d : Design) : Action Sql.Statement := do
  let p ← Action.project
  let (cumulative, others) ← q.metricFields p d
  let dialect ← Sql.Dialect.ofWarehouse d.warehouse
  let spineText ← spineSql d.warehouse
  let running ← cumulative.mapM fun f => do return (← runningOf p f)
  let first ← firstOf running
  let keys := dateKeys running
  let frame ← timeframe p d keys q.dimensions
  let (tables, dimensions, d) ← running.foldlM (metricStep q dialect keys frame first)
    ([(spine, .text spineText)], q.dimensions, d)
  let q := { q with dimensions := dimensions }
  let baseTables ← q.otherTables d others
  let p ← Action.project
  let base := if others.isEmpty then first.sumsTable else Funnel.baseTable
  let joined := if others.isEmpty then running.drop 1 else running
  let joins ← joined.mapM fun r => do return (← sumsJoin p d base q.dimensions r)
  let columns ← (q.dimensions ++ q.metrics).mapM fun n => do return (← resultColumn p d base n)
  let wheres ← Funnel.columnConditions p d.warehouse (d.field p) q.havings
  return .select (tables ++ baseTables)
    { dialect := dialect, columns := columns, source := some { table := base }, joins := joins,
      wheres := wheres, limit := q.limit }

end CumulativeQuery

end SemanticLayer
