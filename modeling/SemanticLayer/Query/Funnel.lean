import SemanticLayer.Query.Select

/-!
# Funnels

A funnel counts who did one step after another within some time.  Its base holds the events with
their date and who did them; each step picks events that come after one of the step before.
-/

namespace SemanticLayer.Funnel

def baseTable : String := "base"

def resultTable : String := "result_cte"

def startColumn : String := "step_1_time"

def property (f : Funnel) (key : String) : Result Value := do (← f.definition.needMap).need key

def steps (f : Funnel) : Result (List Value) := do (← f.property "steps").iterate

/-! ### The base -/

def dateOf (v : View) : Result (String × String) := do
  let date ← (v.property "default_date").needText
  if Text.contains date "." then
    let parts := Text.split date "."
    return (parts.head?.getD "", parts.getLast?.getD "")
  else return (v.name, date)

/-- The date of events: that of the view that is given, else that of the only metric. -/
def eventDate (p : Project) (d : Design) (f : Funnel) : Result Field := do
  if ← f.definition.includes (.text "view_name") then
    let v ← d.view p (← f.property "view_name").plain
    d.field p (v.name ++ "." ++ (v.property "default_date").plain ++ "_raw")
  else
    let dates ← f.metrics.mapM fun m => do dateOf (← d.field p m).view
    match dates with
    | [(view, date)] => d.field p (view ++ "." ++ date ++ "_raw")
    | _ => throw (.eventDateUndetermined f.shown)

def conditionNames (step : Value) : Result (List String) := do
  match step with
  | .list items =>
    items.filterMapM fun c => do
      if ← c.includes (.text "field") then
        return some (← (← (← c.needMap).need "field").needText)
      else return none
  | .null => return []
  | v => Sql.Clause.identifiers (← v.asText)

def stepNames (f : Funnel) : Result (List String) := do
  return (← (← f.steps).mapM conditionNames).flatten.eraseDups

def whereNames : Conditions → Result (List String)
  | .absent => .ok []
  | .text s => Sql.Clause.identifiers s
  | .listed items => conditionNames (.list (items.map fun c => .map c.definition))

def havingMetrics (f : Funnel) : Result (List String) := do
  match f.havings with
  | .absent => return []
  | .text s => if s.isEmpty then return [] else malformed .wrongType
  | .listed items =>
    return (← items.mapM fun c => do (← c.definition.need "field").needText).eraseDups

def sharedComponents (names : List String) : Action (List String) := do
  let p ← Action.project
  let all ← names.mapM fun n => do Action.components (← p.getField n)
  match all with
  | [] => malformed .wrongType
  | first :: rest => return first.eraseDups.filter fun g => rest.all (·.contains g)

def linkField (metrics names : List String) : Action Field := do
  let graphs ← sharedComponents names
  match ← Action.outcome (Action.fieldByTag "customer" none graphs) with
  | .ok f => return f
  | .error e => if e.isAccess then throw (.noLinkField (.texts metrics)) else throw e

def enrich (p : Project) (d : Design) (metrics dimensions : List String) :
    Result (Design × List String) := do
  let d ← dimensions.foldlM (fun (d : Design) n => do
    let f ← d.field p n
    return if d.has f.id then d else d.put f.id f) d
  metrics.foldlM (fun (state : Design × List String) n => do
    let (d, keys) := state
    let f ← d.field p n
    match ← f.view.primaryKey p with
    | none => malformed .noAttribute
    | some key =>
      let (d, keys) := if d.has key.id then (d, keys) else (d.put key.id key, keys ++ [key.id])
      return (if d.has f.id then d else d.put f.id f, keys)) (d, [])

def ascending (names : List String) : List String :=
  names.mergeSort fun a b => decide (a ≤ b)

def isNested (cs : Conditions) : Bool := cs.items.any fun c => c.definition.has "funnel"

def checkNested (cs : Conditions) : Result Unit := if isNested cs then malformed .endless else .ok ()

/-! ### Steps -/

def stepCriteria (p : Project) (d : Design) (js : List Join) (step : Value) :
    Action (List Sql.Criterion) := do
  match step with
  | .list items =>
    let found ← items.mapM fun c => do
      let definition ← c.needMap
      let r ← Restriction.readAlone d.warehouse .rows
        (definition.set "query_type" d.warehouse.value)
      let left ← if definition.has "field" then do
          let f ← d.field p (← (definition.get "field").needText)
          let sql ← f.sqlQuery p (some d.warehouse) .none true
          pure (baseTable ++ "." ++ Field.orNone sql)
        else pure "true"
      return (← r.criteria p left)
    return found.flatten
  | v =>
    let r ← Restriction.read d .rows { definition := [("literal", v)] }
    return (← r.inDesign p d js)

def within (f : Funnel) (warehouse : Warehouse) (date : String) (number : Nat) :
    Result Sql.Criterion := do
  let limits ← (← f.property "within").needMap
  let unit ← Interval.plural (← limits.need "unit")
  let value ← (← limits.need "value").toInteger
  let start := Selection.stepTable (toString (number - 1)) ++ "." ++ startColumn
  let stop := baseTable ++ "." ++ date
  let elapsed ← Duration.sql start stop warehouse (.text unit)
  return .raw (elapsed ++ " <= " ++ toString value)

def stepWheres (f : Funnel) (p : Project) (warehouse : Warehouse) (d : Design) (js : List Join)
    (date : String) (step : Value) (number : Nat) : Action (List Sql.Criterion) := do
  let own ← stepCriteria p d js step
  if number ≤ 1 then return own
  else return own ++ [← f.within warehouse date number]

def stepStatement (dialect : Sql.Dialect) (date link : String) (number : Nat)
    (wheres : List Sql.Criterion) : Sql.Statement :=
  let source : Sql.Source := { table := baseTable }
  if number ≤ 1 then
    .select [] { dialect := dialect, source := some source, wheres := wheres,
                 columns := [.star baseTable, .expression date (some startColumn)] }
  else
    let before := Selection.stepTable (toString (number - 1))
    let condition := baseTable ++ "." ++ link ++ "=" ++ before ++ "." ++ link ++ " and "
      ++ before ++ "." ++ date ++ "<" ++ baseTable ++ "." ++ date
    .select [] { dialect := dialect, source := some source, wheres := wheres,
                 joins := [⟨.inner, { table := before }, some condition⟩],
                 columns := [.star baseTable,
                   .expression (before ++ "." ++ startColumn) (some startColumn)] }

def resultColumns (p : Project) (d : Design) (names : List String) :
    Result (List Sql.Column × List String) := do
  let found ← names.mapM fun n => do
    let f ← d.field p n
    let sql ← Selection.written (← f.sqlQuery p (some d.warehouse) .missing true)
    return (Sql.Column.expression sql (some f.column), if f.isMeasure then none else some sql)
  return (found.map (·.1), found.filterMap (·.2))

def resultStatement (dialect : Sql.Dialect) (columns : List Sql.Column) (groups : List String)
    (number : Nat) : Sql.Statement :=
  let n := toString number
  .select [] { dialect := dialect, source := some { table := Selection.stepTable n },
               columns := .expression ("'Step " ++ n ++ "'") (some "step")
                 :: .expression n (some "step_order") :: columns,
               groups := groups }

def resultUnion : List Sql.Statement → Result Sql.Statement
  | [] => malformed .unset
  | [s] => .ok s
  | parts => .ok (.union parts)

def tables (select : Selection → Design → Action Sql.Statement) (f : Funnel) (d : Design) :
    Action FunnelTables := do
  let dialect ← Sql.Dialect.ofWarehouse d.warehouse
  let p ← Action.project
  let date ← f.eventDate p d
  let conditions ← f.stepNames
  let metrics := f.metrics ++ (← f.havingMetrics)
  let names := metrics ++ f.dimensions ++ [date.id] ++ conditions ++ (← whereNames f.wheres)
  let link ← linkField metrics names
  let dimensions := f.dimensions ++ [date.id, link.id] ++ conditions
  checkNested f.wheres
  let (design, keys) ← enrich p d metrics dimensions
  let base ← select { metrics := ascending metrics, dimensions := ascending (dimensions ++ keys),
                      wheres := f.wheres, havings := .listed [], orders := f.orders,
                      rawColumns := f.rawColumns, isUngrouped := true } design
  let js ← design.joins
  let (columns, groups) ← resultColumns p design (metrics ++ f.dimensions)
  let steps ← (← f.steps).zipIdx.mapM fun (step, i) => do
    let number := i + 1
    let wheres ← f.stepWheres p d.warehouse design js date.column step number
    return (Selection.stepTable (toString number),
      stepStatement dialect date.column link.column number wheres,
      resultStatement dialect columns groups number)
  let union ← resultUnion (steps.map fun (_, _, r) => r)
  return { tables := (baseTable, base) :: steps.map (fun (n, s, _) => (n, s))
             ++ [(resultTable, union)],
           link := link, design := design }

def columnConditions (p : Project) (warehouse : Warehouse) (field : String → Result Field)
    (havings : Conditions) : Result (List Sql.Criterion) := do
  match havings with
  | .absent => return []
  | .text s => if s.isEmpty then return [] else malformed .wrongType
  | .listed items =>
    let found ← items.mapM fun c => do
      let r ← Restriction.readAlone warehouse .rows
        (c.definition.set "query_type" warehouse.value)
      let f ← field (← (← c.definition.need "field").needText)
      r.criteria p f.column
    return found.flatten

def compileWith (select : Selection → Design → Action Sql.Statement) (f : Funnel) (limit : Value)
    (d : Design) : Action Sql.Statement := do
  let t ← tables select f d
  let dialect ← Sql.Dialect.ofWarehouse d.warehouse
  let p ← Action.project
  let wheres ← columnConditions p d.warehouse (t.design.field p) f.havings
  return .select t.tables { dialect := dialect, source := some { table := resultTable },
                            columns := [.star resultTable], wheres := wheres, limit := limit }

end SemanticLayer.Funnel

namespace SemanticLayer.Selection

/-- Compiles a selection; `depth` bounds the selections inside of it. -/
def compileWithin : Nat → Selection → Design → Action Sql.Statement
  | 0, _, _ => malformed .endless
  | depth + 1, q, d =>
    q.compileWith ⟨compileWithin depth, Funnel.tables (compileWithin depth)⟩ d

/-- A selection holds at most a funnel, whose base holds a window, which holds groups. -/
def nestingLimit : Nat := 8

def compile (q : Selection) (d : Design) : Action Sql.Statement := compileWithin nestingLimit q d

end SemanticLayer.Selection
