import SemanticLayer.Query.Cumulative

/-!
# Single queries

A query whose fields can all be joined: it is a selection, a funnel or a query of cumulative
metrics.
-/

namespace SemanticLayer

structure SingleQuery where
  metrics : List String
  dimensions : List String
  funnel : Value := .map []
  wheres : Conditions
  havings : Conditions
  orders : Conditions
  model : Option Model
  warehouse : Option Warehouse
  options : Definition
  isWhole : Bool := false
  deriving Repr, Inhabited

inductive Compiled where
  | statement (s : Sql.Statement)
  | closed (s : Sql.Statement)
  deriving Inhabited

namespace Compiled

def statementOf : Compiled → Sql.Statement
  | .statement s => s
  | .closed s => s

end Compiled

namespace SingleQuery

def isFunnel (funnel : Value) : Result Bool := do
  if funnel.same (.map []) then return false
  let hasSteps ← funnel.includes (.text "steps")
  let hasWithin ← if hasSteps then funnel.includes (.text "within") else pure false
  if hasSteps && hasWithin then return true else throw .funnelKeys

def namesOf : Conditions → Result (List String)
  | .absent => .ok []
  | .text s => Sql.Clause.identifiers s
  | .listed items => conditionFields (items.map (·.definition))

def orderItems (v : Value) : Result Conditions := do
  match v with
  | .null => return .absent
  | .text s => return .text s
  | .map d => return .listed [{ definition := d }]
  | v => return .listed ((← (← v.iterate).mapM Value.needMap).map fun d => { definition := d })

def fields (p : Project) (q : SingleQuery) (more : List String) :
    Result (List (String × Field) × Bool × Bool) := do
  let names := q.metrics ++ q.dimensions
  if names.eraseDups.length != names.length then throw .ambiguousNames
  let lookup (n : String) : Result (String × Field) := do return (n, ← p.getField n none q.model)
  let metrics ← q.metrics.mapM fun n => do
    let (n, f) ← lookup n
    return ((n, f), ← f.isCumulative p)
  let dimensions ← q.dimensions.mapM lookup
  let metricView := (metrics.head?).map fun m => m.1.2.view.name
  let isForced := (q.options.get "force_group_by").truthy
  let isUngrouped := dimensions.any fun (_, f) =>
    (f.property "primary_key").isTextOf "yes" && some f.view.name == metricView && !isForced
  let others ← more.mapM lookup
  return (metrics.map (·.1) ++ dimensions ++ others, isUngrouped, metrics.any (·.2))

def shownConditions : Conditions → Value
  | .absent => .null
  | .text s => .text s
  | .listed items => .list (items.map fun c => .map c.definition)

def needWarehouse (q : SingleQuery) : Result Warehouse :=
  match q.warehouse with
  | some w => .ok w
  | none => throw .warehouseUndetermined

def design (q : SingleQuery) (warehouse : Warehouse) (fields : List (String × Field)) : Design :=
  fields.foldl (fun d e => d.put e.1 e.2) { warehouse := warehouse, model := q.model, fields := [] }

def rawColumns (q : SingleQuery) : Value := q.options.get "select_raw_sql"

def limit (q : SingleQuery) : Value := q.options.get "limit"

def cumulative (q : SingleQuery) : CumulativeQuery :=
  { metrics := q.metrics, dimensions := q.dimensions, wheres := q.wheres, havings := q.havings,
    orders := shownConditions q.orders, rawColumns := q.rawColumns, limit := q.limit,
    isWhole := q.isWhole }

def events (q : SingleQuery) : Funnel :=
  let wheres := Conditions.listed (q.wheres.items.filter fun c =>
    !c.definition.has "funnel" && !c.definition.has "group_by")
  { metrics := q.metrics, dimensions := [], definition := q.funnel, wheres := wheres,
    havings := q.havings,
    shown := .map
      [("metrics", .texts q.metrics), ("dimensions", .list []), ("funnel", .null),
       ("where", shownConditions wheres), ("having", shownConditions q.havings)] }

def steps (q : SingleQuery) : Funnel :=
  let order := shownConditions q.orders
  { q.events with
    dimensions := q.dimensions, wheres := q.wheres, orders := order, rawColumns := q.rawColumns,
    shown := .map
      [("metrics", .texts q.metrics), ("dimensions", .texts q.dimensions), ("funnel", q.funnel),
       ("where", shownConditions q.wheres), ("having", shownConditions q.havings),
       ("order_by", order), ("select_raw_sql", (q.options.get? "select_raw_sql").getD (.list [])),
       ("limit", q.limit), ("return_pypika_query", .null)] }

def selection (q : SingleQuery) (isUngrouped : Bool) : Selection :=
  { metrics := q.metrics, dimensions := q.dimensions, wheres := q.wheres, havings := q.havings,
    orders := shownConditions q.orders, rawColumns := q.rawColumns, limit := q.limit,
    isUngrouped := isUngrouped, events := some q.events }

def compile (q : SingleQuery) : Action Compiled := do
  let isFunnel ← isFunnel q.funnel
  let whereNames ← namesOf q.wheres
  let havingNames ← namesOf q.havings
  let orderNames ← namesOf q.orders
  let warehouse ← q.needWarehouse
  let p ← Action.project
  let (fields, isUngrouped, isCumulative) ← q.fields p (whereNames ++ havingNames ++ orderNames)
  let design := q.design warehouse fields
  if isCumulative && isFunnel then throw .funnelWithCumulative
  if isCumulative then return .closed (← q.cumulative.compile design)
  if isFunnel then return .closed (← q.steps.compileWith Selection.compile q.limit design)
  return .statement (← (q.selection isUngrouped).compile design)

end SingleQuery

end SemanticLayer
