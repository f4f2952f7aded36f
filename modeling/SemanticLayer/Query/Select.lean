import SemanticLayer.Project.Edit
import SemanticLayer.Project.Table
import SemanticLayer.Query.Restriction
import SemanticLayer.Sql.Clause

/-!
# Selections

A query of one set of joined views: columns by groups, under conditions.  Conditions on groups of
another field, windows of non-additive measures and steps of a funnel become tables of their own in
front of the selection.
-/

namespace SemanticLayer

structure Funnel where
  metrics : List String
  dimensions : List String
  /-- Steps, the time within which they are to be done, and the view of the events. -/
  definition : Value
  wheres : Conditions
  havings : Conditions
  orders : Value := .null
  rawColumns : Value := .null
  /-- The whole definition as it is shown in errors. -/
  shown : Value := .null
  deriving Repr, Inhabited

def Funnel.with_ (f : Funnel) (steps : Value) : Funnel :=
  { f with definition := steps, shown := .map (f.shown.entriesD.set "funnel" steps) }

structure Selection where
  metrics : List String
  dimensions : List String
  wheres : Conditions := .absent
  havings : Conditions := .absent
  orders : Value := .null
  rawColumns : Value := .null
  limit : Value := .null
  isUngrouped : Bool := false
  events : Option Funnel := none
  deriving Repr, Inhabited

structure FunnelTables where
  tables : List (String × Sql.Statement)
  link : Field
  design : Design

structure Compilers where
  select : Selection → Design → Action Sql.Statement
  funnel : Funnel → Design → Action FunnelTables

structure Window where
  field : Field
  definition : Definition
  column : String
  table : String
  deriving Inhabited

def Window.groupings (w : Window) : Result (List String) :=
  match w.definition.get? "window_groupings" with
  | none => .ok []
  | some (.list xs) => xs.mapM Value.needText
  | some _ => malformed .noAttribute

structure OrderKey where
  field : Option (Option Value)
  sort : Value
  deriving Inhabited

structure Reading where
  wheres : List Restriction
  funnels : List Restriction
  grouped : List Restriction
  havings : List Restriction
  orders : List OrderKey
  windows : List Window
  deriving Inhabited

namespace Selection

/-! ### Reading -/

def readConditions (d : Design) (side : Side) (access : Option String) (cs : Conditions) :
    Action (List Restriction) := do
  let literal (s : String) : Condition := { definition := [("literal", .text s)] }
  let front := (access.filter fun s => !s.isEmpty).toList.map literal
  let own := match cs with
    | .absent => []
    | .text s => [literal s]
    | .listed items => items
  (front ++ own).mapM (Restriction.read d side)

def textOrder (s : String) : OrderKey :=
  let low := Text.lower s
  if Text.contains low "desc" then
    ⟨some (some (.text (Text.strip (Text.replace low "desc" "")))), .text "desc"⟩
  else ⟨some (some (.text (Text.strip (Text.replace low "asc" "")))), .text "asc"⟩

def orderKey (v : Value) : Result OrderKey := do
  let d ← v.needMap
  let sort ← ((d.get? "sort").getD (.text "asc")).asText
  return ⟨some (d.get? "field"), .text (Text.lower sort)⟩

def readOrders (v : Value) : Result (List OrderKey) :=
  match v with
  | .text s => .ok ((Text.split s ",").map textOrder)
  | .list items => items.mapM orderKey
  | _ => .ok []

def ordersByDefault : Warehouse → Bool
  | .snowflake | .redshift | .duckDb => true
  | _ => false

def readWindow (p : Project) (d : Design) (name : String) : Result (Option Window) := do
  let f ← d.field p name
  match (← f.nonAdditive).map? with
  | some definition =>
    if definition.isEmpty then return none
    let column := Field.orNone (← f.nonAdditiveColumn)
    let table := Field.orNone (← f.nonAdditiveTable)
    return some ⟨f, definition, column, table⟩
  | none => return none

def readWindows (p : Project) (d : Design) (metrics : List String) : Result (List Window) :=
  metrics.filterMapM (readWindow p d)

def readWheres (q : Selection) (d : Design) (access : Option String) :
    Action (List Restriction) := do
  if q.wheres.isGiven || access.any (!·.isEmpty) then readConditions d .rows access q.wheres
  else pure []

def readHavings (q : Selection) (d : Design) : Action (List Restriction) := do
  if q.havings.isGiven && q.isUngrouped then throw .havingWithoutGroups
  if q.havings.isGiven then readConditions d .groups none q.havings else pure []

def readOrder (q : Selection) (d : Design) : Result (List OrderKey) := do
  if q.orders.truthy && q.isUngrouped then throw .orderWithoutGroups
  if q.orders.truthy then readOrders q.orders
  else if ordersByDefault d.warehouse then pure [⟨none, .null⟩]
  else pure []

def read (q : Selection) (d : Design) : Action Reading := do
  let p ← Action.project
  let (access, _) ← d.accessFilter p
  let wheres ← q.readWheres d access
  let funnels := wheres.filter Restriction.isFunnel
  if 1 < funnels.length then throw .oneFunnelFilter
  let havings ← q.readHavings d
  let orders ← q.readOrder d
  let windows ← readWindows p d q.metrics
  return { wheres := wheres.filter fun r => !r.isGrouped && !r.isFunnel,
           funnels := funnels,
           grouped := wheres.filter Restriction.isGrouped ++ havings.filter Restriction.isGrouped,
           havings := havings.filter fun r => !r.isGrouped,
           orders := orders, windows := windows }

/-! ### Tables and columns -/

def sourceOf (p : Project) (v : View) : Result Sql.Source := do
  let derived := v.property "derived_table"
  if derived.truthy then
    let sql ← (← derived.needMap).need "sql"
    return { table := "(" ++ sql.plain ++ ") as " ++ v.name }
  else return { table := (← v.tableName p).plain, name := some v.name }

def joinClause (p : Project) (d : Design) (j : Join) : Result Sql.JoinClause := do
  let source ← sourceOf p (← d.view p j.target.plain)
  let condition ← j.conditionSql p d.warehouse
  match j.kind with
  | .cross => return ⟨.cross, source, none⟩
  | kind => return ⟨kind, source, some condition⟩

def joinClauses (p : Project) (d : Design) (js : List Join) : Result (List Sql.JoinClause) :=
  js.mapM (joinClause p d)

def written (sql : Option String) : Result String :=
  match sql with
  | some s => .ok s
  | none => malformed .wrongType

def groupedColumn (p : Project) (d : Design) (key : Result RowKey) (name : String) :
    Result Sql.Column := do
  let f ← d.field p name
  let sql ← written (← f.sqlQuery p (some d.warehouse) (← key) false)
  return .expression sql (some f.column)

def rowColumns (p : Project) (d : Design) : Nat → Field → Result (List Sql.Column)
  | 0, _ => malformed .endless
  | depth + 1, f => do
    match ← f.rawSql p d.warehouse false with
    | .text (some sql) => return [.expression sql (some f.column)]
    | .text none => return []
    | .fields keys =>
      let found ← (keys.mergeSort fun a b => decide (a ≤ b)).mapM fun k => do
        rowColumns p d depth (← d.field p k)
      return found.flatten

def columnName (c : Sql.Column) : String :=
  ((Text.split (c.render false) " as ").getLast?).getD ""

def distinctColumns (cs : List Sql.Column) : List Sql.Column :=
  cs.foldl (fun acc c =>
    if acc.any fun o => columnName o == columnName c then acc else acc ++ [c]) []

def columns (p : Project) (d : Design) (key : Result RowKey) (q : Selection) :
    Result (List Sql.Column) := do
  let names := q.dimensions ++ q.metrics
  let own ← if q.isUngrouped then do
      let found ← names.mapM fun n => do rowColumns p d (Field.chainLimit p) (← d.field p n)
      pure (distinctColumns found.flatten)
    else names.mapM (groupedColumn p d key)
  if q.rawColumns.truthy then
    return own ++ (← q.rawColumns.iterate).map fun c => .expression c.plain none
  else return own

def plainSql (p : Project) (d : Design) (f : Field) : Result String := do
  written (← f.sqlQuery p (some d.warehouse) .none false)

def groups (p : Project) (d : Design) (q : Selection) : Result (List String) := do
  let own ← q.dimensions.mapM fun name => do
    let f ← d.field p name
    if d.warehouse == .bigquery then return f.column else plainSql p d f
  if q.rawColumns.truthy then
    let raw ← (← q.rawColumns.iterate).mapM fun c => do
      return Sql.Clause.stripAlias (← c.needText)
    return own ++ raw
  else return own

/-! ### Tables in front -/

def groupedTable (compilers : Compilers) (d : Design) (i : Nat) (r : Restriction) :
    Action ((String × Sql.Statement) × Sql.Criterion) := do
  let p ← Action.project
  let groupBy ← (r.definition.get "group_by").needText
  let inner := r.definition.erase "group_by"
  let name ← (← inner.need "field").needText
  let fields ← [groupBy, name].mapM fun n => do return (← d.field p n)
  let design := fields.foldl (fun (acc : Design) f => acc.put f.id f) { d with fields := [] }
  let query : Selection :=
    { metrics := [], dimensions := [groupBy], havings := .listed [{ definition := inner }] }
  let statement ← compilers.select query design
  let table := "filter_subquery_" ++ toString i
  let f ← d.field p groupBy
  let sql := Field.orNone (← f.sqlQuery p (some d.warehouse) .none false)
  return ((table, statement), .isInTable false sql f.column table)

def sortedAlone {α : Type} (xs : List α) : Result (List α) :=
  if xs.length ≤ 1 then .ok xs else malformed .wrongType

def windowDimensions (p : Project) (d : Design) (dimensions : List String) (w : Window) :
    Result (List String) := do
  let own ← w.groupings
  if ((w.definition.get? "window_aware_of_query_dimensions").getD (.bool true)).truthy then
    return own ++ dimensions
  let date ← d.field p (w.definition.get "name").plain
  let added ← dimensions.filterM fun n => do return (← d.field p n).name == date.name
  return own ++ added

def keepGroupings (w : Window) (dimensions : List String) : Action Unit := do
  match w.definition.get? "window_groupings" with
  | some (.list []) =>
    Action.edit fun s =>
      .ok (s.updateField w.field.view.shelf w.field.name (Field.collecting dimensions))
  | _ => pure ()

def windowTable (compilers : Compilers) (q : Selection) (d : Design) (w : Window)
    (dimensions : List String) : Action Sql.Statement := do
  let p ← Action.project
  let fields ← dimensions.mapM fun n => do return (← d.field p n)
  let name := (w.definition.get "name").plain
  let date ← d.field p name
  let design := (fields ++ [date]).foldl (fun (acc : Design) f => acc.put f.id f)
    { d with fields := [] }
  let last := ((Text.split name ".").getLast?).getD ""
  let choice ← (← w.definition.need "window_choice").needText
  let measure := choice ++ "_" ++ last
  let view := date.view.name
  Action.edit fun s => s.addField
    [("name", .text measure), ("field_type", .text "measure"), ("type", .text choice),
     ("sql", .text (Reference.wrap (view ++ "." ++ last)))] view
  let query : Selection :=
    { metrics := [view ++ "." ++ measure], dimensions := dimensions, wheres := q.wheres,
      havings := .listed [], events := q.events }
  let statement ← compilers.select query design
  Action.edit fun s => s.removeField measure view
  return statement

def windowJoin (p : Project) (d : Design) (w : Window) (dimensions : List String) :
    Result Sql.JoinClause := do
  let source : Sql.Source := { table := w.table }
  if dimensions.isEmpty then return ⟨.inner, source, some "1=1"⟩
  let parts ← dimensions.mapM fun n => do
    let f ← d.field p n
    return (← plainSql p d f) ++ "=" ++ w.table ++ "." ++ f.column
  return ⟨.inner, source, some (Text.join " and " parts)⟩

def stepTable (step : String) : String := "step_" ++ step

def linkTable (dialect : Sql.Dialect) (r : Restriction) (link : Field) :
    Result Sql.Statement := do
  let start ← r.definition.need "from"
  let stop ← r.definition.need "to"
  let converted := (r.definition.get "expression").isTextOf "converted"
  let column := link.column
  return .select [] {
    dialect := dialect, isDistinct := true, columns := [.expression column none],
    source := some { table := "base" },
    wheres := [.isInTable false column column (stepTable start.plain),
               .isInTable (!converted) column column (stepTable stop.plain)] }

/-! ### Orders -/

def orderColumns (p : Project) (d : Design) (q : Selection) (keys : List OrderKey) :
    Result (List (String × Sql.Direction)) := do
  let names := q.metrics ++ q.dimensions
  keys.filterMapM fun k => do
    match k.field with
    | none =>
      match names with
      | [] => return none
      | first :: _ =>
        let f ← d.field p first
        return some (f.column, if f.isMeasure then .descending else .ascending)
    | some none => malformed .missingKey
    | some (some name) =>
      let f ← d.field p (← name.needText)
      return some (f.column, if k.sort.isTextOf "desc" then .descending else .ascending)

/-! ### Compiling -/

def funnelTables (compilers : Compilers) (q : Selection) (d : Design) (r : Reading) :
    Action (List (String × Sql.Statement) × Option (Restriction × Field) × Design) := do
  match r.funnels with
  | [] =>
    let _ ← Sql.Dialect.ofWarehouse d.warehouse
    return ([], none, d)
  | f :: _ =>
    match q.events with
    | none => malformed .noAttribute
    | some events =>
      if !f.definition.has "funnel" then malformed .noAttribute
      let t ← compilers.funnel (events.with_ (f.definition.get "funnel")) d
      return (t.tables, some (f, t.link), t.design)

def criteria (p : Project) (d : Design) (js : List Join) (rs : List Restriction) :
    Result (List Sql.Criterion) := do
  return (← rs.mapM (Restriction.inDesign p d js)).flatten

def ifGrouped {α : Type} (q : Selection) (parts : Result (List α)) : Result (List α) :=
  if q.isUngrouped then .ok [] else parts

def windowPart (compilers : Compilers) (q : Selection) (d : Design) (w : Window) :
    Action ((String × Sql.Statement) × Sql.JoinClause) := do
  let all ← windowDimensions (← Action.project) d q.dimensions w
  keepGroupings w all
  let dimensions := all.eraseDups
  let statement ← windowTable compilers q d w dimensions
  let join ← windowJoin (← Action.project) d w dimensions
  return ((w.table, statement), join)

def linkPart (dialect : Sql.Dialect) (d : Design) (f : Restriction) (link : Field) :
    Action ((String × Sql.Statement) × Sql.Criterion) := do
  let p ← Action.project
  let name := "link_filter_subquery"
  let statement ← linkTable dialect f link
  let g ← d.field p link.id
  let sql := Field.orNone (← g.sqlQuery p (some d.warehouse) .none false)
  return ((name, statement), .isInTable false sql g.column name)

def build (compilers : Compilers) (q : Selection) (d : Design) (r : Reading) :
    Action Sql.Statement := do
  let (front, link, d) ← funnelTables compilers q d r
  let dialect ← Sql.Dialect.ofWarehouse d.warehouse
  let js ← d.joins
  let p ← Action.project
  let base ← d.baseOf p js
  let source ← sourceOf p (← d.view p base)
  let joins ← joinClauses p d js
  let columns ← q.columns p d (d.rowKeyOf p js)
  let wheres ← criteria p d js r.wheres
  let groups ← q.ifGrouped (q.groups p d)
  let havings ← q.ifGrouped (criteria p d js r.havings)
  let grouped ← (← sortedAlone r.grouped).zipIdx.mapM fun (g, i) => groupedTable compilers d i g
  let windows ← (← sortedAlone r.windows).mapM (windowPart compilers q d)
  let linked ← link.toList.mapM fun (f, field) => linkPart dialect d f field
  let orders ← q.ifGrouped (q.orderColumns (← Action.project) d r.orders)
  return .select (front ++ grouped.map (·.1) ++ windows.map (·.1) ++ linked.map (·.1)) {
    dialect := dialect, columns := columns, source := some source,
    joins := joins ++ windows.map (·.2),
    wheres := wheres ++ grouped.map (·.2) ++ linked.map (·.2),
    groups := groups, havings := havings, orders := orders, limit := q.limit }

def compileWith (compilers : Compilers) (q : Selection) (d : Design) : Action Sql.Statement := do
  let r ← q.read d
  q.build compilers d r

end Selection

end SemanticLayer
