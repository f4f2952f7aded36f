import SemanticLayer.Digest.Sha256
import SemanticLayer.Query.Single
import SemanticLayer.Value.Json

/-!
# Merged results

Metrics that cannot be joined are queried apart and merged: every metric belongs to the sub-query of
its date and of the components that date can be joined from.  Dimensions and conditions are brought
to each sub-query, by its date or by a mapping, and the results are joined on the dimensions.
-/

namespace SemanticLayer

/-- Lists by key, in the order in which keys were first used. -/
abbrev Grouping (α : Type) := List (String × List α)

namespace Grouping

variable {α : Type}

def get (t : Grouping α) (key : String) : List α := ((t.find? (·.1 == key)).map (·.2)).getD []

def has (t : Grouping α) (key : String) : Bool := t.any (·.1 == key)

def keys (t : Grouping α) : List String := t.map (·.1)

def put (t : Grouping α) (key : String) (xs : List α) : Grouping α :=
  if t.has key then t.map fun e => if e.1 == key then (key, xs) else e else t ++ [(key, xs)]

def add (t : Grouping α) (key : String) (x : α) : Grouping α := t.put key (t.get key ++ [x])

end Grouping

structure Counterpart where
  field : String
  part : String
  component : Option String
  deriving Repr, Inhabited

structure MergedQuery where
  metrics : List String
  dimensions : List String
  wheres : Conditions
  havings : Conditions
  model : Option Model
  warehouse : Option Warehouse
  options : Definition
  deriving Repr, Inhabited

structure Parts where
  merged : List Field
  metrics : Grouping Field
  dimensions : Grouping Field
  wheres : Grouping Condition
  counterparts : Grouping Counterpart
  deriving Inhabited

def Parts.keys (parts : Parts) : List String :=
  (parts.metrics.keys ++ parts.dimensions.keys).eraseDups

namespace MergedQuery

/-! ### Keys of sub-queries -/

/-- The components of a measure's date, or of another field, in one text. -/
def componentKey (f : Field) : Action String := do
  let p ← Action.project
  let f ← if f.isMeasure then
      match ← f.canonDate with
      | some date => do pure (← p.getFieldByName date)
      | none => pure f
    else pure f
  return Text.join "_" (← Action.components f)

def partKey (date components : String) : String := Text.replace date "." "_" ++ "__" ++ components

def componentsOf (key : String) : List String :=
  (Text.split key "subquery").filterMap fun piece =>
    let n := Text.trimBy (· == '_') piece
    if Text.allBy Text.isDigit n then some ("subquery_" ++ n) else none

def containsAny (key : String) (components : List String) : Bool :=
  components.any (componentsOf key).contains

def behindDate (key : String) : List String :=
  let components := ((Text.split key "__").getLast?).getD ""
  ((Text.split components "subquery").filter (!·.isEmpty)).map fun piece =>
    Text.trimBy (· == '_') ("subquery" ++ piece)

/-! ### Metrics -/

def dateOf (f : Field) : Result String := do
  match ← f.canonDate with
  | some d => return d
  | none => throw (.noDateForMetric (f.property "name"))

def measuresOf (p : Project) (f : Field) : Result (List Reached) := do
  f.references p (← f.expression p)

def mergedStep (p : Project) (t : Grouping Field) (f : Field) : Action (Grouping Field) := do
  (← measuresOf p f).foldlM (fun t r => do
    match r with
    | .missing name => throw (.referenceNotFound name)
    | .unwritten => malformed .noAttribute
    | .field g =>
      let date ← dateOf g
      return t.add (partKey date (← componentKey g)) g) t

def metricStep (t : Grouping Field) (f : Field) : Action (Grouping Field) := do
  let components ← componentKey f
  let key := partKey (← dateOf f) components
  return if (t.get key).any (·.id == f.id) then t else t.add key f

def distinctAll (t : Grouping Field) : Grouping Field :=
  t.map fun (k, fs) => (k, Project.distinct fs)

/-! ### Dates -/

/-- Whether a field brings its date into the query: sets of components that are there are kept. -/
def dateStep (hasMetrics : Bool) (state : List (Option String) × List (List String)) (f : Field) :
    Action (List (Option String) × List (List String)) := do
  let (dates, sets) := state
  let graphs ← Action.components f
  let meets (s : List String) : Bool := graphs.any s.contains
  let date ← f.canonDate
  let cannotJoinAll := !sets.all meets || sets.isEmpty
  let dateMissing := f.isMeasure && !dates.contains date
  let measureApart := cannotJoinAll && (f.isMeasure || !hasMetrics)
  let dimensionApart := !f.isMeasure && !sets.any meets
  if date.any (!·.isEmpty) && (measureApart || dimensionApart || dateMissing) then
    return (dates ++ [date], sets ++ [graphs])
  else return (dates, sets)

def dates (p : Project) (merged secondary dimensions : List Field) : Action (List String) := do
  let first ← merged.mapM fun f => do
    (← measuresOf p f).mapM fun r => do (← r.get).canonDate
  let hasMetrics := !(secondary ++ merged).isEmpty
  let (all, _) ← (secondary ++ dimensions).foldlM (dateStep hasMetrics) (first.flatten, [])
  let names ← all.eraseDups.mapM fun d =>
    match d with
    | some s => pure s
    | none => if all.eraseDups.length ≤ 1 then pure "" else malformed .wrongType
  return names.mergeSort fun a b => decide (a ≤ b)

def dateCounterparts (dates : List String) : Action (Grouping Counterpart) := do
  let p ← Action.project
  let pairs := dates.flatMap fun d => (dates.filter (· != d)).map fun other => (d, other)
  pairs.foldlM (fun (t : Grouping Counterpart) (d, other) => do
    let f ← p.getFieldByName other
    return t.add d ⟨other, partKey other (← componentKey f), none⟩) []

/-- The sub-queries that dates lead to: those with metrics first, in their order. -/
def partsOf (t : Grouping Counterpart) (metrics : Grouping Field) : List String :=
  let keys := (t.flatMap fun (_, cs) => cs.map (·.part)).eraseDups
  let rank (k : String) : String :=
    match metrics.keys.findIdx? (· == k) with
    | some i => toString i
    | none => k
  keys.mergeSort fun a b => decide (rank a ≤ rank b)

/-- Brings a mapping to the sub-queries that have its component: the counterparts that are looked
up for results, and those for dimensions and conditions. -/
def mappingStep (parts : List String) (state : Grouping Counterpart × Grouping Counterpart)
    (entry : String × Mapping) : Grouping Counterpart × Grouping Counterpart :=
  let (key, m) := entry
  let (lookup, all, _) := parts.foldl (fun (lookup, all, source) part =>
    let isThere := containsAny part [m.target]
    let source := if isThere then part else source
    let lookup := if isThere then Grouping.add lookup key ⟨m.field, part, none⟩ else lookup
    (lookup, Grouping.add all key ⟨m.field, source, some m.target⟩, source))
    (state.1, state.2, m.source)
  (lookup, all)

/-! ### Dimensions -/

def dateText (f : Field) : Result String := do
  match ← f.canonDate with
  | some d => return Text.replace d "." "_"
  | none => malformed .noAttribute

def componentOf (c : Counterpart) : Result String :=
  match c.component with
  | some s => .ok s
  | none => malformed .missingKey

/-- Brings the counterpart of a dimension to its sub-query. -/
def counterpartStep (p : Project) (metrics : Grouping Field) (parts : List String)
    (t : Grouping Field) (c : Counterpart) : Result (Grouping Field) := do
  let f ← p.getField c.field
  if metrics.has c.part then return t.add c.part f
  let date ← dateText f
  let component ← componentOf c
  match parts.find? fun k => Text.contains k component with
  | some k => return t.add k f
  | none => return t.add (date ++ "__" ++ component) f

/-- Brings a dimension to one sub-query, by itself or by its counterparts; whether it was there by
itself. -/
def placeStep (p : Project) (metrics : Grouping Field) (parts : List String)
    (all : Grouping Counterpart) (f : Field) (graphs : List String)
    (state : Grouping Field × Bool) (part : String) : Result (Grouping Field × Bool) := do
  let (t, found) := state
  if containsAny part graphs then return (t.add part f, true)
  if !all.has f.key then throw (.noMappingFor f.key)
  let t ← (all.get f.key).foldlM (counterpartStep p metrics parts) t
  return (t, found)

def ownPart (p : Project) (all : Grouping Counterpart) (f : Field) (components : String)
    (metrics dimensions : Grouping Field) : Result (Grouping Field × Grouping Field) := do
  let key := (← dateText f) ++ "__" ++ components
  let dimensions := dimensions.add key f
  let dimensions ← (all.get f.key).foldlM (fun (t : Grouping Field) c => do
    let g ← p.getField c.field
    let date ← dateText g
    return t.add (date ++ "__" ++ (← componentOf c)) g) dimensions
  return (metrics.put key [], dimensions)

/-- The join graphs that sub-queries are to have; without any they are not asked for. -/
def graphsFor (parts : List String) (f : Field) : Action (List String) :=
  if parts.isEmpty then pure [] else Action.joinGraphs f

def dimensionStep (dates parts : List String) (all : Grouping Counterpart)
    (state : Grouping Field × Grouping Field) (name : String) :
    Action (Grouping Field × Grouping Field) := do
  let p ← Action.project
  let (metrics, dimensions) := state
  let f ← p.getField name
  let components ← componentKey f
  if dates.contains f.key then
    let t := dimensions.add (Text.replace f.key "." "_" ++ "__" ++ components) f
    let t ← (all.get f.key).foldlM (fun (t : Grouping Field) c => do
      let g ← p.getField (c.field ++ "_" ++ f.group.plain)
      return t.add c.part g) t
    return (metrics, t)
  else
    let graphs ← graphsFor parts f
    let (t, found) ← parts.foldlM (fun s k => do
      return (← placeStep p metrics parts all f graphs s k)) (dimensions, false)
    if found then return (metrics, t) else return (← ownPart p all f components metrics t)

/-! ### Conditions -/

/-- Brings a condition to one sub-query, by itself or by its counterparts; whether it got there. -/
def whereStep (p : Project) (all : Grouping Counterpart) (f : Field) (components : String)
    (isDate : Bool) (c : Condition) (state : Grouping Condition × List String) (part : String) :
    Result (Grouping Condition × List String) := do
  let (t, added) := state
  let own := f.view.name ++ "_" ++ f.name ++ "__" ++ components
  let belongs := if isDate then Text.contains part own else (behindDate part).contains components
  if belongs then return (t.add part c, part :: added)
  let mapped := (all.get f.key).filter (·.part == part)
  mapped.foldlM (fun (state : Grouping Condition × List String) m => do
    let (t, added) := state
    let name := if f.group.truthy then m.field ++ "_" ++ f.group.plain else m.field
    let g ← p.getField name
    let mapped : Condition := { definition := c.definition.set "field" (.text g.id) }
    return (t.add part mapped, part :: added)) (t, added)

/-- Brings a condition to the sub-queries; one with metrics that it did not get to has it as it
is. -/
def conditionStep (metrics dimensions : Grouping Field) (all : Grouping Counterpart)
    (t : Grouping Condition) (c : Condition) : Action (Grouping Condition) := do
  let p ← Action.project
  let metricDates ← (metrics.flatMap (·.2)).mapM fun f => do return (← f.canonDate)
  let f ← p.getField (← (← c.definition.need "field").needText)
  let isDate := metricDates.contains (some f.key)
  let components ← componentKey f
  let keys := (metrics.keys ++ dimensions.keys).eraseDups
  let (t, added) ← keys.foldlM (fun s k => do
    return (← whereStep p all f components isDate c s k)) (t, [])
  return metrics.keys.foldl (fun t k => if added.contains k then t else t.add k c) t

def fingerprint (d : Definition) : String :=
  Sha256.ofText (Json.render (Json.sortKeys (.map (d.map fun (k, v) => (k, .text v.plain)))))

def distinctConditions (cs : List Condition) : List Condition :=
  let marked := cs.map fun c => (fingerprint c.definition, c)
  (marked.map (·.1)).eraseDups.filterMap fun h => (marked.reverse.find? (·.1 == h)).map (·.2)

/-! ### Sub-queries -/

def needModel (q : MergedQuery) : Result Model :=
  match q.model with
  | some m => .ok m
  | none => malformed .noAttribute

/-- The conditions one by one; text cannot be taken apart. -/
def needWheres (q : MergedQuery) : Result (List Condition) :=
  match q.wheres with
  | .listed items => .ok items
  | .text s => if s.isEmpty then .ok [] else malformed .wrongType
  | .absent => malformed .wrongType

structure Layout where
  merged : List Field
  metrics : Grouping Field
  dates : List String
  byDate : Grouping Counterpart
  deriving Inhabited

def Layout.keys (l : Layout) : List String := partsOf l.byDate l.metrics

def layout (q : MergedQuery) : Action Layout := do
  let p ← Action.project
  let fields ← q.metrics.mapM fun n => do
    let f ← p.getField n
    return (f, (← f.isMergedResult p).truthy)
  let merged := (fields.filter (·.2)).map (·.1)
  let secondary := (fields.filter (!·.2)).map (·.1)
  let dimensionFields ← q.dimensions.mapM fun n => do return (← p.getField n)
  let metrics ← merged.foldlM (mergedStep p) []
  let metrics := distinctAll (← secondary.foldlM metricStep metrics)
  let dates ← dates p merged secondary dimensionFields
  let byDate ← dateCounterparts dates
  return { merged := merged, metrics := metrics, dates := dates, byDate := byDate }

def parts (q : MergedQuery) : Action Parts := do
  let l ← q.layout
  let mappings ← Action.fieldMappings (← q.needModel) true
  let (lookup, all) := mappings.foldl (mappingStep l.keys) (l.byDate, l.byDate)
  let (metrics, dimensions) ←
    q.dimensions.foldlM (dimensionStep l.dates l.keys all) (l.metrics, [])
  let dimensions := distinctAll dimensions
  let wheres ← (← q.needWheres).foldlM (conditionStep metrics dimensions all) []
  return { merged := l.merged, metrics := metrics, dimensions := dimensions,
           wheres := wheres.map fun (k, cs) => (k, distinctConditions cs),
           counterparts := lookup }

/-! ### Results -/

def ifNull : Warehouse → Result String
  | .druid => .ok "nvl"
  | .sqlServer | .azureSynapse => .ok "isnull"
  | .other _ => malformed .missingKey
  | _ => .ok "ifnull"

def nestedIfNull (function : String) : List (String × String) → Result String
  | [] => malformed .outOfRange
  | [(table, field)] => .ok (table ++ "." ++ Text.replace field "." "_")
  | (table, field) :: rest => do
    return function ++ "(" ++ table ++ "." ++ Text.replace field "." "_" ++ ", "
      ++ (← nestedIfNull function rest) ++ ")"

def equationText (warehouse : Warehouse) (dimensions : Grouping Field) (first second : String)
    (dimension : Field × Nat) : Result String := do
  let (f, i) := dimension
  let right ← match dimensions.find? (·.1 == second) with
    | some (_, fs) => pure fs
    | none => malformed .missingKey
  match right[i]? with
  | none => malformed .outOfRange
  | some g =>
    let a := first ++ "." ++ f.column
    let b := second ++ "." ++ g.column
    if warehouse == .bigquery && !f.datatype.same g.datatype then
      return "CAST(" ++ a ++ " AS TIMESTAMP)=CAST(" ++ b ++ " AS TIMESTAMP)"
    else return a ++ "=" ++ b

def joinCondition (warehouse : Warehouse) (dimensions : Grouping Field) (first second : String) :
    Result String := do
  if dimensions.all fun (_, fs) => fs.isEmpty then return "1=1"
  let left ← match dimensions.find? (·.1 == first) with
    | some (_, fs) => pure fs
    | none => malformed .missingKey
  return Text.join " and "
    (← left.zipIdx.mapM (equationText warehouse dimensions first second))

def byKey (t : Grouping Field) : Grouping Field := t.mergeSort fun a b => decide (a.1 ≤ b.1)

def metricColumns (metrics : Grouping Field) : List (String × String) :=
  let columns := (byKey metrics).flatMap fun (part, fs) =>
    fs.map fun f => (f.column, part ++ "." ++ f.column)
  columns.foldl (fun acc e => if acc.any (·.1 == e.1) then acc else acc ++ [e]) []

def framed (name : String) (f : Field) : String :=
  if f.group.truthy then name ++ "_" ++ f.group.plain else name

def standIns (dimensions : Grouping Field) (lookup : Grouping (String × String)) :
    Grouping (String × String) :=
  (dimensions.flatMap (·.2)).foldl (fun t f =>
    (lookup.get f.key).foldl (fun t (table, field) =>
      Grouping.add t (framed f.key f) (table, framed field f)) t) []

def dimensionColumn (warehouse : Warehouse) (ins : Grouping (String × String))
    (columns : List (String × String)) (part : String) (f : Field) :
    Result (List (String × String)) := do
  let here := part ++ "." ++ f.column
  let put (cs : List (String × String)) (sql : String) : List (String × String) :=
    if cs.any (·.1 == f.column) then cs.map fun e => if e.1 == f.column then (e.1, sql) else e
    else cs ++ [(f.column, sql)]
  let columns ← match columns.find? (·.1 == f.column) with
    | none => pure (put columns here)
    | some (_, sql) => do
      pure (put columns ((← ifNull warehouse) ++ "(" ++ sql ++ ", " ++ here ++ ")"))
  if ins.has f.id then
    let function ← ifNull warehouse
    let nested ← nestedIfNull function (ins.get f.id)
    return put columns (function ++ "(" ++ here ++ ", " ++ nested ++ ")")
  else return columns

def columns (p : Project) (warehouse : Warehouse) (parts : Parts)
    (lookup : Grouping (String × String)) : Result (List Sql.Column) := do
  let metrics := metricColumns parts.metrics
  let ins := standIns parts.dimensions lookup
  let dimensions ← (byKey parts.dimensions).foldlM (fun cs (part, fs) =>
    fs.foldlM (fun cs f => dimensionColumn warehouse ins cs part f) cs) []
  let taken := (metrics ++ dimensions).map (·.1)
  let merged ← parts.merged.foldlM (fun (state : List (String × String) × List String) f => do
    let (cs, taken) := state
    if taken.contains f.column then return state
    return (cs ++ [(f.column, ← f.columnSql p)], f.column :: taken)) ([], taken)
  return (metrics ++ dimensions ++ merged.1).map fun (name, sql) => .expression sql (some name)

def compilePart (q : MergedQuery) (parts : Parts) (key : String) : Action Compiled := do
  let query : SingleQuery :=
    { metrics := (parts.metrics.get key).map Field.id,
      dimensions := (parts.dimensions.get key).map Field.id,
      wheres := .listed (parts.wheres.get key), havings := .listed [], orders := .listed [],
      model := q.model, warehouse := q.warehouse, options := q.options.set "limit" .null }
  query.compile

def tableNames (keys : List String) : List (String × String) :=
  (keys.mergeSort fun a b => decide (a ≤ b)).zipIdx.map fun (k, i) =>
    (k, ((Text.split k "__").head?).getD "" ++ "__cte_subquery_" ++ toString i)

def nameOf (names : List (String × String)) (key : String) : String :=
  ((names.find? (·.1 == key)).map (·.2)).getD key

def compileParts (q : MergedQuery) (parts : Parts) (names : List (String × String)) :
    Action (List (String × Compiled)) :=
  parts.keys.mapM fun k => do return (nameOf names k, ← q.compilePart parts k)

def bodiesOf (tables : List (String × Compiled)) : Result (List (String × Sql.Statement)) :=
  tables.mapM fun
    | (name, .statement s) => .ok (name, s)
    | (_, .closed _) => malformed .noAttribute

def renamed {α : Type} (names : List (String × String)) (t : Grouping α) :
    Result (Grouping α) :=
  t.mapM fun (k, xs) => do
    match names.find? (·.1 == k) with
    | some (_, n) => return (n, xs)
    | none => malformed .missingKey

def lookupOf (names : List (String × String)) (t : Grouping Counterpart) :
    Result (Grouping (String × String)) :=
  t.mapM fun (k, cs) => do
    let found ← cs.mapM fun c =>
      match names.find? (·.1 == c.part) with
      | some (_, n) => .ok (n, c.field)
      | none => malformed .missingKey
    return (k, found)

def joinClauses (warehouse : Warehouse) (dimensions : Grouping Field) :
    List String → Result (List Sql.JoinClause)
  | [] => .ok []
  | first :: rest => rest.mapM fun name => do
    return ⟨.fullOuter, { table := name }, some (← joinCondition warehouse dimensions first name)⟩

def needWarehouse (q : MergedQuery) (keys : List String) : Result Warehouse :=
  match q.warehouse with
  | some w => if keys.isEmpty then malformed .unset else .ok w
  | none => malformed .unset

def compile (q : MergedQuery) (funnel : Value) : Action Sql.Statement := do
  if !funnel.same (.map []) then throw .funnelWithMerged
  let _ ← SingleQuery.namesOf q.wheres
  let _ ← SingleQuery.namesOf q.havings
  let parts ← q.parts
  let keys := parts.keys
  let names := tableNames keys
  let tables ← q.compileParts parts names
  let metrics ← renamed names parts.metrics
  let dimensions ← renamed names parts.dimensions
  let lookup ← lookupOf names parts.counterparts
  let warehouse ← q.needWarehouse keys
  let dialect ← Sql.Dialect.ofWarehouse warehouse
  let sorted := (tables.map (·.1)).mergeSort fun a b => decide (a ≤ b)
  let joins ← joinClauses warehouse dimensions sorted
  let p ← Action.project
  let parts := { parts with metrics := metrics, dimensions := dimensions }
  let columns ← columns p warehouse parts lookup
  let wheres ← Funnel.columnConditions p warehouse p.getField q.havings
  return .select (← bodiesOf tables)
    { dialect := dialect, columns := columns,
      source := sorted.head?.map fun n => { table := n }, joins := joins, wheres := wheres,
      limit := q.options.get "limit" }

end MergedQuery

end SemanticLayer
