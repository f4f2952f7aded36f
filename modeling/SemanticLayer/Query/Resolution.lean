import SemanticLayer.Connection
import SemanticLayer.Query.Single

/-!
# Resolving requests

Resolving a request finds the model and the connection, adds the conditions that views always have,
and puts a field in the place of every mapped name: one that can be joined to the other fields, or
else merged with them.
-/

namespace SemanticLayer

structure Resolution where
  model : Model
  connection : Option Connection
  warehouse : Option Warehouse
  metrics : List String
  dimensions : List String
  funnel : Value
  /-- Conditions as text; those that are listed are kept by the workspace. -/
  wheres : Conditions
  havings : Conditions
  orders : Conditions
  options : Definition
  /-- Whether mapped dates ask for merged results. -/
  isMerged : Bool := false
  deriving Inhabited

namespace Resolution

/-! ### The model -/

/-- The model that a name belongs to: that of its field, or the first that can be asked for the
name. -/
def modelNameOf (p : Project) (models : List Model) (name : String) : Option Value :=
  match p.getField name with
  | .ok f => some (f.view.property "model_name")
  | .error _ =>
    let knows := fun m : Model => ((m.mappings p).bind fun ms => Model.mapped? ms name).toBool
    (models.find? knows).map Model.name

def modelFor (p : Project) (r : Request) : Result Model := do
  let models ← p.listModels
  let wanted := r.options.get "model_name"
  let found ← if wanted.truthy then p.getModel wanted
    else
      match models with
      | [] => throw .noModels
      | [m] => pure (some m)
      | first :: _ =>
        let names := (r.metrics ++ r.dimensions).filterMap (modelNameOf p models)
        let distinct := names.foldl (fun acc n => if acc.any n.same then acc else acc ++ [n]) []
        match distinct with
        | [] => pure (some first)
        | [n] => p.getModel n
        | _ => throw .manyModels
  match found with
  | some m => return m
  | none => malformed .noAttribute

/-! ### Conditions that views always have -/

def alwaysStep (p : Project) (view : String) (more : Definition) (v : Value) :
    Result (Value × Result (List Definition)) := do
  let d ← v.needMap
  let field ← (← d.need "field").needText
  let d := if Text.contains field "." then d else d.set "field" (.text (view ++ "." ++ field))
  return (.map d, Filter.conditions p.almanac (d.merge more))

/-- The conditions of a view one by one until one of them cannot be read; the conditions as they
are kept, and what they ask for if all could be read. -/
def alwaysOf (p : Project) (view : String) (more : Definition) :
    List Value → List Value × Option (List Definition)
  | [] => ([], some [])
  | v :: rest =>
    match alwaysStep p view more v with
    | .error _ => (v :: rest, none)
    | .ok (v, .error _) => (v :: rest, none)
    | .ok (v, .ok found) =>
      let (kept, others) := alwaysOf p view more rest
      (v :: kept, others.map (found ++ ·))

def sameCondition (a b : Definition) : Bool :=
  a.length == b.length && (a.zip b).all fun (x, y) => x.1 == y.1 && x.2.same y.2

/-- Whether a value can be told apart from others at a glance: maps cannot, and lists only if they
hold no further ones. -/
def isComparable : Value → Bool
  | .map _ => false
  | .list items => items.all fun v => match v with
    | .map _ | .list _ => false
    | _ => true
  | _ => true

def distinct (found : List Definition) : Result (List Definition) :=
  if found.all fun d => d.all fun (_, v) => isComparable v then
    .ok (found.foldl (fun acc d => if acc.any (sameCondition d) then acc else acc ++ [d]) [])
  else malformed .wrongType

def alwaysFor (more : Definition) (name : String) : Action (List Definition) := do
  let p ← Action.project
  match p.getField name with
  | .error _ => return []
  | .ok f =>
    match f.view.always with
    | .list items =>
      let (kept, found) := alwaysOf p f.view.name more items
      Action.edit fun s => .ok (s.setAlways f.view.shelf (.list kept))
      return found.getD []
    | _ => return []

def always (m : Model) (names : List String) : Action (List Definition) := do
  let zone ← (← Action.project).timezone
  let more : Definition :=
    [("week_start_day", m.definition.get "week_start_day"), ("timezone", zone)]
  let found ← names.mapM (alwaysFor more)
  return ← distinct found.flatten

/-! ### Conditions that were given -/

def entriesOf (v : Value) : Result (List Entry) := do
  match v with
  | .map d => return [⟨d, some 0⟩]
  | v => return (← (← v.iterate).mapM Value.needMap).zipIdx.map fun (d, i) => ⟨d, some i⟩

def takeUp (side : Side) (v : Value) : Action Conditions := do
  match v with
  | .null => return .absent
  | .text s => return .text s
  | v =>
    let entries ← entriesOf v
    modify fun w => match side with
      | .rows => { w with rows := entries }
      | .groups => { w with groups := entries }
    return .listed []

def heldBy (w : Workspace) (side : Side) : Conditions → Conditions
  | .listed _ =>
    let entries := match side with
      | .rows => w.rows
      | .groups => w.groups
    .listed (entries.zipIdx.map fun (e, i) => ⟨e.definition, some (side, i)⟩)
  | other => other

def current (side : Side) (shape : Conditions) : Action Conditions :=
  return heldBy (← get) side shape

def addAlways (given : Value) (always : List Definition) : Action Value := do
  if always.isEmpty then return given
  match given with
  | .list items =>
    let all := .list (items ++ always.map .map)
    if !items.isEmpty then
      modify fun w => { w with request := { w.request with wheres := all } }
    return all
  | _ => malformed .noAttribute

/-! ### Mapped names -/

structure Names where
  rows : List String
  groups : List String
  orders : List String
  fields : List (String × Field × List String) := []
  mapped : List (String × Definition) := []
  deriving Inhabited

def Names.step (m : Model) (mappings : Result Definition) (names : Names) (name : String) :
    Action Names := do
  let known := names.fields.any (·.1 == name) || names.mapped.any (·.1 == name)
  match ← Model.mapped? (← mappings) name with
  | some d => return if known then names else { names with mapped := names.mapped ++ [(name, d)] }
  | none =>
    let f ← (← Action.project).getField name none (some m)
    let graphs ← Action.joinGraphs f
    return if known then names else { names with fields := names.fields ++ [(name, f, graphs)] }

def commonGraphs : List (List String) → Result (List String)
  | [] => malformed .wrongType
  | g :: gs => .ok (g.filter fun x => gs.all (·.contains x))

/-- The join graphs that all names share.  If there are none, the name that keeps the others from
sharing one is to blame, or all of them. -/
def shared (graphs : List (String × List String)) (mapped : List String) :
    Result (List String) := do
  let common ← commonGraphs (graphs.map (·.2))
  if !common.isEmpty then return common
  for (name, _) in graphs do
    let others ← commonGraphs ((graphs.filter (·.1 != name)).map (·.2))
    if !others.isEmpty then throw (.fieldNotCombinable name)
  throw (.fieldsNotCombinable (graphs.map (·.1) ++ mapped))

def fieldsOf (d : Definition) : Result (List String) := do
  (← (← d.need "fields").iterate).mapM Value.needText

def firstFieldOf (d : Definition) : Result String := do
  match ← fieldsOf d with
  | f :: _ => return f
  | [] => malformed .outOfRange

def fitting (d : Definition) (graphs : List String) : Action Field := do
  let p ← Action.project
  let joinable := graphs.filter fun g => !Text.contains g "merged_result"
  let found ← (← fieldsOf d).mapM fun name => do
    let f ← p.getField name
    return (f, ← Action.joinGraphs f)
  let ofThese (gs : List String) : Option Field :=
    (found.find? fun (_, own) => own.any gs.contains).map (·.1)
  match ofThese joinable with
  | some f => return f
  | none =>
    match ofThese graphs with
    | some f => return f
    | none => throw (.mappedFieldWithoutPath (d.get "name").plain)

def measuresAt (p : Project) (date : String) : Result Nat := do
  let v ← p.getView (((Text.split date ".").head?).getD "")
  return ((← v.fieldsWith p true).filter Field.isMeasure).length

/-- The date among several whose view has the most measures. -/
def busiest (p : Project) (dates : List String) : Result (Option String) := do
  match dates with
  | [] => return none
  | [d] => return some d
  | ds =>
    let counted ← ds.mapM fun d => do return (d, ← measuresAt p d)
    return ((counted.mergeSort fun a b => decide (b.2 ≤ a.2)).head?).map (·.1)

/-- The field in the place of a mapped name, and whether results have to be merged for it. -/
def replacement (r : Resolution) (names : Names) (graphs : List String) (d : Definition) :
    Action (Field × Bool) := do
  let p ← Action.project
  let name := (d.get "name").plain
  let known (n : String) : Option Field :=
    (names.fields.find? (·.1 == n)).map fun (_, f, _) => f
  let fieldOf (n : String) : Result Field :=
    match known n with
    | some f => .ok f
    | none => p.getField n none (some r.model)
  if Mapping.dateNames.contains name then
    match r.metrics with
    | first :: others =>
      let date ← (← fieldOf first).canonDate
      let f ← p.getField (date.getD "None" ++ "_" ++ name)
      let differs ← others.anyM fun n => do return (← (← fieldOf n).canonDate) != date
      return (f, differs)
    | [] =>
      let dates ← (r.dimensions.filterMap known).filterMapM fun f => do
        return (← f.canonDate).filter (!·.isEmpty)
      match ← busiest p dates.eraseDups with
      | some date => return (← p.getField (date ++ "_" ++ name), false)
      | none => return (← fitting d graphs, false)
  else return (← fitting d graphs, false)

/-! ### Replacing -/

def replaceFirst (names : List String) (old new : String) : List String :=
  match names.findIdx? (· == old) with
  | some i => names.set i new
  | none => names

def replaceEntry (old new : String) (e : Entry) : Result Entry := do
  let field ← e.definition.need "field"
  return if field.isTextOf old then ⟨e.definition.set "field" (.text new), none⟩ else e

def replaceSide (side : Side) (old new : String) (shape : Conditions) : Action Conditions := do
  match shape with
  | .text s => return .text (Text.replace s old new)
  | .absent => return .absent
  | .listed _ =>
    let w ← get
    match side with
    | .rows =>
      let entries ← w.rows.mapM fun e => do return (← replaceEntry old new e)
      modify fun w => { w with rows := entries }
    | .groups =>
      let entries ← w.groups.mapM fun e => do return (← replaceEntry old new e)
      modify fun w => { w with groups := entries }
    return shape

def replaceOrder (old new : String) : Conditions → Result Conditions
  | .absent => .ok .absent
  | .text s => .ok (.text (Text.replace s old new))
  | .listed items => do
    let items ← items.mapM fun c => do
      let e ← replaceEntry old new ⟨c.definition, none⟩
      return { c with definition := e.definition }
    return .listed items

def replaceUsed (side : Side) (used : List String) (old new : String) (shape : Conditions) :
    Action Conditions :=
  if used.contains old then replaceSide side old new shape else pure shape

def replaceOrdered (used : List String) (old new : String) (shape : Conditions) :
    Result Conditions :=
  if used.contains old then replaceOrder old new shape else .ok shape

/-- Puts a field in the place of a mapped name; the lists of the caller change with it. -/
def replace (r : Resolution) (names : Names) (old : String) (f : Field) : Action Resolution := do
  let metrics := replaceFirst r.metrics old f.id
  let dimensions := replaceFirst r.dimensions old f.id
  modify fun w =>
    { w with request := { w.request with metrics := metrics, dimensions := dimensions } }
  let wheres ← replaceUsed .rows names.rows old f.id r.wheres
  let havings ← replaceUsed .groups names.groups old f.id r.havings
  let orders ← replaceOrdered names.orders old f.id r.orders
  return { r with metrics := metrics, dimensions := dimensions, wheres := wheres,
                  havings := havings, orders := orders }

def replaceAmong (r : Resolution) (names : Names) : Action Resolution := do
  let graphs ← shared (names.fields.map fun (n, _, gs) => (n, gs)) (names.mapped.map (·.1))
  names.mapped.foldlM (fun r (name, d) => do
    let (f, isMerged) ← r.replacement names graphs d
    ({ r with isMerged := r.isMerged || isMerged }).replace names name f) r

/-- Puts fields in the place of mapped names when there is nothing else: the first field of the
first mapping decides. -/
def replaceAlone (r : Resolution) (names : Names) : Action Resolution := do
  match names.mapped with
  | [] => return r
  | (name, d) :: rest =>
    let first ← firstFieldOf d
    let f ← (← Action.project).getField first
    let graphs ← Action.joinGraphs f
    let r ← r.replace names name f
    rest.foldlM (fun r (other, d) => do
      let graphs ← shared [(name, graphs)] (names.mapped.map (·.1))
      r.replace names other (← fitting d graphs)) r

def resolveNames (r : Resolution) : Action Resolution := do
  let rows ← SingleQuery.namesOf (← current .rows r.wheres)
  let groups ← SingleQuery.namesOf (← current .groups r.havings)
  let orders ← SingleQuery.namesOf r.orders
  let mappings := r.model.mappings (← Action.project)
  let names ← (r.metrics ++ r.dimensions ++ rows ++ groups ++ orders).foldlM
    (Names.step r.model mappings) { rows := rows, groups := groups, orders := orders }
  if names.mapped.isEmpty then return r
  if names.fields.isEmpty then r.replaceAlone names else r.replaceAmong names

/-! ### Resolving -/

def warehouseFor (connection : Option Connection) (options : Definition) :
    Result (Option Warehouse) :=
  match options.get? "query_type", connection with
  | some .null, _ => .ok none
  | some v, _ => .ok (some (.ofValue v))
  | none, some c => .ok (some c.warehouse)
  | none, none => .error .warehouseUndetermined

def ofRequest (connections : List Connection) (r : Request) : Action Resolution := do
  modify fun w => { w with request := r, rows := [], groups := [] }
  let m ← modelFor (← Action.project) r
  let given := if r.wheres.truthy then r.wheres else .list []
  let given ← addAlways given (← always m (r.metrics ++ r.dimensions))
  let connection := connections.find? fun c => c.name.same (m.definition.get "connection")
  let warehouse ← warehouseFor connection r.options
  let schema := (connection.map Connection.schema).getD .null
  modify fun w => { w with project := { w.project with schema := schema } }
  let wheres ← takeUp .rows given
  let havings ← takeUp .groups r.havings
  let orders ← SingleQuery.orderItems r.orders
  let resolution : Resolution :=
    { model := m, connection := connection, warehouse := warehouse, metrics := r.metrics,
      dimensions := r.dimensions, funnel := r.funnel, wheres := wheres, havings := havings,
      orders := orders, options := r.options }
  resolution.resolveNames

end Resolution

end SemanticLayer
