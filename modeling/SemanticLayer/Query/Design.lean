import SemanticLayer.Join.Plan
import SemanticLayer.Workspace

/-!
# Designs

The fields of a query and what follows from them: the views they need, the joins between these, the
key that identifies the joined rows, and the conditions under which the user may see them.
-/

namespace SemanticLayer

/-- A timeframe put on a field for the rest of a query; the view is that of the lookup. -/
structure Shift where
  view : Option String
  field : String
  group : Value
  deriving Repr, Inhabited

structure Design where
  warehouse : Warehouse
  model : Option Model
  fields : List (String × Field)
  shifts : List Shift := []
  deriving Repr, Inhabited

namespace Design

def put (d : Design) (name : String) (f : Field) : Design :=
  if d.fields.any (·.1 == name) then
    { d with fields := d.fields.map fun e => if e.1 == name then (name, f) else e }
  else { d with fields := d.fields ++ [(name, f)] }

def has (d : Design) (name : String) : Bool := d.fields.any (·.1 == name)

def field (p : Project) (d : Design) (name : String) : Result Field := do
  let f ← p.getField name none d.model
  let (_, view) ← Project.parseName name none
  match d.shifts.find? fun s => s.view == view && s.field == f.id with
  | some s => return { f with chosen := some s.group }
  | none => return f

def view (p : Project) (d : Design) (name : String) : Result View := p.getView name d.model

def viewsOf (p : Project) (fields : List Field) : Result (List String) := do
  return (← fields.mapM (Field.requiredViews p)).flatten.eraseDups

/-! ### Access filters -/

def accessCondition (p : Project) (warehouse : Warehouse) (filter : Value) :
    Result (Option (List String × Field)) := do
  let filter ← filter.needMap
  let name ← filter.need "field"
  let field ← p.getField (← name.needText)
  let sql ← field.sqlQuery p (some warehouse) .none false
  let key ← filter.need "user_attribute"
  let value := match p.user, key with
    | some user, .text k => user.get k
    | _, _ => .null
  if !value.truthy then return none
  let conditions ← (← Filter.read p.almanac value .null .null).mapM fun (e, v) => do
    (← Sql.Criterion.ofExpression (Field.orNone sql) e v).renderAlone
  return some (conditions, field)

def accessFilter (p : Project) (d : Design) : Result (Option String × List Field) := do
  let views ← viewsOf p (d.fields.map (·.2))
  let found ← views.mapM fun name => do
    let v ← d.view p name
    let filters := v.property "access_filters"
    if filters.truthy then (← filters.iterate).filterMapM (accessCondition p d.warehouse)
    else return []
  let conditions := found.flatten.flatMap (·.1)
  let fields := found.flatten.map (·.2)
  if conditions.isEmpty || fields.isEmpty then return (none, [])
  else return (some (Text.join " and " conditions), fields)

def requiredViews (p : Project) (d : Design) : Result (List String) := do
  let (_, access) ← d.accessFilter p
  viewsOf p (d.fields.map (·.2) ++ access)

/-! ### Joins -/

def joins (d : Design) : Action (List Join) := do
  let p ← Action.project
  let views ← d.requiredViews p
  let g ← Action.joinGraph
  g.joins (← g.plan views)

def baseOf (p : Project) (d : Design) : List Join → Result String
  | j :: _ => .ok j.base.plain
  | [] => do
    match ← d.requiredViews p with
    | v :: _ => return v
    | [] => malformed .outOfRange

def isRelation (j : Join) (r : Relationship) : Bool := j.relationship.isTextOf r.name

/-- The view whose rows the joined rows are: the last one whose rows are not repeated. -/
def rowView (base : String) : Option Join → List Join → Option String
  | _, [] => some base
  | before, j :: rest =>
    if isRelation j .manyToMany then none
    else if isRelation j .oneToMany then
      if before.any (isRelation · .manyToOne) then none
      else rowView j.target.plain (some j) rest
    else rowView base (some j) rest

def keyOf (p : Project) (d : Design) (view : String) : Result RowKey := do
  match ← (← d.view p view).primaryKey p with
  | some f => return .field f.id
  | none => return .none

def rowKeyOf (p : Project) (d : Design) (js : List Join) : Result RowKey := do
  if js.any (isRelation · .manyToMany) then return .missing
  let base ← d.baseOf p js
  if js.all fun j => isRelation j .manyToOne || isRelation j .oneToOne then d.keyOf p base
  else
    let _ ← d.view p base
    match rowView base none js with
    | none => return .missing
    | some v => d.keyOf p v

def baseView (d : Design) : Action String := do
  let js ← d.joins
  d.baseOf (← Action.project) js

def rowKey (d : Design) : Action RowKey := do
  let js ← d.joins
  d.rowKeyOf (← Action.project) js

end Design

end SemanticLayer
