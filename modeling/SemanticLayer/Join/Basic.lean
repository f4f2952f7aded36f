import SemanticLayer.Field.Aggregate
import SemanticLayer.Join.Relationship
import SemanticLayer.Project.Sets
import SemanticLayer.Sql.Statement

/-!
# Joins

A join adds a view to another by a condition.  It is a left outer join of many rows to one unless
it says otherwise.
-/

namespace SemanticLayer

structure Join where
  definition : Definition
  deriving Repr, Inhabited

namespace Join

def property (j : Join) (key : String) : Value := j.definition.get key

def base (j : Join) : Value := j.property "base_view_name"

def target (j : Join) : Value := j.property "join_view_name"

def relationship (j : Join) : Value := j.property "relationship"

def kind (j : Join) : Sql.JoinKind := .ofValue (j.property "type")

def condition (j : Join) : Value := j.property "sql_on"

def name (j : Join) : String :=
  "join between " ++ j.base.plain ++ " and " ++ j.target.plain

def describe (j : Join) : String := "<Join name=" ++ j.name ++ ">"

def orElse (d : Definition) (key value : String) : Definition :=
  if d.has key then d else d.set key (.text value)

def make (d : Definition) : Result Join := do
  let d := orElse (orElse d "type" "left_outer") "relationship" "many_to_one"
  let needed := ["base_view_name", "join_view_name", "relationship", "type"]
  match needed.find? fun k => !d.has k with
  | some k => throw (.joinMissingKey k (d.get "base_view_name") (d.get "join_view_name"))
  | none =>
    let given := (["sql_on", "foreign_key", "sql"].filter d.has).length
      + (if (d.get "type").isTextOf "cross" then 1 else 0)
    if given = 0 then throw (.joinWithoutCondition (d.get "base_view_name"))
    else if 1 < given then throw (.joinWithManyConditions (d.get "base_view_name"))
    else return ⟨d⟩

def conditionSql (p : Project) (j : Join) (warehouse : Warehouse) : Result String := do
  let sql ← j.condition.needText
  (Reference.all sql).foldlM (fun acc reference => do
    let parts := Name.parts reference
    let view ← p.getView (parts.view.getD "None")
    let field ← p.getField parts.field (some view.name)
    -- a view whose name is empty qualifies nothing
    if view.name.isEmpty then return Text.replace acc (Reference.wrap reference) parts.field
    match ← field.sqlQuery p (some warehouse) .none false with
    | some s => return Text.replace acc (Reference.wrap reference) s
    | none => malformed .wrongType) sql

def requiredViews (j : Join) : Result (List Value) := do
  if !j.condition.truthy then return [j.base, j.target]
  let sql ← j.condition.needText
  return ((Reference.all sql).map fun r => (Name.parts r).view).eraseDups.map Value.ofOption

def errors (p : Project) (j : Join) : Result (List String) := do
  let key := j.property "foreign_key"
  if key.truthy then
    return [j.base, j.target].map fun v =>
      "Could not find field " ++ key.plain ++ " in " ++ j.name ++ " referencing view " ++ v.plain
  if !j.condition.truthy then return []
  let sql ← j.condition.needText
  return (Reference.all sql).filterMap fun reference =>
    let parts := Name.parts reference
    let view := parts.view.getD "None"
    match p.getView view with
    | .error _ => some ("Could not find view " ++ view ++ " in " ++ j.name)
    | .ok v =>
      match p.getField parts.field (some v.name) with
      | .ok _ => none
      | .error _ => some ("Could not find field " ++ parts.field ++ " in " ++ j.name
          ++ " referencing view " ++ view)

def isValid (j : Join) : Result Bool := do
  if j.condition.truthy then
    let sql ← j.condition.needText
    if (Reference.all sql).isEmpty then return true else malformed .noAttribute
  return !(j.property "foreign_key").isNull || j.kind == .cross

def requiredJoins (j : Join) : Result (List Value) := do
  if !j.condition.truthy then malformed .noAttribute
  j.requiredViews

def fieldNames (p : Project) (j : Join) : Result Value := do
  let entries := j.property "fields"
  if entries.isNull then return .null
  return .texts (← FieldSet.fieldNames p ⟨.text "NA", entries, j.property "from_"⟩)

end Join

end SemanticLayer
