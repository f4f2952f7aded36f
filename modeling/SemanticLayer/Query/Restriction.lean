import SemanticLayer.Query.Design

/-!
# Restrictions

A condition of a query, read and checked.  Reading settles it: conditions on fields that are true or
false become boolean ones, and moments are cast where the warehouse needs it.
-/

namespace SemanticLayer

structure Restriction where
  side : Side
  definition : Definition
  field : Option Field
  warehouse : Warehouse
  weekStart : Value
  zone : Value
  deriving Repr, Inhabited

namespace Restriction

def valueless : List String :=
  ["is_null", "is_not_null", "boolean_true", "boolean_false", "converted", "dropped_off"]

def cast (f : Field) (v : Value) : Result Value := do
  return .sql ((← f.datatypeName) ++ "('" ++ v.plain ++ "')")

def isMoment : Value → Bool
  | .moment _ => true
  | _ => false

def settle (warehouse : Warehouse) (f : Field) (d : Definition) : Result Definition := do
  let d ← if warehouse == .bigquery then do
      let v ← d.need "value"
      if isMoment v then pure (d.set "value" (← cast f v)) else pure d
    else pure d
  if f.hasType "yesno" then
    let shown := (← d.need "value").plain
    let d := if Text.contains shown "False" then d.set "expression" (.text "boolean_false") else d
    return if Text.contains shown "True" then d.set "expression" (.text "boolean_true") else d
  else return d

def isTruth (d : Definition) : Bool :=
  (d.get "field").isNull && Text.lower (d.get "value").plain == "true"

def check (d : Definition) : Result Bool := do
  let key := d.get "field"
  let sql := d.get "literal"
  if key.isNull && sql.isNull && !isTruth d then throw (.filterWithoutKey (.map d))
  if key.isNull && sql.truthy then return false
  let expression ← d.need "expression"
  if expression.isTextOf "UNKNOWN" then throw (.unknownFilter expression)
  if (d.get "value").isNull && !valueless.any expression.isTextOf then
    throw (.filterWithoutValue expression)
  return true

def keep (place : Option (Side × Nat)) (d : Definition) : Action Unit := do
  match place with
  | none => pure ()
  | some (side, i) =>
    modify fun w =>
      let entries := match side with
        | .rows => w.rows
        | .groups => w.groups
      match entries[i]? with
      | none => w
      | some e =>
        let entries := entries.set i { e with definition := d }
        let w := match side with
          | .rows => { w with rows := entries }
          | .groups => { w with groups := entries }
        match e.given with
        | some k => { w with request := w.request.setCondition side k d }
        | none => w

def readAlone (warehouse : Warehouse) (side : Side) (d : Definition) : Result Restriction := do
  let d := if isTruth d then d.set "value" (.bool true) else d
  let _ ← check d
  return { side := side, definition := d, field := none, warehouse := warehouse,
           weekStart := .null, zone := .null }

def read (design : Design) (side : Side) (c : Condition) : Action Restriction := do
  let truth := isTruth c.definition
  let d := if truth then c.definition.set "value" (.bool true) else c.definition
  let r : Restriction := { side := side, definition := d, field := none,
                           warehouse := design.warehouse, weekStart := .null, zone := .null }
  if !(← check d) then return r
  let p ← Action.project
  let week ← match design.model with
    | some m => pure (m.definition.get "week_start_day")
    | none => malformed .noAttribute
  let zone ← p.timezone
  let r := { r with weekStart := week, zone := zone }
  if truth then
    keep c.place d
    return r
  let f ← design.field p (← (d.get "field").needText)
  let d ← settle design.warehouse f d
  keep c.place d
  return { r with definition := d, field := some f }

def expression (r : Restriction) : Expression := .parse (r.definition.get "expression")

def isLiteral (r : Restriction) : Bool := r.definition.has "literal"

def isGrouped (r : Restriction) : Bool := !(r.definition.get "group_by").isNull

def isFunnel (r : Restriction) : Bool :=
  ["converted", "dropped_off"].any (r.definition.get "expression").isTextOf

def criteria (p : Project) (r : Restriction) (sql : String) : Result (List Sql.Criterion) := do
  let value := r.definition.get "value"
  match r.expression with
  | .isMatch =>
    match r.field with
    | none => malformed .noAttribute
    | some f =>
      (← Filter.read p.almanac value r.weekStart r.zone).mapM fun (e, v) => do
        let v ← if r.warehouse == .bigquery then cast f v else pure v
        Sql.Criterion.ofExpression sql e v
  | e => return [← Sql.Criterion.ofExpression sql e value]

/-- SQL text as a field of a view: a condition on groups is a number. -/
def literalField (r : Restriction) (v : View) : Result Field :=
  let common : Definition := [("sql", r.definition.get "literal"), ("name", .null)]
  match r.side with
  | .rows => Field.make (common ++ [("field_type", .null)]) v
  | .groups => Field.make (common ++ [("field_type", .text "measure"), ("type", .text "number")]) v

/-- The criteria of a condition in a design with the given joins. -/
def inDesign (p : Project) (design : Design) (js : List Join) (r : Restriction) :
    Result (List Sql.Criterion) := do
  if r.isLiteral then
    let v ← design.view p (← design.baseOf p js)
    let f ← r.literalField v
    let key ← design.rowKeyOf p js
    let sql ← f.sqlQuery p (some r.warehouse) key false
    return [.raw (Field.orNone sql)]
  else
    let key ← design.rowKeyOf p js
    match r.field with
    | none => malformed .noAttribute
    | some f => r.criteria p (Field.orNone (← f.sqlQuery p (some r.warehouse) key false))

end Restriction

end SemanticLayer
