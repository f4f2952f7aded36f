import SemanticLayer.Field.Names

/-!
# Non-additive dimensions

A measure that is not additive along one dimension, such as a balance along time, is taken at one
row of that dimension in each window: the last or the first.  The row is found by a table of its
own, which the names below belong to.
-/

namespace SemanticLayer.Field

def nonAdditive (f : Field) : Result Value :=
    orWritten (.ok (f.property "non_additive_dimension")) do
  let v := f.property "non_additive_dimension"
  if !v.truthy then return v
  match v.map? with
  | none => malformed .wrongType
  | some d =>
    let name ← match ← d.need "name" with
      | .text s => pure (Name.qualify f.view.name s)
      | _ => malformed .wrongType
    let d := d.set "name" (.text name)
    let groupings := d.get "window_groupings"
    if groupings.truthy then
      let qualified ← (← groupings.iterate).mapM fun g => do
        return Value.text (Name.qualify f.view.name (← g.needText))
      return .map (d.set "window_groupings" (.list qualified))
    else return .map d

def windowName (d : Definition) : String :=
  Text.lower (((Text.split (d.get "name").plain ".").getLast?).getD "")

def nonAdditiveColumn (f : Field) : Result (Option String) := do
  match (← f.nonAdditive).map? with
  | some d =>
    if d.isEmpty then return none
    let choice ← d.need "window_choice"
    return some (f.view.name ++ "_" ++ choice.plain ++ "_" ++ windowName d)
  | none => return none

def nonAdditiveTable (f : Field) : Result (Option String) := do
  match (← f.nonAdditive).map? with
  | some d =>
    if d.isEmpty then return none else return some ("cte_" ++ f.name ++ "_" ++ windowName d)
  | none => return none

def windowFilters (f : Field) (d : Definition) : Result (List Definition) := do
  let table := ((← f.nonAdditiveTable).getD "None")
  let column := ((← f.nonAdditiveColumn).getD "None")
  let first : Definition :=
    [("field", d.get "name"), ("value", .sql (table ++ "." ++ column))]
  let groupings ← match d.get? "window_groupings" with
    | none => pure []
    | some v => v.iterate
  let others ← groupings.mapM fun g => do
    let name ← g.asText
    let condition : Definition :=
      [("field", g), ("value", .sql (table ++ "." ++ Text.replace name "." "_"))]
    return condition
  return first :: others

/-- A list of groupings that is written but empty collects the dimensions of queries. -/
def collecting (dimensions : List String) (d : Definition) : Definition :=
  match (d.get "non_additive_dimension").map? with
  | some n =>
    match n.get? "window_groupings" with
    | some (.list []) =>
      d.set "non_additive_dimension" (.map (n.set "window_groupings" (.texts dimensions)))
    | _ => d
  | none => d

end SemanticLayer.Field
