import SemanticLayer.Field.References

/-!
# Mappings

A model can map one name to fields of several views that mean the same.  The names of timeframes
are always mapped: to the dates along which the measures of the project are looked at.
-/

namespace SemanticLayer

structure Mapping where
  field : String
  fieldType : Value
  source : String
  target : String
  isDate : Bool
  deriving Repr, Inhabited

namespace Mapping

def dateNames : List String :=
  ["date", "day_of_year", "week_of_year", "week", "month_of_year", "month", "quarter", "year"]

/-- Things with the number of times they occur, the most frequent first. -/
def mostCommon {α : Type} [BEq α] (xs : List α) : List (α × Nat) :=
  (xs.eraseDups.map fun x => (x, xs.count x)).mergeSort fun a b => decide (b.2 ≤ a.2)

def dateDescription (name : String) : String :=
  s!"The {name} associated with the metric or metrics you have "
    ++ "in your query. When in doubt, use this to trend metrics over time."

def dateMapping (p : Project) (dates : List String) (name : String) : Result Value := do
  let fields ← (dates.map fun d => d ++ "_" ++ name).filterM fun id => p.fieldExists id
  return .map [("fields", .texts fields), ("group_label", .text "Dates"),
    ("description", .text (dateDescription name))]

end Mapping

namespace Model

def writtenMappings (m : Model) : Result Definition :=
  match m.definition.get "mappings" with
  | .null => .ok []
  | v => v.needMap

def mappings (p : Project) (m : Model) : Result Definition := orWritten m.writtenMappings do
  let own ← ((m.definition.get? "mappings").getD (.map [])).needMap
  let dates ← (← p.fields none true false none).mapM fun f => f.canonDate
  let common := (Mapping.mostCommon dates).filterMap (·.1)
  Mapping.dateNames.foldlM (fun acc name => do
    if acc.has name then throw (.reservedMapping name)
    return acc.set name (← Mapping.dateMapping p common name)) own

def mapped? (mappings : Definition) (name : String) : Result (Option Definition) := do
  let key := Text.lower name
  let data := mappings.get key
  if data.truthy then
    let base : Definition := [("name", .text key)]
    return some (base.merge (← data.needMap))
  else return none

def mappedFields (v : Value) : Result (List String) := do
  match (← v.asMap).get? "fields" with
  | none => return []
  | some fields => (← fields.iterate).mapM Value.needText

def mappingField? (p : Project) (name : String) : Result (Option Field) :=
  match p.getField name with
  | .ok f => .ok (some f)
  | .error e => if e.isAccess then .ok none else .error e

/-- What a field is mapped to; the last of the other fields counts. -/
def mappingsFrom (p : Project) (component : String → Result String) (isDate : Bool)
    (fields : List String) (dimensionsOnly : Bool) (from_ : String) : Result (Option Mapping) := do
  match ← mappingField? p from_ with
  | none => return none
  | some f =>
    if dimensionsOnly && f.isMeasure then return none
    let source ← component f.view.name
    if f.isGroup && !isDate then throw (.mappingWithGroup f.id)
    fields.foldlM (fun last other => do
      if other == from_ then return last
      match ← mappingField? p other with
      | none => return last
      | some g =>
        let target ← component g.view.name
        if !(g.property "field_type").same (f.property "field_type") then
          throw (.mappingOfDifferentTypes from_ other)
        return some ⟨other, g.property "field_type", source, target, isDate⟩) none

def fieldMappings (p : Project) (component : String → Result String) (m : Model)
    (dimensionsOnly : Bool) : Result (List (String × Mapping)) := do
  let found ← (← m.mappings p).mapM fun (name, v) => do
    let fields ← mappedFields v
    let isDate := Mapping.dateNames.contains name
    fields.filterMapM fun f => do
      return (← mappingsFrom p component isDate fields dimensionsOnly f).map fun m => (f, m)
  return found.flatten.foldl (fun acc (k, m) =>
    if acc.any (·.1 == k) then acc.map fun e => if e.1 == k then (k, m) else e
    else acc ++ [(k, m)]) []

end Model

end SemanticLayer
