import SemanticLayer.Filter.Condition
import SemanticLayer.Project.Lookup

/-!
# Dashboards

A dashboard shows elements: metrics sliced by dimensions, under filters.  An element belongs to a
model; the filters of the whole dashboard hold for all its elements.
-/

namespace SemanticLayer

structure Dashboard where
  definition : Definition
  deriving Repr, Inhabited

structure Element where
  definition : Definition
  dashboard : Value
  deriving Repr, Inhabited

def rawFilters (d : Definition) : Result (List Value) :=
  match d.get "filters" with
  | .null => .ok []
  | v => v.iterate

def readFilters (p : Project) (filters : List Value) (more : Definition) :
    Result (List Definition) := do
  let found ← filters.mapM fun v => do Filter.conditions p.almanac ((← v.needMap).merge more)
  return found.flatten

def isFound (p : Project) (name : Value) : Bool :=
  match name with
  | .text s => (p.getField s).toBool
  | _ => false

namespace Element

def make (dashboard v : Value) : Result Element := do
  let d ← v.needMap
  d.require "Dashboard Element" ["model"]
  return ⟨d, dashboard⟩

def model (p : Project) (e : Element) : Result Model := do
  match ← p.getModel (e.definition.get "model") with
  | some m => return m
  | none => throw (.dashboardModelNotFound (e.definition.get "model") e.dashboard)

def sliceBy (e : Element) : Value := (e.definition.get? "slice_by").getD (.list [])

def metrics (e : Element) : Value :=
  let given := match e.definition.get? "metric" with
    | some v => v
    | none => (e.definition.get? "metrics").getD (.list [])
  match given with
  | .text s => .list [.text s]
  | v => v

def filters (p : Project) (e : Element) : Result (List Definition) := do
  let week := (← e.model p).definition.get "week_start_day"
  let more : Definition := [("week_start_day", week), ("timezone", ← p.timezone)]
  readFilters p (← rawFilters e.definition) more

def toDefinition (p : Project) (e : Element) : Result Definition := do
  let filters ← e.filters p
  return (e.definition.set "metrics" e.metrics).set "filters" (.list (filters.map .map))

def fieldNames (e : Element) : Result (List Value) :=
  match e.metrics, e.sliceBy with
  | .list ms, .list ds => .ok (ms ++ ds)
  | _, _ => malformed .wrongType

def errors (p : Project) (e : Element) : Result (List String) := do
  let model ← match e.model p with
    | .ok _ => pure []
    | .error err => if err.isQuery then pure [(err.message?).getD ""] else throw err
  let fields := ((← e.fieldNames).filter fun n => !isFound p n).map fun n =>
    "Could not find field " ++ n.plain ++ " referenced in dashboard " ++ e.dashboard.plain
  let filters ← (← rawFilters e.definition).filterMapM fun v => do
    let name ← (← v.needMap).need "field"
    return if isFound p name then none
      else some ("Could not find field " ++ name.plain ++ " referenced in a filter in dashboard "
        ++ e.dashboard.plain)
  return model ++ fields ++ filters

end Element

namespace Dashboard

def make (d : Definition) : Result Dashboard := do
  let d ← match d.get "name" with
    | .null => pure d
    | name => do pure (d.set "name" (.text (Text.lower (← name.asText))))
  let d := if (d.get "layout").isNull then d.set "layout" (.text "grid") else d
  d.require "Dashboard" ["name", "layout"]
  return ⟨d⟩

def name (b : Dashboard) : Value := b.definition.get "name"

def label (b : Dashboard) : Result Value :=
    orWritten (.ok (b.definition.get "label")) do
  let written := b.definition.get "label"
  if written.truthy then return written
  else return .text (Text.title (Text.replace (← b.name.asText) "_" " "))

def elements (b : Dashboard) : Result (List Element) := do
  match b.definition.get? "elements" with
  | none => return []
  | some v => (← v.iterate).mapM (Element.make b.name)

def weekStart (p : Project) (b : Dashboard) : Result Value := do
  let days ← (← b.elements).mapM fun e => do
    return (← e.model p).definition.get "week_start_day"
  match days with
  | [] => return .null
  | d :: rest => return if rest.all d.same then d else .null

def filters (p : Project) (b : Dashboard) : Result (List Definition) := do
  let more : Definition := [("timezone", ← p.timezone), ("week_start_day", ← b.weekStart p)]
  readFilters p (← rawFilters b.definition) more

def toDefinition (p : Project) (b : Dashboard) : Result Definition := do
  let elements ← (← b.elements).mapM (Element.toDefinition p)
  let filters ← b.filters p
  return (b.definition.set "elements" (.list (elements.map .map))).set "filters"
    (.list (filters.map .map))

def printable (p : Project) (b : Dashboard) : Result Definition := do
  return (← b.toDefinition p).pick ["name", "label", "description"]

def errors (p : Project) (b : Dashboard) : Result (List String) := do
  let filters ← (← rawFilters b.definition).filterMapM fun v => do
    let name ← (← v.needMap).need "field"
    return if isFound p name then none
      else some ("Could not find field " ++ name.plain ++ " referenced in a filter in dashboard "
        ++ b.name.plain)
  let elements ← (← b.elements).mapM (Element.errors p)
  return filters ++ elements.flatten

end Dashboard

namespace Project

def listDashboards (p : Project) : Result (List Dashboard) :=
  p.dashboards.filterMapM fun d => do
    let b ← Dashboard.make d
    return if ← p.permits (b.definition.get "required_access_grants") then some b else none

def getDashboard (p : Project) (name : String) : Result Dashboard := do
  match (← p.listDashboards).find? fun b => b.name.isTextOf name with
  | some b => return b
  | none => throw (.dashboardNotFound name)

end Project

end SemanticLayer
