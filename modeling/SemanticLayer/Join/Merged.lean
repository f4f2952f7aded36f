import SemanticLayer.Join.Graph
import SemanticLayer.Project.Mapping

/-!
# The graph of merged results

Views that cannot be joined can still be merged: along the dates of their measures, along mapped
fields, and along fields that both sides can join.  Every way to merge is a root; a field belongs to
the roots from which an arc leads to it.
-/

namespace SemanticLayer

structure MergedGraph where
  /-- Fields with roots that lead to them, in the order of adding. -/
  arcs : List (String × List String)
  /-- The dates that were gone through, each with its last timeframe. -/
  dates : List (String × Value)
  deriving Repr, Inhabited

namespace MergedGraph

def rootsOf (g : MergedGraph) (field : String) : List String :=
  ((g.arcs.filter (·.1 == field)).flatMap (·.2)).eraseDups

def dateRoot : String := "canon_date_core"

/-- A measure with its component and its date under every timeframe. -/
structure Dated where
  component : String
  measure : String
  date : String
  frames : List (String × String)

/-- A measure with its date; a date that is not there has no timeframes. -/
def dated (p : Project) (g : JoinGraph) (f : Field) (date : String) : Result Dated := do
  let component ← g.componentOf f.view.name
  match p.getFieldByName date with
  | .error e => if e.isAccess then return ⟨component, f.id, date, []⟩ else throw e
  | .ok d =>
    let frames ← (← (d.property "timeframes").iterate).mapM fun t => do
      let name ← t.needText
      return (name, { d with chosen := some t }.id)
    return ⟨component, f.id, date, frames⟩

def dateArcs (root : String) (measures : List Dated) :
    List (String × List String) × List String :=
  let arcs := measures.flatMap fun m => m.frames.flatMap fun (t, id) =>
    let r := root ++ "_" ++ t
    [(id, [r]), (m.measure, [r])]
  (arcs, (arcs.flatMap (·.2)).eraseDups.mergeSort fun a b => decide (a ≤ b))

def mappingArcs (p : Project) (mappings : List (String × Mapping)) (components roots : List String)
    (measuresOnly : Bool) : Result (List (String × List String)) := do
  let found ← mappings.mapM fun (name, m) => do
    if m.isDate || (measuresOnly && !m.fieldType.isTextOf "measure") then return []
    if components.contains m.source && components.contains m.target then
      let f ← p.getField name
      let g ← p.getField m.field
      return [(f.id, roots), (g.id, roots)]
    else return []
  return found.flatten

def pairs : List String → List (String × String)
  | [] => []
  | a :: rest => rest.map (fun b => (a, b)) ++ pairs rest

def pairArcs (p : Project) (g : JoinGraph) (m : Model) (measures : List Dated)
    (mappings : List (String × Mapping)) (views : List View) (pair : String × String) :
    Result (List (String × List String)) := do
  let both := [pair.1, pair.2]
  let (arcs, roots) := dateArcs (pair.1 ++ "_" ++ pair.2)
    (measures.filter fun d => both.contains d.component)
  let shared ← (views.filter fun v => both.all (g.joinableFrom v.name).contains).mapM fun v => do
    return (← p.fields (some v.name) true true (some m)).map fun f => (f.id, roots)
  return arcs ++ shared.flatten ++ (← mappingArcs p mappings both roots false)

def build (p : Project) (g : JoinGraph) (m : Model) : Result MergedGraph := do
  let candidates ← (← p.fields none true false (some m)).filterMapM fun f => do
    return (← f.canonDate).bind fun d => if !d.isEmpty && f.isMeasure then some (f, d) else none
  let mappings ← m.fieldMappings p g.componentOf true
  let measures ← candidates.mapM fun (f, d) => dated p g f d
  let components := (measures.map (·.component)).eraseDups.mergeSort fun a b => decide (a ≤ b)
  let (arcs, roots) := dateArcs dateRoot measures
  let mapped ← mappingArcs p mappings components roots true
  let views ← p.listViews (some m)
  let paired ← (pairs components).mapM (pairArcs p g m measures mappings views)
  let dates := measures.filterMap fun d => d.frames.getLast?.map fun (t, _) => (d.date, .text t)
  return ⟨arcs ++ mapped ++ paired.flatten, dates⟩

end MergedGraph

end SemanticLayer
