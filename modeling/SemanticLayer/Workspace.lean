import SemanticLayer.Join.Merged
import SemanticLayer.Query.Request

/-!
# Workspaces

A project that is worked with.  The join graph and the graph of merged results are kept once they
were needed; so are the join graphs of fields, even when the rest is refreshed.  A lookup that
chooses a timeframe leaves its choice behind.
-/

namespace SemanticLayer

structure Choice where
  /-- The user and the view of the list; no view stands for the list of all fields. -/
  user : String
  view : Option String
  field : String
  group : Value
  deriving Repr, Inhabited

structure Workspace where
  project : Store
  joinGraph : Option JoinGraph.Built := none
  merged : Option MergedGraph := none
  /-- Join graphs of fields by user and field. -/
  remembered : List ((String × String) × List String) := []
  /-- Timeframes chosen among the visible dimensions. -/
  chosen : List Choice := []
  /-- Timeframes left on dates when results were merged. -/
  dated : List Choice := []
  /-- The request at hand, as far as names in it were replaced. -/
  request : Request := {}
  /-- The conditions on rows and on groups that are worked on. -/
  rows : List Entry := []
  groups : List Entry := []
  deriving Inhabited

/-- Work on a project: it can fail, and what it changed until then stays. -/
abbrev Action := ExceptT Error (StateM Workspace)

namespace Action

def project : Action Project := return (← get).project

def edit (change : Store → Result Store) : Action Unit := do
  let p ← change (← get).project
  modify fun w => { w with project := p }

def outcome {α : Type} (a : Action α) : Action (Result α) := fun w =>
  let (r, w') := a w
  (.ok r, w')

/-! ### Kept graphs -/

def joinGraph : Action JoinGraph := do
  let w ← get
  match w.joinGraph with
  | some g => return g.1
  | none =>
    let g ← JoinGraph.Built.ofViews (← w.project.listViews none)
    modify fun w => { w with joinGraph := some g }
    return g.1

/-- The graph of merged results; the first model that asks for it decides. -/
def mergedGraph (m : Model) : Action MergedGraph := do
  let g ← joinGraph
  let w ← get
  match w.merged with
  | some merged => return merged
  | none =>
    let merged ← MergedGraph.build w.project g m
    let user := w.project.userKey
    let left := merged.dates.map fun (d, t) => ⟨user, (Name.parts d).view, d, t⟩
    modify fun w => { w with merged := some merged, dated := left ++ w.dated }
    return merged

def refresh : Action Unit :=
  modify fun w => { w with joinGraph := none, merged := none, chosen := [], dated := [] }

def fieldMappings (m : Model) (dimensionsOnly : Bool) : Action (List (String × Mapping)) := do
  let g ← outcome joinGraph
  m.fieldMappings (← project) (fun view => do (← g).componentOf view) dimensionsOnly

def derivedGraphs (f : Field) : Action (List String) := do
  let p ← project
  match ← f.view.model p with
  | none => throw (.noModelInView f.view.name)
  | some m =>
    let base := (← joinGraph).joinableFrom f.view.name
    if ← f.isCumulative p then return base
    let extended := ((← mergedGraph m).rootsOf f.id).map fun r => "merged_result_" ++ r
    if (← f.isMergedResult p).truthy then return extended
    return (base ++ extended).mergeSort fun a b => decide (a ≤ b)

def joinGraphs (f : Field) : Action (List String) := do
  let w ← get
  let key := (w.project.userKey, f.id)
  match w.remembered.find? (·.1 == key) with
  | some (_, found) => return found
  | none =>
    let found ← derivedGraphs f
    modify fun w => { w with remembered := (key, found) :: w.remembered }
    return found

def components (f : Field) : Action (List String) := do
  return (← joinGraphs f).filter fun g => !Text.contains g "merged_result"

/-! ### Lookups that leave a choice -/

def withChoices (choices : List Choice) (user : String) (view : Option String)
    (fields : List Field) : List Field :=
  fields.map fun f =>
    match choices.find? fun c => c.user == user && c.view == view && c.field == f.key with
    | some c => { f with chosen := some c.group }
    | none => f

def visibleDimension (name : String) (view : Option String) : Action Field := do
  let w ← get
  let user := w.project.userKey
  let listed ← w.project.seen.fields view false false none
  let dimensions := listed.filter fun f =>
    f.isGroup || (f.property "field_type").isTextOf "dimension"
  match ← (withChoices w.chosen user view dimensions).findSomeM? fun f => f.matching? name with
  | some f =>
    match f.chosen with
    | some group => modify fun w => { w with chosen := ⟨user, view, f.key, group⟩ :: w.chosen }
    | none => pure ()
    return f
  | none => malformed .noMatch

def visibleMeasure (name : String) (view : Option String) : Action Field := do
  let listed ← (← project).fields view false false none
  match ← (listed.filter Field.isMeasure).findSomeM? fun f => f.matching? name with
  | some f => return f
  | none => malformed .noMatch

def fieldByTag (tag : String) (view : Option String) (graphs : List String)
    (asked : Option Model := none) : Action Field := do
  let p ← project
  let tagged ← p.taggedFields tag view asked
  let found ← if graphs.isEmpty then pure tagged
    else tagged.filterM fun f => do
      let own ← joinGraphs f
      return graphs.any own.contains
  p.single found tag view

def joinableFields (fields : List Field) (expanded : Bool) : Action (List Field) := do
  let options := (← fields.mapM joinGraphs).flatten
  (← (← project).fields none true expanded none).filterM fun f => do
    return (← joinGraphs f).any options.contains

end Action

end SemanticLayer
