import SemanticLayer.Calendar.Zone
import SemanticLayer.Project.Manifest

/-!
# Projects

A project is kept as a store of models, views with their fields, and dashboards, together with the
user who looks at them.  The copies of a view that is joined under other names share one shelf of
fields with it.  The project itself is what the user sees of the store.
-/

namespace SemanticLayer

structure Model where
  definition : Definition
  deriving Repr, Inhabited

namespace Model

def name (m : Model) : Value := m.definition.get "name"

end Model

structure Shelf where
  fields : List Definition
  always : Value
  deriving Repr, Inhabited

/-- A view as the project keeps it: its definition without the shared parts. -/
structure ViewEntry where
  definition : Definition
  shelf : Option Nat
  deriving Repr, Inhabited

structure View where
  definition : Definition
  shelf : Nat
  always : Value
  /-- The model of the query; the view's own model comes first. -/
  asked : Option Model
  /-- Whether its dimension groups are listed timeframe by timeframe. -/
  expanded : Bool
  deriving Repr, Inhabited

namespace View

def name (v : View) : String := (v.definition.get "name").plain

def property (v : View) (key : String) : Value := v.definition.get key

end View

structure Field where
  view : View
  definition : Definition
  /-- A dimension group's timeframe that was chosen after it was listed. -/
  chosen : Option Value := none
  deriving Repr, Inhabited

namespace Field

def property (f : Field) (key : String) : Value := f.definition.get key

def name (f : Field) : String := (f.property "name").plain

def hasType (f : Field) (type : String) : Bool := (f.property "type").isTextOf type

def isMeasure (f : Field) : Bool := (f.property "field_type").isTextOf "measure"

def isGroup (f : Field) : Bool := (f.property "field_type").isTextOf "dimension_group"

def group (f : Field) : Value := f.chosen.getD (f.property "dimension_group")

end Field

structure Setting where
  models : List Definition
  dashboards : List Definition
  environment : Value
  connectionTypes : Definition
  manifest : Option Manifest
  user : Option Definition
  schema : Value
  zone : Value
  almanac : Almanac
  deriving Inhabited

structure Store extends Setting where
  views : List ViewEntry
  shelves : List Shelf
  deriving Inhabited

structure Project extends Setting where
  listViews : Option Model → Result (List View)
  listFields : View → Result (List Field)
  size : Nat
  deriving Inhabited

namespace Project

/-! ### Views that are joined under other names -/

/-- The copies to be made, by name, each with the view it comes from. -/
abbrev Copies := List (String × Definition)

def copyEntries (identifier : Definition) : Result Definition := do
  let joinAs ← (← identifier.need "join_as").asText
  let label : Definition := if identifier.has "join_as_label" then
      [("label", identifier.get "join_as_label")] else []
  let fieldPrefix : Value :=
    if identifier.has "join_as_field_prefix" then identifier.get "join_as_field_prefix"
    else if identifier.has "join_as_label" then identifier.get "join_as_label"
    else .text (Text.title (Text.replace joinAs "_" " "))
  return [("identifiers", .list [.map (identifier.erase "join_as")])] ++ label
    ++ [("field_prefix", fieldPrefix)]

/-- Moves an identifier that is joined under another name from the view to a copy. -/
def copyStep (state : Definition × Copies) (identifier : Definition) :
    Result (Definition × Copies) := do
  let (v, copies) := state
  if !identifier.has "join_as" then return (v, copies)
  if !(← identifier.need "type").isTextOf "primary" then return (v, copies)
  let name ← identifier.need "name"
  let kept ← (v.get "identifiers").itemsD.filterM fun i => do
    return !(← i.entriesD.need "name").same name
  let v := v.set "identifiers" (.list kept)
  let joinAs := (identifier.get "join_as").plain
  match copies.find? (·.1 == joinAs) with
  | none => return (v, copies ++ [(joinAs, v.merge (← copyEntries identifier))])
  | some (_, existing) =>
    if (← existing.need "name").same (← v.need "name") then return (v, copies)
    else throw .duplicateJoinAs

def written (v : Definition) : Result (List Value) :=
  match v.get? "identifiers" with
  | none => .ok []
  | some ids => ids.iterate

/-- Splits one view.  Each copy has the number of the view it comes from. -/
def duplicateStep (state : List Definition × List (String × Definition × Nat)) (v : Definition) :
    Result (List Definition × List (String × Definition × Nat)) := do
  let (done, copies) := state
  let (v, all) ← ((← written v).map Value.entriesD).foldlM copyStep
    (v, copies.map fun (n, d, _) => (n, d))
  let origins := copies.map fun (_, _, i) => i
  let numbered := (all.zipIdx).map fun ((n, d), i) => (n, d, origins.getD i done.length)
  return (done ++ [v], numbered)

/-- Splits the views into those that stay and the copies made of them.  A copy keeps the number of
the view it comes from. -/
def duplicate (views : List Definition) : Result (List Definition × List (Definition × Nat)) := do
  let (done, copies) ← views.foldlM duplicateStep ([], [])
  return (done, copies.map fun (n, d, i) => (d.set "name" (.text n), i))

def entryOf (d : Definition) (shelf : Nat) : ViewEntry :=
  { definition := (d.erase "fields").erase "always_filter",
    shelf := if d.has "fields" then some shelf else none }

def shelfOf (d : Definition) : Shelf :=
  { fields := (d.get "fields").itemsD.map Value.entriesD, always := d.get "always_filter" }

def ofDefinitions (models views dashboards : List Definition) (environment : Value)
    (connectionTypes : Definition) (manifest : Option Manifest) (almanac : Almanac) :
    Result Store := do
  let (kept, copies) ← duplicate views
  let entries := kept.zipIdx.map fun (d, i) => entryOf d i
  let copied := copies.map fun (d, i) => entryOf d i
  return { models := models, views := entries ++ copied, shelves := kept.map shelfOf,
           dashboards := dashboards, environment := environment,
           connectionTypes := connectionTypes, manifest := manifest, user := none, schema := .null,
           zone := .null, almanac := almanac }

end Project

namespace Setting

def describe (p : Setting) : String :=
  let n := p.models.length
  "<Project " ++ toString n ++ (if n == 1 then " model" else " models") ++ " user="
    ++ (match p.user with
      | some u => (Value.map u).plain
      | none => "None") ++ ">"

def userKey (p : Setting) : String :=
  match p.user with
  | some (e :: es) => (Value.map (e :: es)).quoted
  | _ => ""

/-! ### Models -/

/-- All models; each needs a name and a connection. -/
def listModels (p : Setting) : Result (List Model) :=
  p.models.mapM fun d => do
    d.require "Model" ["name", "connection"]
    return ⟨d⟩

def getModel (p : Setting) (name : Value) : Result (Option Model) := do
  return (← p.listModels).find? fun m => m.name.same name

/-- The time zone of the project: its own, or that of the first model that has one. -/
def timezone (p : Setting) : Result Value := do
  if p.zone.truthy then return p.zone
  return (((← p.listModels).map fun m => m.definition.get "timezone").find? Value.truthy).getD .null

end Setting

def View.model (p : Project) (v : View) : Result (Option Model) :=
  match v.definition.get? "model_name" with
  | some name => p.getModel name
  | none => .ok v.asked

end SemanticLayer
