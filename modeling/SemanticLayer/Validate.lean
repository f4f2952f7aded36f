import SemanticLayer.Field.Report
import SemanticLayer.Project.Dashboard
import SemanticLayer.Project.Table
import SemanticLayer.Workspace

/-!
# Validating a project

Everything that is wrong with a project, in order: with models, with joins, with the tags of
customers, with views and their fields, and with dashboards.
-/

namespace SemanticLayer

namespace Model

def describe (m : Model) : String := "<Model name=" ++ m.name.plain ++ ">"

def printable (m : Model) : Definition :=
  m.definition.pick ["name", "type", "label", "group_label", "connection"]

def errors (m : Model) : Result (List String) := do
  let name ← m.name.needText
  return if Name.isValid name then [] else [Name.complaint "model" name]

end Model

namespace View

def describe (v : View) : String := "<View name=" ++ v.name ++ ">"

def identifiers (v : View) : Value := (v.definition.get? "identifiers").getD (.list [])

def printable (p : Store) (v : View) : Result Definition := do
  let d := (v.definition.set "sql_table_name" (← v.tableName p)).set "number_of_fields"
    (.text (toString (p.fieldsOn v.shelf).length))
  return d.pick ["name", "type", "label", "group_label", "sql_table_name", "number_of_fields"]

def reachedFields (p : Project) (v : View) : Result (List Reached) := do
  let found ← (← p.listFields v).mapM fun f => do
    if (← f.isMergedResult p).truthy then return [.field f]
    return .field f :: ((← f.allReferences p).getD [])
  return found.flatten

/-! ### Errors in the definition -/

def dateErrors (p : Project) (v : View) : Result (List String) := do
  let date := v.property "default_date"
  if !date.truthy then return []
  let name := Name.qualify v.name (← date.needText)
  match p.getFieldByName name with
  | .ok f =>
    if f.isGroup && f.hasType "time" then return []
    else return ["Default date " ++ date.plain ++ " is not of field_type: dimension_group and "
      ++ "type: time in view " ++ v.name]
  | .error e =>
    if e.isQuery || e.isAccess then
      return ["Default date " ++ date.plain ++ " is unreachable in view " ++ v.name]
    else throw e

def identifierErrors (v : View) : Result (List String) := do
  let found ← (← v.identifiers.iterate).mapM fun i => do
    let d ← i.needMap
    let name ← (← d.need "name").needText
    let invalid := if Name.isValid name then [] else [Name.complaint "identifier" name]
    let plain := if d.has "sql" && !Text.contains (d.get "sql").plain "$\x7b" then
        ["Warning: Identifier " ++ name ++ " in view " ++ v.name ++ " is missing"
          ++ " \"$\x7b\", are you sure you are using the reference syntax correctly?"]
      else []
    return invalid ++ plain
  return found.flatten

def errors (p : Project) (v : View) : Result (List String) := do
  let fields ← p.listFields v
  let model := if (← v.model p).isSome then [] else
    ["Could not find a model in view " ++ v.name ++ ". "
      ++ "Use the model_name property to specify the model."]
  let date ← v.dateErrors p
  let inFields ← fields.mapM (Field.errors p)
  let _ ← (v.property "name").needText
  let name := if Name.isValid v.name then [] else [Name.complaint "view" v.name]
  let key := if (← v.primaryKey p).isSome then [] else
    ["Warning: The view " ++ v.name ++ " does not have a primary key, "
      ++ "specify one using the tag primary_key: yes"]
  let access := if (v.property "access_filters").map?.isSome then
      ["The view " ++ v.name ++ " has an access filter that is incorrectly specified as a "
        ++ "dictionary instead of a list, to specify it correctly check the documentation "
        ++ "for access filters at https://docs.zenlytic.com"]
    else []
  return model ++ date ++ inFields.flatten ++ name ++ key ++ access ++ (← v.identifierErrors)

end View

namespace Action

def customerErrors (component : String) : Action (List String) := do
  match ← outcome (fieldByTag "customer" none [component]) with
  | .ok _ => return []
  | .error e =>
    if e.isQuery then
      let text := Text.replace ((e.message?).getD "") " name " " tag "
      let line := ((Text.split text "\n").head?).getD ""
      return [line ++ ". Only one field can have the tag \"customer\" per joinable graph."]
    else return []

def viewErrors (p : Project) (v : View) : Result (List String) := do
  let table ← match v.tableName p with
    | .ok _ => pure []
    | .error e => if e.isQuery then pure [(e.message?).getD ""] else throw e
  let reached ← v.reachedFields p
  let own ← v.errors p
  let missing := reached.filterMap fun r =>
    match r with
    | .missing name => some ("Could not locate reference " ++ name ++ " in view " ++ v.name)
    | _ => none
  return table ++ missing ++ own

def dashboardNameErrors (dashboards : List Dashboard) : List String :=
  (Mapping.mostCommon (dashboards.map fun b => b.name.plain)).filterMap fun (name, n) =>
    if 1 < n then
      some ("Dashboard name " ++ name ++ " appears " ++ toString n
        ++ " times, make sure dashboard names are unique")
    else none

def validate : Action (List String) := do
  let p ← project
  let models ← (← p.listModels).mapM fun m => do return (← m.errors)
  let g ← joinGraph
  let joins ← g.errors p
  let customers ← g.componentNames.mapM customerErrors
  let views ← (← p.listViews none).mapM fun v => do return (← viewErrors p v)
  let dashboards ← p.listDashboards
  let inDashboards ← dashboards.mapM fun b => do return (← b.errors p)
  let all := models.flatten ++ joins ++ customers.flatten ++ views.flatten ++ inDashboards.flatten
    ++ dashboardNameErrors dashboards
  return all.eraseDups

end Action

end SemanticLayer
