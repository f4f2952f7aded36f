import SemanticLayer.Repository.Basic

/-!
# Reading repositories

The project file names the folders of models, views and dashboards.  Every file in them says of
which type it is.  A repository in the other mode only names its profile.
-/

namespace SemanticLayer

structure Definitions where
  models : List Definition := []
  views : List Definition := []
  dashboards : List Definition := []
  deriving Repr, Inhabited

namespace Repository

def projectFileName : String := "zenlytic_project.yml"

def tablesFolder (r : Repository) : String :=
  match r.dbtFolder with
  | some f => if f.isEmpty then r.folder else f
  | none => r.folder

def projectFile (d : Disk) (r : Repository) : Result Value := do
  let own := Path.within r.folder projectFileName
  let content ← d.read? own
  if (content.map Value.truthy).getD false then return content.getD .null
  return (← d.read? (Path.within r.tablesFolder projectFileName)).getD .null

def folders (d : Disk) (r : Repository) (key : String) (required : Bool) :
    Result (List String) := do
  let file ← r.projectFile d
  if !file.truthy then return []
  if ← file.includes (.text key) then
    (← (← (← file.needMap).need key).iterate).mapM fun p => do
      return Path.within r.folder (← p.needText)
  else if required then throw (.folderKeyMissing key)
  else return []

def fileUnderType (found : Definitions) (content : Value) : Result Definitions := do
  let _ ← content.includes (.text "type")
  let d ← content.asMap
  let type := d.get "type"
  if type.isTextOf "model" then return { found with models := found.models ++ [d] }
  else if type.isTextOf "view" then return { found with views := found.views ++ [d] }
  else if type.isTextOf "dashboard" then
    return { found with dashboards := found.dashboards ++ [d] }
  else return found

def readDefinitions (d : Disk) (r : Repository) : Result Definitions := do
  let models ← r.folders d "model-paths" true
  let views ← r.folders d "view-paths" true
  let dashboards ← r.folders d "dashboard-paths" false
  let all := models ++ views ++ dashboards
  let paths := (search d "*.yml" all ++ search d "*.yaml" all).eraseDups
  let contents ← paths.mapM d.read
  contents.foldlM fileUnderType {}

/-- The definitions of a project of the other mode: a loader from outside reads its tables, and
converts them for the profile. -/
def readForeign (d : Disk) (load : Host.Loader) (r : Repository) : Result Definitions := do
  let some tables ← d.read? (Path.within r.tablesFolder "dbt_project.yml") | throw .noDbtProject
  let tables ← tables.needMap
  let name ← tables.need "name"
  let convert ← load d r.tablesFolder
  let own := (tables.get? "profile").getD name
  let file ← r.projectFile d
  let profile ← if file.truthy then pure (((← file.asMap).get? "profile").getD own) else pure own
  let (models, views) ← convert profile
  return { models := models, views := views }

/-- All definitions of a repository, by its mode. -/
def definitions (d : Disk) (load : Host.Loader) (r : Repository) : Result Definitions := do
  let mode ← r.findMode d
  if mode.isTextOf "metricflow" then r.readForeign d load
  else if mode.isTextOf "metrics_layer" then r.readDefinitions d
  else throw (.repoType mode)

end Repository

end SemanticLayer
