import SemanticLayer.Project.Arrange
import SemanticLayer.Repository.Load
import SemanticLayer.Seed.View

/-!
# Seeding projects

The project in the current folder is filled from a warehouse: a view for every table that is found,
and a model and a project file where there are none yet.
-/

namespace SemanticLayer

namespace Seeder

def narrow (s : Seeder) (d : Dataset) : Result Dataset := do
  let d ← if s.schema.truthy then do d.whereText "TABLE_SCHEMA" (← s.schema.asText) else pure d
  match s.table with
  | some t => d.whereText "TABLE_NAME" t
  | none => return d

def commentOf (tables : Dataset) (name : String) : Result Value := do
  if tables.isEmpty then return .null
  match ← (← tables.whereText "TABLE_NAME" name).column "COMMENT" with
  | c :: _ => return c
  | [] => malformed .outOfRange

def tableView (s : Seeder) (ask : Ask) (columns tables : Dataset) (model : Value) (tagged : Bool)
    (table : Value) : HostAction Definition := do
  let name ← table.asText
  let own ← columns.whereText "TABLE_NAME" name
  let comment ← commentOf tables name
  let schema ← match ← own.column "TABLE_SCHEMA" with
    | v :: _ => pure v
    | [] => malformed .outOfRange
  s.view ask own model table schema comment tagged

def firstFolder (file : Value) (key default : String) : Result String := do
  if !file.truthy then return default
  match (← file.asMap).get? key with
  | none => return default
  | some paths =>
    match ← paths.iterate with
    | p :: _ => p.needText
    | [] => malformed .outOfRange

def dump (folder ending : String) (d : Definition) : HostAction Unit := do
  let name ← (← d.need "name").needText
  let place := Path.within (← Host.disk?).current folder
  Host.alter fun disk => disk.ensureFolder place
  Host.alter fun disk => disk.write (Path.within place (name ++ ending)) (.map d)

def projectFile (s : Seeder) : Definition :=
  [("name", s.connection.name), ("profile", s.connection.name), ("model-paths", .texts ["models"]),
   ("view-paths", .texts ["views"]), ("dashboard-paths", .texts ["dashboards"])]

def askUpper (ask : Ask) (query : String) : HostAction Dataset := do
  return (← ask query).rename Text.upper

def seed (s : Seeder) (ask : Ask) (tagged : Bool) : HostAction Unit := do
  let columns ← askUpper ask (← s.columnsQuery)
  let tables ← if s.hasComments then do askUpper ask (← s.tablesQuery) else pure .empty
  Host.print ("Got information on all tables and views in " ++ s.place)
  let columns ← s.narrow columns
  let tables ← if tables.isEmpty then pure tables else do pure (← s.narrow tables)
  let current := (← Host.disk?).current
  let r ← Repository.ofLocation current (.text "master") .null
  let (p, r) ← r.load [] none
  let models ← p.listModels
  let found := (← columns.column "TABLE_NAME").foldl
    (fun acc v => if acc.any v.same then acc else acc ++ [v]) []
  let views ← found.zipIdx.mapM fun (table, i) => do
    let v ← s.tableView ask columns tables (modelName models) tagged table
    let progress := if s.table.isSome then ""
      else "(" ++ toString (i + 1) ++ " / " ++ toString found.length ++ ")"
    Host.print ("Got information on " ++ table.plain ++ " " ++ progress)
    return v
  let file ← r.projectFile (← Host.disk?)
  let modelFolder ← firstFolder file "model-paths" "models"
  let viewFolder ← firstFolder file "view-paths" "views"
  if models.isEmpty then dump modelFolder "_model.yml" (Arrange.model s.model)
  for v in views do
    dump viewFolder "_view.yml" (← Arrange.view v)
  let path := Path.within current Repository.projectFileName
  if models.isEmpty && !(← Host.disk?).contains path then
    Host.alter fun disk => disk.write path (.map s.projectFile)

end Seeder

end SemanticLayer
