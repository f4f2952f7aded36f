import SemanticLayer.Cli.Task
import SemanticLayer.Seed.Project
import SemanticLayer.Validate

/-!
# Terminals

A terminal runs the tasks of command lines on a host.  The project is loaded from the current folder
with the connection of a profile, unless there is one at hand already.
-/

namespace SemanticLayer

structure Terminal where
  host : Host
  session : Option Session := none
  deriving Inhabited

structure Installation where
  runtimeVersion : String
  runtimePath : String
  client : Host.Client
  ask : Option Seeder.Ask := none
  deriving Inhabited

abbrev TerminalAction := ExceptT Error (StateM Terminal)

namespace Terminal

def onHost {α : Type} (a : HostAction α) : TerminalAction α := fun t =>
  let (r, h) := a.run t.host
  (r, { t with host := h })

def onProject {α : Type} (a : Action α) : TerminalAction α := fun t =>
  match t.session with
  | none => (.error .notLoaded, t)
  | some s =>
    let (r, s) := s.perform a
    (r, { t with session := some s })

def session? : TerminalAction Session := do
  match (← get).session with
  | some s => return s
  | none => throw .notLoaded

def print (line : String) : TerminalAction Unit := onHost (Host.print line)

/-! ### Opening projects -/

def inTablesProject (d : Disk) : Bool := d.contains (Path.within d.current "./dbt_project.yml")

def ownProfile (d : Disk) : Result Value := do
  match ← d.read? (Path.within d.current Repository.projectFileName) with
  | some file => (← file.needMap).need "profile"
  | none =>
    match ← d.read? (Path.within d.current "./dbt_project.yml") with
    | some file => (← file.needMap).need "profile"
    | none => throw .seedProfileNotFound

def openProject (p : Cli.ProfileChoice) : TerminalAction Unit := do
  if (← get).session.isSome then return
  let d := (← get).host.disk
  let profile ← match p.profile with
    | some name => pure name
    | none => do pure (← ownProfile d).plain
  let connection ← Profile.connection d profile p.target
  let site : Site := { location := some d.current, declared := [.definition (.map connection)] }
  let site ← onHost (site.load none)
  modify fun t => { t with session := site.session }

/-! ### Starting and seeding -/

def makeFolders : HostAction Unit := do
  let d ← Host.disk?
  for folder in (if inTablesProject d then ["dashboards"] else ["models", "views", "dashboards"]) do
    Host.alter fun d => d.ensureFolder (Path.within d.current folder)

def writeProjectFile : HostAction Unit := do
  let d ← Host.disk?
  let start : Definition ←
    if inTablesProject d then do
      let file ← (← d.read (Path.within d.current "./dbt_project.yml")).needMap
      pure [("name", ← file.need "name"), ("profile", ← file.need "profile"), ("mode", .text "dbt")]
    else pure [("name", .text "zenlytic_project_name"), ("profile", .text "my_dbt_profile"),
      ("model-paths", .texts ["models"]), ("view-paths", .texts ["views"])]
  Host.alter fun d => d.write Repository.projectFileName
    (.map (start ++ [("dashboard-paths", .texts ["dashboards"])]))

def askThrough (client : Host.Client) (c : Connection) : Seeder.Ask := fun query =>
  client (some c) (.text query) [("run_pre_queries", .bool false), ("start_warehouse", .bool true)]

def recorded (ask : Seeder.Ask) : Seeder.Ask := fun query => do
  modify fun h => { h with queries := h.queries ++ [query] }
  ask query

def seed (i : Installation) (p : Cli.ProfileChoice) (s : Cli.SeedChoice) :
    TerminalAction Unit := do
  onHost makeFolders
  openProject p
  let connections ← (← session?).connections
  let seeder ← Seeder.make connections s.connection s.database s.schema s.table
  onHost (seeder.seed (recorded (i.ask.getD (askThrough i.client seeder.connection))) false)

/-! ### Looking -/

private def plural (n : Nat) : String := if 1 < n then "s" else ""

def validate : TerminalAction Unit := do
  match ← onProject Action.validate with
  | [] =>
    let n := (← (← session?).project.listModels).length
    print ("Project passed (checked " ++ toString n ++ " model" ++ plural n ++ ")!")
  | errors =>
    print ("Found " ++ toString errors.length ++ " error" ++ plural errors.length
      ++ " in the project:\n")
    for e in errors do
      print ("\n" ++ e ++ "\n")

def tryConnection (i : Installation) (options : Definition) (c : Connection) :
    TerminalAction Unit := do
  let options := Definition.merge options [("run_pre_queries", .bool false)]
  let status ← try
      let _ ← onHost (i.client (some c) (.text "select 1 as id;") options)
      pure "OK connection ok"
    catch e => pure ("Failed with:\n\n " ++ e.detail)
  print ("\nConnection " ++ c.name.plain ++ " test: " ++ status)

def debug (i : Installation) : TerminalAction Unit := do
  let s ← session?
  let profiles := Profile.path (← get).host.disk.homeFolder
  for line in ["metrics_layer version: " ++ Cli.version, "python version: " ++ i.runtimeVersion,
      "python path: " ++ i.runtimePath, "Using profiles.yml file at " ++ profiles,
      "\nConfiguration:", "  profiles.yml file OK found and valid", "\nRequired dependencies:",
      "  git [OK found]"] do
    print line
  let connections ← s.connections
  print ("\nConnection" ++ plural connections.length ++ ":")
  for c in connections do
    for (key, value) in ← c.printable do
      print ("  " ++ key ++ ": " ++ value.plain)
  for c in connections do
    tryConnection i s.options c

private def typeNotFound (type : String) : String :=
  "Could not find the type " ++ type ++ ", please use one of the options: "
    ++ "models, connections, views, fields, metrics, dimensions"

def listingOf : String → Option Session.Listing
  | "models" => some .models
  | "connections" => some .connections
  | "views" => some .views
  | "fields" => some .fields
  | "dimensions" => some .dimensions
  | "metrics" => some .metrics
  | _ => none

def printed : Value → String
  | .null => ""
  | v => v.plain

def list (type : String) (view : Option String) (hidden : Bool) : TerminalAction Unit := do
  let s ← session?
  match listingOf type with
  | none => if type == "profiles" then throw .notProvided else print (typeNotFound type)
  | some what =>
    let names ← s.names what view hidden
    if names.isEmpty then print ("Could not find any " ++ type)
    else
      let n := names.length
      print ("Found " ++ toString n ++ " " ++ (if 1 < n then type else Text.dropRight type 1)
        ++ ":\n")
      for name in names do
        print (printed name)

def attributes (type name : String) (view : Option String) :
    TerminalAction (Option (Option Definition)) := do
  let s ← session?
  let p := s.project
  match type with
  | "model" => return some ((← p.getModel (.text name)).map Model.printable)
  | "connection" =>
    match ← s.connection? (.text name) with
    | some c => return some (some (← c.printable))
    | none => return some none
  | "view" => return some (some (← (← p.getView name).printable s.store))
  | "field" => return some (some (← (← s.field name view).printable p))
  | "dimension" =>
    let f ← onProject (Action.visibleDimension name view)
    return some (some (← f.printable p))
  | "metric" =>
    let f ← onProject (Action.visibleMeasure name view)
    return some (some (← f.printable p))
  | _ => return none

def attributeLines (key : String) : Value → List String
  | .list (v :: vs) => ("  " ++ key ++ ":") :: (v :: vs).map fun item => "    " ++ item.plain
  | v => ["  " ++ key ++ ": " ++ v.plain]

def present (type : Option String) (name : String) (view : Option String) :
    TerminalAction Unit := do
  let type := type.getD "None"
  match ← attributes type name view with
  | none => print (typeNotFound type)
  | some none => return
  | some (some shown) =>
    print ("Attributes in " ++ type ++ " " ++ name ++ ":\n")
    for (key, value) in shown do
      for line in attributeLines key value do
        print line

/-! ### Running -/

def perform (i : Installation) : Cli.Task → TerminalAction Unit
  | .init => onHost (do makeFolders; writeProjectFile)
  | .seed p s => seed i p s
  | .validate p => do openProject p; validate
  | .debug p => do openProject p; debug i
  | .list p type view hidden => do openProject p; list type view hidden
  | .present p type name view => do openProject p; present type name view

def run (i : Installation) (args : List String) : TerminalAction (Nat × String) := do
  match Cli.line args with
  | .text output code => return (code, output)
  | .task t =>
    modify fun t => { t with host := { t.host with output := [] } }
    perform i t
    return (0, (← get).host.printed)

end Terminal

end SemanticLayer
