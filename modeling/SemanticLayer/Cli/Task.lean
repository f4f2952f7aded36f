import SemanticLayer.Cli.Help

/-!
# Tasks

The commands of the program, and the tasks that they ask for.
-/

namespace SemanticLayer.Cli

structure ProfileChoice where
  profile : Option String
  target : Option String
  deriving DecidableEq, Repr, Inhabited

structure SeedChoice where
  connection : Option String
  database : Option String
  schema : Option String
  table : Option String
  deriving DecidableEq, Repr, Inhabited

inductive Task where
  | init
  | seed (p : ProfileChoice) (s : SeedChoice)
  | validate (p : ProfileChoice)
  | debug (p : ProfileChoice)
  | list (p : ProfileChoice) (type : String) (view : Option String) (hidden : Bool)
  | present (p : ProfileChoice) (type : Option String) (name : String) (view : Option String)
  deriving DecidableEq, Repr, Inhabited

/-! ### Commands -/

def profileParameter : Parameter :=
  { name := "profile", help := "The name of the dbt profile to use for the connection" }

def targetParameter : Parameter :=
  { name := "target",
    help := "The name of the target for the dbt profile (defaults to the default target)" }

def viewParameter : Parameter :=
  { name := "view",
    help := "The name of the view (only applicable for fields, dimensions, and metrics)" }

def initCommand : Command :=
  { name := "init", help := ["Initialize a metrics layer project"], parameters := [] }

def seedCommand : Command :=
  { name := "seed",
    help := ["Seed a metrics layer project by referencing the existing database"],
    parameters :=
      [profileParameter, targetParameter,
       { name := "connection", help := "The name of the connection to use for the database" },
       { name := "database",
         help := "The name of the database to use for seeding (project in BigQuery)" },
       { name := "schema",
         help := "The name of the schema to use for seeding (dataset in BigQuery)" },
       { name := "table", help := "The name of the table to use for seeding" }] }

def validateCommand : Command :=
  { name := "validate",
    help := ["Validate a metrics layer project, internally, without hitting the database"],
    parameters := [profileParameter, targetParameter] }

def debugCommand : Command :=
  { name := "debug",
    help := ["Debug a metrics layer project. Pass your profile name as the sole argument.",
      "This will list out the inputs and the locations where the metrics layer is finding them,  "
        ++ "in addition to testing the database connection to ensure it works as expected"],
    parameters := [profileParameter, targetParameter] }

def listCommand : Command :=
  { name := "list",
    help := ["List attributes in a metrics layer project, i.e. models, connections, explores, "
      ++ "views, fields, metrics, dimensions"],
    parameters :=
      [profileParameter, targetParameter, viewParameter,
       { name := "show-hidden", help := "Set this flag if you want to see hidden fields",
         takesText := false }],
    argument := some "TYPE" }

def showCommand : Command :=
  { name := "show",
    help := ["Show information on an attribute in a metrics layer project, by name"],
    parameters :=
      [profileParameter, targetParameter,
       { name := "type",
         help := "The type of object to show. One of: model, connection, explore, view, field, "
           ++ "metric, dimension" },
       viewParameter],
    argument := some "NAME" }

def commands : List Command :=
  [initCommand, seedCommand, validateCommand, debugCommand, listCommand, showCommand]

def taskOf (c : Command) (r : Reading) : Task :=
  let p : ProfileChoice := ⟨r.text? "profile", r.text? "target"⟩
  let argument := r.arguments.head?.getD ""
  match c.name with
  | "seed" =>
    .seed p ⟨r.text? "connection", r.text? "database", r.text? "schema", r.text? "table"⟩
  | "validate" => .validate p
  | "debug" => .debug p
  | "list" => .list p argument (r.text? "view") (r.flags.contains "show-hidden")
  | "show" => .present p (r.text? "type") argument (r.text? "view")
  | _ => .init

/-! ### Command lines -/

inductive Line where
  | task (t : Task)
  | text (output : String) (code : Nat)
  deriving DecidableEq, Repr, Inhabited

def version : String := "0.11.17"

def commandLine (c : Command) (args : List String) : Line :=
  match read (c.parameters ++ [helpParameter]) true {} args with
  | .error m => .text (mistakePage c.usage c.path m) 2
  | .ok r =>
    if r.flags.contains "help" then .text c.page 0
    else
      match c.check r with
      | .error m => .text (mistakePage c.usage c.path m) 2
      | .ok () => .task (taskOf c r)

def line (args : List String) : Line :=
  if args.isEmpty then .text (commandsPage commands) 0
  else
    match read [versionParameter, helpParameter] false {} args with
    | .error m => .text (mistakePage usage programName m) 2
    | .ok r =>
      match r.flags, r.arguments with
      | "version" :: _, _ => .text (programName ++ ", version " ++ version ++ "\n") 0
      | _ :: _, _ => .text (commandsPage commands) 0
      | [], [] => .text (mistakePage usage programName .commandMissing) 2
      | [], name :: rest =>
        match commands.find? (·.name == name) with
        | some c => commandLine c rest
        | none => .text (mistakePage usage programName (.noSuchCommand name)) 2

end SemanticLayer.Cli
