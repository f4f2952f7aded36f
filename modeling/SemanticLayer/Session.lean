import SemanticLayer.Files.Disk
import SemanticLayer.Project.Dashboard
import SemanticLayer.Query.Mql
import SemanticLayer.Query.Run

/-!
# Sessions

A workspace together with the connections that its queries can use, the options that hold for all
of them, and what was found in the project.
-/

namespace SemanticLayer

/-- A connection as it was declared: by its definition, or ready for use. -/
inductive Declared where
  | definition (d : Value)
  | ready (c : Connection)
  deriving Repr, Inhabited

/-- A lookup in the project: of a list of fields, or of one field by its alias or its name. -/
inductive Inquiry where
  | fields (view : Option String) (hidden expanded : Bool)
  | field (name : String) (view : Option String)
  | fieldByName (name : String) (view : Option String)
  deriving DecidableEq, Repr

structure Session where
  workspace : Workspace
  /-- What lookups found, by the user and their arguments. -/
  found : List ((String × Inquiry) × List Field) := []
  declared : List Declared := []
  disk : Disk := .empty
  options : Definition := []
  deriving Inhabited

/-- Work on a session: it can fail, and what it changed until then stays. -/
abbrev SessionAction := ExceptT Error (StateM Session)

namespace Declared

def connection (disk : Disk) : Declared → Result Connection
  | .definition d => do Connection.ofDefinition disk.read (← d.needMap)
  | .ready c => .ok c

end Declared

def connectionsOf (disk : Disk) (declared : List Declared) : Result (List Connection) :=
  declared.mapM (Declared.connection disk)

namespace Session

def project (s : Session) : Project := s.workspace.project

def store (s : Session) : Store := s.workspace.project

def setStore (s : Session) (p : Store) : Session :=
  { s with workspace := { s.workspace with project := p } }

def perform {α : Type} (a : Action α) (s : Session) : Result α × Session :=
  let (r, w) := a.run s.workspace
  (r, { s with workspace := w })

def connections (s : Session) : Result (List Connection) := connectionsOf s.disk s.declared

def connection? (s : Session) (name : Value) : Result (Option Connection) := do
  return (← s.connections).find? fun c => c.name.same name

def compile (r : Request) (s : Session) : Result CompiledQuery × Session :=
  match s.connections with
  | .error e => (.error e, s)
  | .ok cs => s.perform (({ r with options := s.options.merge r.options }).compile cs)

def convert (sql : String) (options : Definition) (s : Session) : Result String × Session :=
  match s.connections with
  | .error e => (.error e, s)
  | .ok cs => s.perform (Mql.convert cs (s.options.merge options) sql)

def runQuery (s : Session) (query : Value) (connection : Option Connection)
    (options : Definition) : Run :=
  Run.onConnection connection query (s.options.merge options)

def query (r : Request) (sql : Option String) (s : Session) : Run × Session :=
  match sql with
  | some text =>
    match s.convert text r.options with
    | (.error e, s) => (Run.failed [] e, s)
    | (.ok q, s) => (s.runQuery (.text q) none r.options, s)
  | none =>
    match s.compile r with
    | (.error e, s) => (Run.failed [] e, s)
    | (.ok c, s) => (s.runQuery (.text c.text) c.connection r.options, s)

inductive Listing where
  | fields
  | metrics
  | dimensions
  | views
  | models
  | dashboards
  | connections
  deriving DecidableEq, Repr

def names (s : Session) (what : Listing) (view : Option String) (hidden : Bool) :
    Result (List Value) := do
  let p := s.project
  let ofFields (keep : Field → Bool) : Result (List Value) := do
    return ((← p.fields view hidden false none).filter keep).map fun f => f.property "name"
  match what with
  | .fields => ofFields fun _ => true
  | .metrics => ofFields Field.isMeasure
  | .dimensions => ofFields fun f => f.isGroup || (f.property "field_type").isTextOf "dimension"
  | .views => return (← p.listViews none).map fun v => v.property "name"
  | .models => return (← p.listModels).map Model.name
  | .dashboards => return (← p.listDashboards).map Dashboard.name
  | .connections => return (← s.connections).map (·.name)

def field (s : Session) (name : String) (view : Option String) : Result Field := do
  match ← s.project.listModels with
  | [m] => s.project.getField name view (some m)
  | _ => s.project.getField name view

def setUser (s : Session) (user : Option Definition) : Session :=
  s.setStore { s.store with user := user }

def setZone (s : Session) (zone : Value) : Session := s.setStore { s.store with zone := zone }

def setSchema (s : Session) (schema : Value) : Session :=
  s.setStore { s.store with schema := schema }

def addConnections (s : Session) (more : List Declared) : Session :=
  { s with declared := s.declared ++ more }

/-- Forgets what was built of the project and found in it, but for the join graphs of fields. -/
def refresh (s : Session) : Result Unit × Session := { s with found := [] }.perform Action.refresh

/-- Changes the project and forgets what was built of it and found in it. -/
def edit (change : Store → Result Store) (s : Session) : Result Unit × Session :=
  match change s.store with
  | .error e => (.error e, s)
  | .ok p => (s.setStore p).refresh

/-! ### Lookups that are kept -/

/-- Gives what was found before, or finds it and keeps it; a failure is not kept. -/
def kept (i : Inquiry) (find : SessionAction (List Field)) : SessionAction (List Field) := do
  let s ← get
  match s.found.lookup (s.store.userKey, i) with
  | some fields => return fields
  | none =>
    let fields ← find
    modify fun t => { t with found := ((s.store.userKey, i), fields) :: t.found }
    return fields

def list (view : Option String) (hidden expanded : Bool) : SessionAction (List Field) :=
  kept (.fields view hidden expanded) do (← get).project.fields view hidden expanded none

/-- Looks for one field in a list of fields. -/
def search (name : String) (view : Option String) (expanded : Bool)
    (pick : Project → String → Option String → List Field → Result (List Field)) :
    SessionAction (List Field) := do
  let place ← Project.parseName name view
  let all ← list place.2 true expanded
  pick (← get).project place.1 place.2 all

/-- The field of an alias. -/
def ofAlias (p : Project) (name : String) (view : Option String) (all : List Field) :
    Result (List Field) := do
  return [← p.single (← all.filterMapM fun f => f.matching? name) name view]

/-- The field of a name, dimension groups being one field. -/
def ofName (p : Project) (name : String) (view : Option String) (all : List Field) :
    Result (List Field) := do
  return [← p.single (all.filter fun f => f.property "name" |>.isTextOf name) name view]

/-- Looks up fields.  On a date that is found by its name, the timeframe stays that was left on it
when results were merged. -/
def inquire : Inquiry → SessionAction (List Field)
  | .fields view hidden expanded => list view hidden expanded
  | .field name view => kept (.field name view) (search name view true ofAlias)
  | .fieldByName name view => do
    let fields ← kept (.fieldByName name view) (search name view false ofName)
    let w := (← get).workspace
    let place ← Project.parseName name view
    return Action.withChoices w.dated w.project.userKey place.2 fields

end Session

end SemanticLayer
