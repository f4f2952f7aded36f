import SemanticLayer.Repository.Reader
import SemanticLayer.Session

/-!
# Loading projects

A project is loaded from a location: its repository is fetched, read and removed again.  Until then
neither project nor branches can be asked for.  The connections of a project come from a profile.
-/

namespace SemanticLayer

/-! ### Profiles -/

namespace Profile

def path (home : String) : String :=
  Path.within (Path.within home ".dbt") "profiles.yml"

def connection (d : Disk) (name : String) (target : Option String) : Result Definition := do
  let file := path d.homeFolder
  let some profiles ← d.read? file | throw (.profilesNotFound file)
  if profiles.isNull then throw (.profilesNotFound file)
  let profile := (← profiles.asMap).get name
  if profile.isNull then throw (.profileNotFound name file)
  let target ← match target with
    | some t => pure (Value.text t)
    | none => do (← profile.needMap).need "target"
  let outputs ← (← (← profile.needMap).need "outputs").asMap
  let output := match target with
    | .text t => outputs.get t
    | _ => .null
  if output.isNull then throw (.targetNotFound target.plain name file)
  return ((← output.needMap).set "directory" (.text (Path.parent file))).set "name" (.text name)

end Profile

/-! ### Projects -/

def warehousesOf (connections : List Connection) : Definition :=
  connections.foldl (fun d c => d.set c.name.plain c.warehouse.value) []

def Repository.load (r : Repository) (connections : List Connection)
    (key : Option Host.PrivateKey) : HostAction (Store × Repository) := do
  let r ← r.fetch key
  let found ← r.definitions (← Host.disk?) (← get).loader
  r.delete
  let p ← Project.ofDefinitions found.models found.views found.dashboards .null
    (warehousesOf connections) (some ⟨.map []⟩) (← get).almanac
  return (p, r)

structure Site where
  location : Option String := none
  branch : Value := .text "master"
  declared : List Declared := []
  user : Option Definition := none
  session : Option Session := none
  branches : Option (List Value) := none
  deriving Inhabited

namespace Site

def project (s : Site) : Result Project :=
  match s.session with
  | some session => .ok session.project
  | none => .error .notLoaded

def branchOptions (s : Site) : Result (List Value) :=
  match s.branches with
  | some bs => .ok bs
  | none => .error .branchesNotLoaded

def load (s : Site) (key : Option Host.PrivateKey) : HostAction Site := do
  let some location := s.location | malformed .noAttribute
  let r ← Repository.ofLocation location s.branch .null
  let disk ← Host.disk?
  let connections ← connectionsOf disk s.declared
  let (p, r) ← r.load connections key
  let session : Session :=
    { workspace := { project := { p with user := s.user } }, declared := s.declared, disk := disk }
  return { s with session := some session, branches := some r.branches }

end Site

end SemanticLayer
