import SemanticLayer.Files.Pattern
import SemanticLayer.Host

/-!
# Repositories

The place a project is read from: a folder, or a git remote that is cloned into one.  The mode of a
repository says how its files are to be read; unless it is given, the project file says it.
-/

namespace SemanticLayer

inductive Origin where
  | folder (path : String)
  | remote (url : String) (branch : Value)
  deriving Repr, Inhabited

structure Clone where
  keyPath : Option String
  deriving Repr, Inhabited

structure Repository where
  origin : Origin
  mode : Value := .null
  folder : String
  dbtFolder : Option String := none
  branches : List Value := []
  clone : Option Clone := none
  deriving Repr, Inhabited

namespace Repository

/-! ### Searching -/

def search (d : Disk) (pattern : String) (folders : List String) (hidden : Bool := false) :
    List String :=
  (folders.flatMap fun f =>
    if hidden then d.everywhere f pattern else d.glob (f ++ "**/" ++ pattern) true).filter
      fun path => !Text.contains path "venv"

def findDbtFolder (d : Disk) (folder : String) : String :=
  let file := "dbt_project.yml"
  if (d.glob (folder ++ "/" ++ file) false).length = 1 then folder
  else
    match d.glob (folder ++ "/*/" ++ file) false with
    | [path] => Path.parent path ++ "/"
    | _ => folder

def findMode (d : Disk) (r : Repository) : Result Value := do
  if r.mode.truthy then return r.mode
  let found := search d "zenlytic_project.yaml" [r.folder]
    ++ search d "zenlytic_project.yml" [r.folder]
  match found with
  | [path] => return ((← (← d.read path).asMap).get? "mode").getD (.text "metrics_layer")
  | _ => return .text "metrics_layer"

/-! ### Making -/

def isLocal (location : String) : Bool :=
  let lower := Text.lower location
  !(Text.contains lower "http://" || Text.contains lower "https://"
    || Text.startsWith lower "git@")

def ofLocation (location : String) (branch mode : Value) : HostAction Repository := do
  let d ← Host.disk?
  if isLocal location then
    let folder := Path.within d.current location ++ "/"
    return { origin := .folder location, mode := mode, folder := folder,
             dbtFolder := some (findDbtFolder d folder) }
  else
    let folder := Path.within d.current (← Host.freshName "repository_") ++ "/"
    return { origin := .remote location branch, mode := mode, folder := folder }

structure Environment where
  location : Option String := none
  branch : Option String := none
  mode : Option String := none
  deriving Repr, Inhabited

def find (location : Option String) (branch mode : Value) (environment : Environment) :
    HostAction Repository := do
  match location, environment.location with
  | some l, _ => ofLocation l branch mode
  | none, some l =>
    ofLocation l (.text (environment.branch.getD "master"))
      (((environment.mode.map Value.text).getD .null))
  | none, none => throw .noConfiguration

def needsKey (url : String) : Bool := Text.startsWith url "git@"

/-! ### Fetching -/

def destination (r : Repository) : String := Text.dropRight r.folder 1

def keyEnvironment (path : String) : Value :=
  .map [("GIT_SSH_COMMAND", .text ("ssh -o StrictHostKeyChecking=no -i " ++ path))]

def withKeyFile {α : Type} (key : Host.PrivateKey) (path : String) (unremoved : Malformed)
    (work : HostAction α) : HostAction α := do
  Host.writeKey key path
  tryCatch (do
    let a ← work
    Host.removeKey path
    return a) fun e => do
      tryCatch (Host.removeKey path) fun _ => malformed unremoved
      throw e

def cloneRemote (r : Repository) (url : String) (branch : Value) (key : Option Host.PrivateKey) :
    HostAction (Clone × List Value) := do
  if needsKey url then
    let some key := key | throw .privateKeyRequired
    let path := Path.within (← Host.disk?).current (← Host.freshName "ssh_p8_key_")
    let branches ← withKeyFile key path .unset do
      Host.clone url r.destination branch (keyEnvironment path)
      Host.branches branch
    return (⟨some path⟩, branches)
  else
    Host.alter fun d => .ok (if d.hasFolder r.destination then d.remove r.destination else d)
    Host.clone url r.destination branch .null
    return (⟨none⟩, ← Host.branches branch)

def fetch (r : Repository) (key : Option Host.PrivateKey) : HostAction Repository := do
  match r.origin with
  | .folder _ => return r
  | .remote url branch =>
    let (clone, branches) ← r.cloneRemote url branch key
    return { r with clone := some clone, branches := branches,
                    dbtFolder := some (findDbtFolder (← Host.disk?) r.folder) }

def delete (r : Repository) (other : Option String := none) : HostAction Unit :=
  match r.origin with
  | .folder _ => return
  | .remote _ _ =>
    let folder := other.getD r.folder
    Host.alter fun d => .ok (if d.hasFolder folder then d.remove folder else d)

/-! ### Changing a remote -/

def onClone (r : Repository) (key : Option Host.PrivateKey) (work : HostAction Unit) :
    HostAction Unit := do
  let some clone := r.clone | malformed .noAttribute
  match key.filter (!·.isEmpty), clone.keyPath with
  | some key, some path => withKeyFile key path .noFile work
  | _, _ => work

def createBranch (r : Repository) (branch : Value) (key : Option Host.PrivateKey) :
    HostAction Unit :=
  r.onClone key do
    Host.git "create_head" [branch]
    Host.git "head.checkout" [branch]
    Host.git "push" [.text "--set-upstream", .text "origin", branch]

def deleteBranch (r : Repository) (branch : Value) (key : Option Host.PrivateKey) :
    HostAction Unit :=
  r.onClone key (Host.git "remote.push" [] [("refspec", .text (":" ++ branch.plain))])

def commitAndPush (r : Repository) (message branch : Value) (key : Option Host.PrivateKey) :
    HostAction Unit :=
  r.onClone key do
    Host.git "checkout" [branch]
    Host.git "add" [] [("A", .bool true)]
    Host.git "commit" [] [("m", message)]
    Host.git "push" [.text "origin", branch]

def pull (r : Repository) (source target : Value) (key : Option Host.PrivateKey) :
    HostAction Unit :=
  r.onClone key do
    Host.git "checkout" [target]
    Host.git "pull" [.text "--rebase=false", .text "origin", source]
    Host.git "push" [.text "origin", target]

def squashAndMerge (r : Repository) (source target message : Value)
    (key : Option Host.PrivateKey) : HostAction Unit :=
  let subject : Value := if message.truthy then message
    else .text ("Squash and merge " ++ source.plain ++ " into " ++ target.plain)
  r.onClone key do
    Host.git "checkout" [target]
    Host.git "merge" [.text ("origin/" ++ source.plain)] [("squash", .bool true)]
    Host.git "commit" [] [("m", subject)]
    Host.git "push" [.text "origin", target]

end Repository

end SemanticLayer
