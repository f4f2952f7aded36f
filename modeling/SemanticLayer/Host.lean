import SemanticLayer.Calendar.Zone
import SemanticLayer.Dataset
import SemanticLayer.Files.Disk
import SemanticLayer.Query.Run

/-!
# Hosts

A disk, private key files, and a git remote.  What the remote answers is given; every command to it
is written down, with the key files that exist at that moment, and so are the calls to the clients
of warehouses and the lines that were printed.
-/

namespace SemanticLayer

structure KeyFile where
  path : String
  content : String
  locked : Bool
  deriving Repr, Inhabited

structure GitCommand where
  name : String
  arguments : List Value := []
  named : Definition := []
  keys : List KeyFile := []
  deriving Repr, Inhabited

structure Remote where
  files : List (String × Value) := []
  references : String := ""
  -- whether a command fails, after so many others
  fails : Nat → String → Bool := fun _ _ => false
  deriving Inhabited

/-- A loader from outside: it reads the tables in a folder, then gives models and views for a
profile. -/
abbrev Host.Loader := Disk → String → Result (Value → Result (List Definition × List Definition))

structure Host where
  disk : Disk
  remote : Remote := {}
  keys : List KeyFile := []
  -- whether a key file can be locked, after so many commands
  locks : Nat → Bool := fun _ => true
  commands : List GitCommand := []
  queries : List String := []
  calls : List ClientCall := []
  output : List String := []
  named : Nat := 0
  almanac : Almanac := .ofInstant 0
  loader : Host.Loader := fun _ _ => .ok fun _ => .ok ([], [])
  deriving Inhabited

abbrev HostAction := ExceptT Error (StateM Host)

namespace Host

def disk? : HostAction Disk := return (← get).disk

def alter (change : Disk → Result Disk) : HostAction Unit := do
  let d ← change (← get).disk
  modify fun h => { h with disk := d }

def freshName (start : String) : HostAction String := do
  let h ← get
  set { h with named := h.named + 1 }
  return start ++ toString h.named

def print (line : String) : HostAction Unit :=
  modify fun h => { h with output := h.output ++ [line] }

def printed (h : Host) : String := String.join (h.output.map (· ++ "\n"))

/-! ### Warehouses -/

abbrev Client := Option Connection → Value → Definition → HostAction Dataset

def noClient : Client := fun c query options => do
  let _ ← Run.withoutClient c query options
  return .empty

def clientOf (answer : Dataset) : Client := fun c query options => do
  let run := Run.onConnection c query options
  modify fun h => { h with calls := h.calls ++ run.calls }
  let _ ← run.outcome
  return answer

/-! ### Key files -/

inductive PrivateKey where
  | bytes (content : String)
  | text (content : String)
  deriving Repr, Inhabited

def PrivateKey.isEmpty : PrivateKey → Bool
  | .bytes s => s.isEmpty
  | .text s => s.isEmpty

def putKey (k : KeyFile) (h : Host) : Host :=
  { h with keys := h.keys.filter (·.path != k.path) ++ [k] }

def removeKey (path : String) : HostAction Unit := do
  let h ← get
  if h.keys.any (·.path == path) then
    set { h with keys := h.keys.filter (·.path != path) }
  else malformed .noFile

/-- A key file that cannot be locked is removed again. -/
def writeKey (key : PrivateKey) (path : String) : HostAction Unit :=
  match key with
  | .bytes content => do
    let h ← get
    let locked := h.locks h.commands.length
    set (putKey { path := path, content := content, locked := locked } h)
    if !locked then removeKey path
  | .text _ => do
    modify (putKey { path := path, content := "", locked := false })
    malformed .wrongType

/-! ### Git -/

def git (name : String) (arguments : List Value) (named : Definition := []) : HostAction Unit := do
  let h ← get
  let command : GitCommand :=
    { name := name, arguments := arguments, named := named, keys := h.keys }
  set { h with commands := h.commands ++ [command] }
  if h.remote.fails h.commands.length name then malformed .git

def clone (url destination : String) (branch environment : Value) : HostAction Unit := do
  git "clone" [.text url, .text destination] [("branch", branch), ("env", environment)]
  modify fun h => { h with disk := h.remote.files.foldl (fun d (path, content) =>
    d.deposit (Path.resolved destination) path content) h.disk }

def branchesOf (references : String) : List String :=
  (Text.split references "\n").filterMap fun line =>
    if Text.contains line "/heads/" then (Text.split line "/heads/").getLast? else none

def branches (branch : Value) : HostAction (List Value) :=
  tryCatch (do
    git "ls_remote" []
    return (branchesOf (← get).remote.references).map .text) fun _ => return [branch]

end Host

end SemanticLayer
