import SemanticLayer.Files.Path
import SemanticLayer.Value.Read

/-!
# Disks

A disk holds folders and files, each under the names that lead to it from the root.  The content of
a file is a value.  Writing and making need the folder they happen in.
-/

namespace SemanticLayer

inductive DiskEntry where
  | folder
  | file (content : Value)
  deriving Repr, Inhabited

namespace DiskEntry

def isFolder : DiskEntry → Bool
  | .folder => true
  | .file _ => false

end DiskEntry

structure Disk where
  current : String
  home : Option String := none
  entries : List (List String × DiskEntry)
  deriving Repr, Inhabited

namespace Disk

def homeFolder (d : Disk) : String := d.home.getD d.current

/-! ### Looking -/

def entry? (d : Disk) (names : List String) : Option DiskEntry :=
  if names.isEmpty then some .folder else (d.entries.find? (·.1 == names)).map (·.2)

def isFolderAt (d : Disk) (names : List String) : Bool :=
  ((d.entry? names).map DiskEntry.isFolder).getD false

def follow (d : Disk) : List String → List String → Option (List String)
  | at_, [] => some at_
  | at_, name :: rest =>
    if !d.isFolderAt at_ then none
    else
      let next := Path.step at_ name
      if (d.entry? next).isSome then d.follow next rest else none

def locate (d : Disk) (path : String) : Option (List String) :=
  d.follow [] (Path.names (Path.within d.current path))

def contains (d : Disk) (path : String) : Bool := (d.locate path).isSome

def hasFolder (d : Disk) (path : String) : Bool :=
  match d.locate path with
  | some names => d.isFolderAt names
  | none => false

def read (d : Disk) (path : String) : Result Value :=
  match (d.locate path).bind d.entry? with
  | some (.file content) => .ok content
  | _ => malformed .noFile

def read? (d : Disk) (path : String) : Result (Option Value) :=
  if d.contains path then some <$> d.read path else .ok none

def below (d : Disk) (folder : List String) : List (List String × DiskEntry) :=
  d.entries.filterMap fun (names, e) =>
    if folder.isPrefixOf names && folder.length < names.length then
      some (names.drop folder.length, e)
    else none

def children (d : Disk) (folder : List String) : List (String × DiskEntry) :=
  (d.below folder).filterMap fun (names, e) =>
    match names with
    | [name] => some (name, e)
    | _ => none

/-! ### Changing -/

def put (d : Disk) (names : List String) (e : DiskEntry) : Disk :=
  if (d.entry? names).isSome then
    { d with entries := d.entries.map fun (n, old) => if n == names then (n, e) else (n, old) }
  else { d with entries := d.entries ++ [(names, e)] }

def place (d : Disk) (path : String) (e : DiskEntry) : Result Disk :=
  let names := Path.withoutEnd (Path.names (Path.within d.current path))
  match d.follow [] names.dropLast with
  | some folder =>
    if d.isFolderAt folder then .ok (d.put (Path.step folder (names.getLast?.getD "")) e)
    else malformed .noFile
  | none => malformed .noFile

def makeFolder (d : Disk) (path : String) : Result Disk := d.place path .folder

def write (d : Disk) (path : String) (content : Value) : Result Disk :=
  d.place path (.file content)

def ensureFolder (d : Disk) (path : String) : Result Disk :=
  if d.contains path then .ok d else d.makeFolder path

def remove (d : Disk) (path : String) : Disk :=
  match d.locate path with
  | some names => { d with entries := d.entries.filter fun (n, _) => !names.isPrefixOf n }
  | none => d

def deposit (d : Disk) (folder : List String) (path : String) (content : Value) : Disk :=
  let names := folder ++ Path.resolved path
  let d := (List.range names.length).foldl (fun d i =>
    if i = 0 || (d.entry? (names.take i)).isSome then d else d.put (names.take i) .folder) d
  d.put names (.file content)

def ofFiles (current : String) (files : List (String × Value)) : Disk :=
  let folder := Path.resolved current
  let start := (List.range folder.length).foldl (fun d i =>
    d.put (folder.take (i + 1)) .folder) { current := current, entries := [] }
  files.foldl (fun d (path, content) => d.deposit folder path content) start

def empty : Disk := ofFiles "/" []

end Disk

end SemanticLayer
