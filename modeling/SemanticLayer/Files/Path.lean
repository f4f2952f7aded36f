import SemanticLayer.Text.Basic

/-!
# Paths

Paths are texts of names with slashes between them.  A path that starts with a slash is absolute;
`.` and empty names stay in a folder and `..` leaves it.
-/

namespace SemanticLayer.Path

def names (path : String) : List String := Text.split path "/"

def ofNames (names : List String) : String := Text.join "/" names

def isAbsolute (path : String) : Bool := Text.startsWith path "/"

def within (folder path : String) : String :=
  if isAbsolute path || folder.isEmpty then path
  else if Text.endsWith folder "/" then folder ++ path
  else folder ++ "/" ++ path

def withoutEnd (names : List String) : List String :=
  (names.reverse.dropWhile (·.isEmpty)).reverse

def parent (path : String) : String :=
  let above := (names path).dropLast
  match withoutEnd above with
  | [] => if above.isEmpty then "" else "/"
  | names => ofNames names

def step (at_ : List String) (name : String) : List String :=
  if name == "" || name == "." then at_
  else if name == ".." then at_.dropLast
  else at_ ++ [name]

def resolved (path : String) : List String := (names path).foldl step []

def clean (path : String) : String :=
  let names := (names path).filter fun n => n != "" && n != "."
  if isAbsolute path then "/" ++ ofNames names
  else if names.isEmpty then "." else ofNames names

def diverge : List String → List String → List String × List String
  | a :: as, b :: bs => if a == b then diverge as bs else (a :: as, b :: bs)
  | as, bs => (as, bs)

def relativeTo (folder path : String) : String :=
  let (up, down) := diverge (resolved folder) (resolved path)
  match List.replicate up.length ".." ++ down with
  | [] => "."
  | names => ofNames names

end SemanticLayer.Path
