import SemanticLayer.Files.Disk

/-!
# Path patterns

A pattern is a path whose names may hold wildcards: `*` stands for any characters, `?` for one, a
set in brackets for one of its own, and the name `**` for any number of folders.  Names that start
with a point are matched only by a pattern that starts with one, unless they are asked for.
-/

namespace SemanticLayer

inductive Wildcard where
  | any
  | one
  | exactly (c : Char)
  | among (negated : Bool) (ranges : List (Char × Char))
  deriving Repr, Inhabited

namespace Wildcard

def ranges : List Char → List (Char × Char)
  | a :: '-' :: b :: rest => (a, b) :: ranges rest
  | c :: rest => (c, c) :: ranges rest
  | [] => []

def bracket? (cs : List Char) : Option (List Char × List Char) :=
  let (mark, cs) := match cs with
    | '!' :: rest => (['!'], rest)
    | _ => ([], cs)
  let (first, cs) := match cs with
    | ']' :: rest => ([']'], rest)
    | _ => ([], cs)
  match cs.dropWhile (· != ']') with
  | _ :: rest => some (mark ++ first ++ cs.takeWhile (· != ']'), rest)
  | [] => none

def ofBracket : List Char → Wildcard
  | '!' :: cs => .among true (ranges cs)
  | cs => .among false (ranges cs)

def parse : Nat → List Char → List Wildcard
  | 0, _ => []
  | _, [] => []
  | n + 1, '*' :: cs => .any :: parse n cs
  | n + 1, '?' :: cs => .one :: parse n cs
  | n + 1, '[' :: cs =>
    match bracket? cs with
    | some (inside, rest) => ofBracket inside :: parse n rest
    | none => .exactly '[' :: parse n cs
  | n + 1, c :: cs => .exactly c :: parse n cs

def admits : Wildcard → Char → Bool
  | .any, _ => true
  | .one, _ => true
  | .exactly c, d => c == d
  | .among negated rs, c => (rs.any fun (a, b) => a ≤ c && c ≤ b) != negated

def fits : List Wildcard → List Char → Bool
  | [], cs => cs.isEmpty
  | .any :: ws, [] => fits ws []
  | .any :: ws, c :: cs => fits ws (c :: cs) || fits (.any :: ws) cs
  | _ :: _, [] => false
  | w :: ws, c :: cs => w.admits c && fits ws cs
termination_by ws cs => ws.length + cs.length

def matchesName (pattern name : String) : Bool :=
  fits (parse pattern.length pattern.toList) name.toList

def isIn (pattern : String) : Bool := pattern.toList.any "*?[".toList.contains

end Wildcard

namespace Disk

def isHidden (name : String) : Bool := Text.startsWith name "."

def expand (d : Disk) (deep hidden : Bool) : List String → String → List String
  | [], base => if d.contains base then [base] else []
  | name :: rest, base =>
    let folder := (d.locate (base ++ "/")).getD []
    let known := (d.locate (base ++ "/")).isSome
    if deep && name == "**" then
      let lower := if known then (d.below folder).filter fun (names, e) =>
          (hidden || !names.any isHidden) && (rest.isEmpty || e.isFolder) else []
      (base :: lower.map fun (names, _) => base ++ "/" ++ Path.ofNames names).flatMap
        (d.expand deep hidden rest)
    else if Wildcard.isIn name then
      let found := if known then (d.children folder).filter fun (n, e) =>
          Wildcard.matchesName name n && (hidden || isHidden name || !isHidden n)
            && (rest.isEmpty || e.isFolder) else []
      (found.map fun (n, _) => base ++ "/" ++ n).flatMap (d.expand deep hidden rest)
    else d.expand deep hidden rest (base ++ "/" ++ name)

def tidy (names : List String) : List String :=
  let (plain, wild) := names.span (!Wildcard.isIn ·)
  if wild.isEmpty then names
  else Path.withoutEnd plain ++ wild.dropLast.filter (!·.isEmpty) ++ wild.getLast?.toList

def glob (d : Disk) (pattern : String) (deep : Bool) : List String :=
  d.expand deep false (tidy ((Path.names pattern).drop 1)) ""

def everywhere (d : Disk) (folder pattern : String) : List String :=
  d.expand true true ("**" :: Path.names pattern) (Path.clean folder)

end Disk

end SemanticLayer
