import SemanticLayer.Error
import SemanticLayer.Sql.Token

/-!
# Clauses

Conditions and orders can be given as SQL text.  Which fields such a clause names is read off its
tokens; and the alias behind a selected expression can be taken off again.
-/

namespace SemanticLayer.Sql

namespace Token

def depthChange (t : Token) : Int :=
  if t.kind == .punctuation && t.text == "(" then 1
  else if t.kind == .punctuation && t.text == ")" then -1
  else if t.kind == .keyword && (Text.upper t.text) == "END" then -1
  else 0

def firstStatement : Int → List Token → List Token
  | _, [] => []
  | depth, t :: ts =>
    let depth := depth + t.depthChange
    if depth ≤ 0 && t.kind == .punctuation && t.text == ";" then
      t :: ts.takeWhile fun u => u.kind == .whitespace || u.kind == .comment
    else t :: firstStatement depth ts

def statement? (s : String) : Option (List Token) :=
  let ts := firstStatement 0 (scan s)
  if ts.all isWhitespace then none else some ts

end Token

namespace Clause

/-- Gathers names from tokens, joining those with a dot between them.  `found` is reversed. -/
def gather (last : Option Token) : Option Token → List String → List Token → Result (List String)
  | _, found, [] => .ok found.reverse
  | before, found, t :: rest =>
    let fresh := match before with
      | some b => b.text != "."
      | none => true
    let found := if t.kind == .name && fresh then t.text :: found else found
    if t.kind == .punctuation && t.text == "." then
      let isName (u : Option Token) : Bool := u.any (·.kind == .name)
      if isName (before.orElse fun _ => last) then
        match rest with
        | [] => malformed .outOfRange
        | next :: _ =>
          if next.kind == .name then
            match found with
            | [] => malformed .outOfRange
            | name :: others => gather last (some t) ((name ++ "." ++ next.text) :: others) rest
          else gather last (some t) found rest
      else gather last (some t) found rest
    else gather last (some t) found rest

def identifiers (s : String) : Result (List String) :=
  match Token.statement? s with
  | none => malformed .outOfRange
  | some ts => gather ts.getLast? none [] ts

/-- The word in front of an alias, in any letter case; a long s is an s. -/
def aliasWords : List String := [" as ", " aS ", " aſ ", " As ", " AS ", " Aſ "]

def findAlias : Nat → List Char → List String
  | _, [] => []
  | k + 1, _ :: cs => findAlias k cs
  | 0, c :: cs =>
    match aliasWords.find? (fun w => w.toList.isPrefixOf (c :: cs)) with
    | some w => w :: findAlias 3 cs
    | none => findAlias 0 cs

/-- The expression without what follows its last alias word; the other alias words are written in
capitals. -/
def stripAlias (s : String) : String :=
  match findAlias 0 s.toList with
  | [] => s
  | found =>
    let capitals := found.foldl (fun t w => Text.replace t w " AS ") s
    Text.join " AS " (Text.split capitals " AS ").dropLast

end Clause

end SemanticLayer.Sql
