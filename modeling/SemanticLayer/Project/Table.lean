import SemanticLayer.Project.Basic

/-!
# Tables

The table of a view can depend on the environment, one line `-- if name -- table` for each, or be a
reference that the manifest or the schema of the connection resolves.
-/

namespace SemanticLayer.Table

def opening : List Char := "-- if".toList

def upToDashes? (cs : List Char) : Option (List Char × List Char) :=
  match cs.dropWhile (· != '-') with
  | '-' :: '-' :: rest => some (cs.takeWhile (· != '-'), rest)
  | _ => none

def environments : Nat → List Char → List (List Char)
  | _, [] => []
  | k + 1, _ :: cs => environments k cs
  | 0, c :: cs =>
    if opening.isPrefixOf (c :: cs) then
      match upToDashes? ((c :: cs).drop opening.length) with
      | some (name, _) => name :: environments (opening.length + name.length + 1) cs
      | none => environments 0 cs
    else environments 0 cs

def branch? (phrase : List Char) : List Char → Option String
  | [] => none
  | c :: cs =>
    if phrase.isPrefixOf (c :: cs) then
      match upToDashes? ((c :: cs).drop phrase.length) with
      | some (table, _) =>
        some (Text.strip (Text.replace (String.ofList (phrase ++ table)) "--" ""))
      | none => branch? phrase cs
    else branch? phrase cs

def behind? (phrase : List Char) : List Char → Option String
  | [] => if phrase.isEmpty then some "" else none
  | c :: cs =>
    if phrase.isPrefixOf (c :: cs) then
      some (Text.strip (String.ofList ((c :: cs).drop phrase.length)))
    else behind? phrase cs

def conditional (s : String) (environment : Value) : Result String :=
  let found := (environments 0 s.toList).find? fun name =>
    environment.isTextOf (Text.strip (String.ofList name))
  match found with
  | none => .error (.conditionalTable s environment)
  | some name =>
    let phrase := opening ++ name ++ ['-', '-']
    let line := (Text.replace s "\n" "").toList
    match branch? phrase line with
    | some t => .ok t
    | none =>
      match behind? phrase line with
      | some t => .ok t
      | none => malformed .noAttribute

def referenced (s : String) : String :=
  let cs := s.toList
  let start := ((Text.find? s "ref(").getD 0) + 4
  let stop := (Text.find? s ")").getD (cs.length - 1)
  Text.replace (String.ofList ((cs.take stop).drop start)) "'" ""

end SemanticLayer.Table

namespace SemanticLayer

def Project.resolveReference (p : Project) (name : String) : Result String :=
  match p.manifest.filter Manifest.isPresent with
  | some m => m.resolve name p.schema
  | none =>
    if p.schema.truthy then .ok (p.schema.plain ++ "." ++ name) else .error .schemaRequired

def View.tableName (p : Project) (v : View) : Result Value :=
    orWritten (.ok (v.property "sql_table_name")) do
  match v.definition.get? "sql_table_name" with
  | none => return .null
  | some t =>
    let s ← t.needText
    if Text.contains s "-- if" then return .text (← Table.conditional s p.environment)
    else if Text.contains s "ref(" then return .text (← p.resolveReference (Table.referenced s))
    else return t

end SemanticLayer
