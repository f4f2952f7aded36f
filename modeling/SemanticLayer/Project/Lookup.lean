import SemanticLayer.Field.Names
import SemanticLayer.Project.Listing

/-!
# Looking up fields

A field is found by its alias, with or without its view; exactly one field has to match.  In a
view, `count` is always a field: the number of its rows.
-/

namespace SemanticLayer.Project

def parseName (name : String) (view : Option String) : Result (String × Option String) :=
  if Text.contains name "." then
    let parts := Name.parts name
    match view with
    | some v =>
      if !v.isEmpty && parts.view != some v then .error (.twoViews (parts.view.getD "None") v)
      else .ok (Text.lower parts.field, parts.view)
    | none => .ok (Text.lower parts.field, parts.view)
  else .ok (Text.lower name, view)

def rowCount : Definition :=
  [("type", .text "count"), ("name", .text "count"), ("field_type", .text "measure")]

def single (p : Project) (found : List Field) (name : String) (view : Option String) :
    Result Field :=
  let given := view.filter fun v => !v.isEmpty
  match found with
  | [f] => .ok f
  | _ :: _ :: _ => .error (.fieldAmbiguous name given (found.map Field.id))
  | [] =>
    match given with
    | some v =>
      if name == "count" then do Field.make rowCount (← p.getView v)
      else .error (.fieldNotFound name given)
    | none => .error (.fieldNotFound name given)

def getField (p : Project) (name : String) (view : Option String := none)
    (asked : Option Model := none) : Result Field := do
  let (name, view) ← parseName name view
  let all ← p.fields view true true asked
  let found ← all.filterMapM fun f => f.matching? name
  p.single found name view

/-- The field of a name, dimension groups being one field. -/
def getFieldByName (p : Project) (name : String) (view : Option String := none)
    (asked : Option Model := none) : Result Field := do
  let (name, view) ← parseName name view
  let all ← p.fields view true false asked
  p.single (all.filter fun f => f.property "name" |>.isTextOf name) name view

def fieldExists (p : Project) (name : String) (view : Option String := none)
    (asked : Option Model := none) : Result Bool :=
  match p.getField name view asked with
  | .ok _ => .ok true
  | .error e => if e.isAccess then .ok false else .error e

def tagOptions (tag : String) : Result (List String) :=
  match Text.last? tag with
  | none => malformed .outOfRange
  | some 's' => .ok [tag, Text.dropRight tag 1]
  | some _ => .ok [tag, tag ++ "s"]

def taggedFields (p : Project) (tag : String) (view : Option String) (asked : Option Model) :
    Result (List Field) := do
  let options ← tagOptions tag
  (← p.fields view true true asked).filterM fun f => do
    let tags := f.property "tags"
    if tags.truthy then return (← tags.iterate).any fun t => options.any t.isTextOf
    else return false

def distinct (fields : List Field) : List Field :=
  fields.foldl (fun acc f => if acc.any (·.id == f.id) then acc else acc ++ [f]) []

end SemanticLayer.Project
