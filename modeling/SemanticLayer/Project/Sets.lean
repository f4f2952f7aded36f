import SemanticLayer.Project.Lookup

/-!
# Sets of fields

A view can name sets of its fields.  An entry adds a field, or with a star the fields of another
set; a minus takes them out again, wherever it stands.
-/

namespace SemanticLayer

structure FieldSet where
  name : Value
  entries : Value
  view : Value
  deriving Repr, Inhabited

namespace FieldSet

def make (d : Definition) (view : Value) : Result FieldSet := do
  d.require "Set" ["name", "fields"]
  return ⟨d.get "name", d.get "fields", view⟩

end FieldSet

def View.listSets (v : View) : Result (List FieldSet) := do
  (← (v.property "sets").iterate).mapM fun s => do
    FieldSet.make (← s.needMap) (v.property "name")

namespace Project

def sets (p : Project) (view : Option String) : Result (List FieldSet) := do
  let views ← match view.filter fun n => !n.isEmpty with
    | some name =>
      match p.getView name with
      | .ok v => pure [v]
      | .error e => if e.isAccess then pure [] else throw e
    | none => p.listViews none
  return (← views.mapM View.listSets).flatten

def getSet (p : Project) (name : Value) (view : Option String) : Result (Option FieldSet) := do
  return (← p.sets view).find? fun s => s.name.same name

end Project

namespace FieldSet

def viewOf (s : FieldSet) (view : Option String) (field : String) : Result String :=
  match view with
  | some v => if v.isEmpty then .error (.setWithoutView field s.name) else .ok v
  | none => if s.view.truthy then .ok s.view.plain else .error (.setWithoutView field s.name)

def qualified (s : FieldSet) (entry : String) : Result String := do
  let parts := Name.parts entry
  return (← s.viewOf parts.view parts.field) ++ "." ++ parts.field

def entryNames (s : FieldSet) (named : String → Result (List String)) (entry : String) :
    Result (List String × List String) := do
  let without (w : String) (e : String) := Text.replace e w ""
  match Text.contains entry "*", Text.contains entry "-" with
  | true, true => return ([], ← named (without "-" (without "*" entry)))
  | true, false => return (← named (without "*" entry), [])
  | false, true => return ([], [← s.qualified (without "-" entry)])
  | false, false => return ([← s.qualified entry], [])

def fieldNamesWithin (p : Project) : Nat → FieldSet → Result (List String)
  | 0, _ => malformed .endless
  | depth + 1, s => do
    let named (name : String) : Result (List String) := do
      if name == "ALL_FIELDS" then
        let view := if s.view.isNull then none else some s.view.plain
        return (← p.fields view true true none).map Field.id
      let parts := Name.parts name
      match ← p.getSet (.text parts.field) parts.view with
      | none => return []
      | some other => fieldNamesWithin p depth other
    let found ← (← s.entries.iterate).mapM fun e => do s.entryNames named (← e.needText)
    let removed := found.flatMap (·.2)
    return ((found.flatMap (·.1)).filter (!removed.contains ·)).eraseDups

def fieldNames (p : Project) (s : FieldSet) : Result (List String) := do
  s.fieldNamesWithin p ((← p.sets none).length + 2)

end FieldSet

def Field.drillFields (p : Project) (f : Field) : Result Value :=
    orWritten (.ok (f.property "drill_fields")) do
  let entries := f.property "drill_fields"
  if entries.truthy then
    return .texts (← FieldSet.fieldNames p ⟨.text "drill_fields", entries, f.view.property "name"⟩)
  else return entries

end SemanticLayer
