import SemanticLayer.Project.Lookup

/-!
# Editing a project

Fields are added to the shelf of a view, which its copies share.  Taking one away gives the view a
shelf of its own.
-/

namespace SemanticLayer.Store

def entryOf? (p : Store) (view : String) : Result (Option (Nat × ViewEntry)) := do
  let found ← p.views.zipIdx.findM? fun (e, _) => do
    return (← e.definition.need "name").isTextOf view
  return found.map fun (e, i) => (i, e)

def shelfIndex (e : ViewEntry) : Result Nat :=
  match e.shelf with
  | some i => .ok i
  | none => malformed .missingKey

def addField (p : Store) (field : Definition) (view : String) : Result Store := do
  match ← p.entryOf? view with
  | none => throw (.viewNotMatching view)
  | some (_, e) =>
    let i ← shelfIndex e
    let shelf := p.shelves.getD i default
    let name := Text.lower (← (← field.need "name").asText)
    let taken ← shelf.fields.anyM fun f => do
      return Text.lower (← (← f.need "name").asText) == name
    if taken then return p
    return { p with shelves := p.shelves.set i { shelf with fields := shelf.fields ++ [field] } }

def removeField (p : Store) (name view : String) : Result Store := do
  match ← p.entryOf? view with
  | none => malformed .wrongType
  | some (k, e) =>
    let i ← shelfIndex e
    let shelf := p.shelves.getD i default
    let kept ← shelf.fields.filterM fun f => do
      match ← f.need "name" with
      | .text n => return Text.lower n != name
      | _ => return true
    return { p with
      views := p.views.set k { e with shelf := some p.shelves.length },
      shelves := p.shelves ++ [{ shelf with fields := kept }] }

def updateField (p : Store) (shelf : Nat) (name : String) (f : Definition → Definition) :
    Store :=
  let old := p.shelves.getD shelf default
  let fields := old.fields.map fun d =>
    if Text.lower (d.get "name").plain == name then f d else d
  { p with shelves := p.shelves.set shelf { old with fields := fields } }

/-- Rewrites the conditions that hold in every query of the views on a shelf. -/
def setAlways (p : Store) (shelf : Nat) (always : Value) : Store :=
  { p with shelves := p.shelves.set shelf { p.shelves.getD shelf default with always := always } }

end SemanticLayer.Store
