import SemanticLayer.Project.Access

/-!
# Listing views and fields

Views and fields are listed in the order of the definitions, without those the user may not see. A
dimension group can be listed as one field or as one field for each of its timeframes or intervals.
-/

namespace SemanticLayer

namespace Field

def yesNo (d : Definition) (key : String) : Definition :=
  match d.get? key with
  | some (.bool b) => d.set key (.text (if b then "yes" else "no"))
  | _ => d

def lowerName (d : Definition) : Result Definition := do
  match ← d.need "name" with
  | .null => return d
  | name => return d.set "name" (.text (Text.lower (← name.asText)))

/-- A label prefix of null is none. -/
def dropPrefix (d : Definition) : Definition :=
  if d.has "label_prefix" && (d.get "label_prefix").isNull then d.erase "label_prefix" else d

def markCount (d : Definition) : Definition :=
  if !d.has "sql" && (d.get "field_type").isTextOf "measure"
      && (d.get "type").isTextOf "count" then
    d.set "primary_key_count" (.bool true)
  else d

def tidy (d : Definition) : Definition :=
  markCount (yesNo (yesNo (dropPrefix d) "primary_key") "hidden")

def checkKeys (d : Definition) : Result Definition :=
  match ["name", "field_type"].find? fun k => !d.has k with
  | some k => throw (.fieldMissingKey k (.map d))
  | none => return d

def normalize (d : Definition) : Result Definition := do
  checkKeys (tidy (← lowerName d))

def make (d : Definition) (v : View) : Result Field := do
  return { view := v, definition := ← normalize d }

def isHidden (f : Field) : Bool :=
  let hidden := f.property "hidden"
  !(hidden.isTextOf "no" || !hidden.truthy)

def expand (f : Field) : Result (List Field) := do
  let frames := f.property "timeframes"
  let intervals := f.property "intervals"
  if frames.truthy then
    (← frames.iterate).mapM fun t =>
      let d := if t.isTextOf "raw" then f.definition.set "hidden" (.text "yes") else f.definition
      make (d.set "dimension_group" t) f.view
  else if intervals.truthy then
    (← intervals.iterate).mapM fun t =>
      make (f.definition.set "dimension_group" (.text (t.plain ++ "s"))) f.view
  else return []

end Field

namespace Setting

def canAccessView (p : Setting) (v : View) : Result Bool :=
  p.permits (v.property "required_access_grants")

def withholds (p : Setting) (d : Definition) : Bool :=
  match p.permits (d.get "required_access_grants") with
  | .ok false => true
  | _ => false

end Setting

namespace Store

def fieldsOn (p : Store) (shelf : Nat) : List Definition := (p.shelves.getD shelf default).fields

def listFields (p : Store) (v : View) : Result (List Field) := do
  let isSeen ← p.canAccessView v
  let found ← (p.fieldsOn v.shelf).mapM fun d => do
    let f ← Field.make (d.set "label_prefix" (v.property "field_prefix")) v
    if (← p.permits (f.property "required_access_grants")) && isSeen then
      if v.expanded && f.isGroup then f.expand else return [f]
    else return []
  return found.flatten

def open_ (p : Store) (asked : Option Model) (e : ViewEntry) : Result View := do
  e.definition.require "View" ["name"]
  match e.shelf with
  | none => throw (.missingKey "View" "fields")
  | some i =>
    let d := if e.definition.has "sets" then e.definition else e.definition.set "sets" (.list [])
    return { definition := d, shelf := i, always := (p.shelves.getD i default).always,
             asked := asked, expanded := false }

def listViews (p : Store) (asked : Option Model) : Result (List View) := do
  let found ← p.views.mapM fun e => do
    let v ← p.open_ asked e
    return if ← p.canAccessView v then [v] else []
  return found.flatten

def size (p : Store) : Nat :=
  let sizes := (p.views.filter fun e => !p.withholds e.definition).map fun e => match e.shelf with
    | some i => ((p.fieldsOn i).filter fun d => !p.withholds d).length
    | none => 0
  sizes.foldl (· + ·) 0

def seen (p : Store) : Project where
  toSetting := p.toSetting
  listViews := p.listViews
  listFields := p.listFields
  size := p.size

instance : Coe Store Project := ⟨seen⟩

end Store

namespace View

def fieldsWith (p : Project) (v : View) (hidden : Bool) : Result (List Field) := do
  let all ← p.listFields v
  return if hidden then all else all.filter fun f => !f.isHidden

def primaryKey (p : Project) (v : View) : Result (Option Field) := orWritten (.ok none) do
  return (← p.listFields v).find? fun f => (f.property "primary_key").isTextOf "yes"

end View

namespace Project

def getView (p : Project) (name : String) (asked : Option Model := none) : Result View := do
  match (← p.listViews asked).find? fun v => v.name == name with
  | some v => return v
  | none => throw (.viewNotFound name)

/-- Whether a listed field is written on the shelf itself, and not one timeframe of a group. -/
def onShelf (f : Field) : Bool := !(f.view.expanded && f.isGroup)

/-- Fields on one shelf carry the label prefix of the view that was listed last. -/
def settlePrefix (views : List View) (f : Field) : Field :=
  if onShelf f then
    match (views.reverse.find? fun v => v.shelf == f.view.shelf) with
    | some v =>
      let front := v.property "field_prefix"
      { f with definition := if front.isNull then f.definition.erase "label_prefix"
                             else f.definition.set "label_prefix" front }
    | none => f
  else f

def fields (p : Project) (view : Option String) (hidden expanded : Bool) (asked : Option Model) :
    Result (List Field) := do
  match view with
  | some name =>
    let v ← p.getView name asked
    { v with expanded := expanded }.fieldsWith p hidden
  | none =>
    let views ← p.listViews asked
    let found ← views.mapM fun v => { v with expanded := expanded }.fieldsWith p hidden
    return found.flatten.map (settlePrefix views)

end Project

end SemanticLayer
