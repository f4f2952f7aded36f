import SemanticLayer.Field.Expression

/-!
# References between fields

Which fields a field's SQL mentions.  A measure of type number stands for the fields it is
computed from, so its references are looked through.
-/

namespace SemanticLayer

inductive Reached where
  | field (f : Field)
  /-- There is no such field, or no access to it. -/
  | missing (name : String)
  | unwritten
  deriving Repr, Inhabited

namespace Reached

def get : Reached → Result Field
  | .field f => .ok f
  | _ => malformed .noAttribute

end Reached

namespace Field

def refer (p : Project) (f : Field) (name : String) (view : Option String := none) : Result Field :=
  let parts := Name.parts name
  let own := match view with
    | some v => if v.isEmpty then parts.view else some v
    | none => some f.view.name
  p.getField parts.field (parts.view.orElse fun _ => own)

def measure (p : Project) (f : Field) : Result Reached := orWritten (.ok .unwritten) do
  let m := f.property "measure"
  if m.truthy then return .field (← f.refer p (← m.asText)) else return .unwritten

/-- Whether SQL holds template code that cannot be read. -/
def isTemplate (sql : String) : Bool := Text.contains sql "\x7b%"

def referencesWithin (p : Project) : Nat → Field → String → Result (List Reached)
  | 0, _, _ => malformed .endless
  | depth + 1, f, sql => do
    let found ← (Reference.all sql).mapM fun name => do
      if name == Reference.table then return []
      match f.refer p name with
      | .error e => if e.isAccess then return [.missing name] else throw e
      | .ok g =>
        if g.hasType "number" then
          match ← g.expression p with
          | none => return []
          | some s =>
            if isTemplate s then return [] else referencesWithin p depth g s
        else return [.field g]
    return found.flatten

def references (p : Project) (f : Field) (sql : Option String) : Result (List Reached) :=
  match sql with
  | none => .ok []
  | some s => f.referencesWithin p (chainLimit p) s

def durationEnds (f : Field) : Option (Value × Value) :=
  let start := f.property "sql_start"
  let stop := f.property "sql_end"
  if start.truthy && stop.truthy then some (start, stop) else none

def allReferences (p : Project) (f : Field) : Result (Option (List Reached)) := do
  let sql ← f.expression p
  if (nonEmpty sql).any isTemplate then return none
  if f.hasType "cumulative" then return some [← f.measure p]
  match f.durationEnds with
  | some (start, stop) =>
    if f.hasType "duration" then
      let front ← f.references p (some (← start.needText))
      let back ← f.references p (some (← stop.needText))
      return some (front ++ back)
    else return some (← f.references p sql)
  | none => return some (← f.references p sql)

def referenceKeys (p : Project) (f : Field) : Result (Option (List String)) := do
  match ← f.allReferences p with
  | none => return none
  | some found =>
    let keys ← found.filterMapM fun r => do
      match r with
      | .missing _ => return none
      | .unwritten => malformed .noAttribute
      | .field g => return some g.key
    return some keys.eraseDups

/-! ### Dates, sums over time, merged results -/

def canonDate (f : Field) : Result (Option String) := do
  let own := f.property "canon_date"
  if own.truthy then
    let name := Text.replace (Text.replace (← own.asText) "$\x7b" "") "\x7d" ""
    return some (Name.qualify f.view.name name)
  let default_ := f.view.property "default_date"
  if default_.truthy then return some (Name.qualify f.view.name (← default_.needText))
  return none

/-- Whether a number combines measures with different dates, or says that it does. -/
def isMergedResult (p : Project) (f : Field) : Result Value := orWritten (.ok .null) do
  match f.definition.get? "is_merged_result" with
  | some v => return v
  | none =>
    if f.hasType "number" && f.isMeasure then
      let found ← f.references p (← f.expression p)
      let dates ← found.filterMapM fun r => do
        let g ← r.get
        if g.isMeasure && !g.hasType "cumulative" then return some (← g.canonDate) else return none
      return .bool (1 < dates.eraseDups.length)
    else return .bool false

def isCumulative (p : Project) (f : Field) : Result Bool := do
  let explicit := f.hasType "cumulative"
  match nonEmpty (← f.expression p) with
  | none => return explicit
  | some sql =>
    let rec anyCumulative : List Reached → Result Bool
      | [] => .ok false
      | .missing _ :: rest => anyCumulative rest
      | .unwritten :: _ => malformed .noAttribute
      | .field g :: rest => if g.hasType "cumulative" then .ok true else anyCumulative rest
    let through ← anyCumulative (← f.references p (some sql))
    return explicit || through

/-! ### Views -/

/-- The views that the SQL of a field touches; `depth` bounds the way through references. -/
def requiredViewsWithin (p : Project) : Nat → Field → Result (List String)
  | 0, _ => malformed .endless
  | depth + 1, f => do
    let through (sql : String) : Result (List String) := do
      let found ← (Reference.all sql).mapM fun name => do
        if name == Reference.table then return []
        else requiredViewsWithin p depth (← f.refer p name)
      return found.flatten
    let views ← match nonEmpty (← f.expression p) with
      | some sql => through sql
      | none =>
        match f.durationEnds with
        | some (start, stop) => do
          pure ((← through (← start.needText)) ++ (← through (← stop.needText)))
        | none => pure []
    return (f.view.name :: views).eraseDups

def requiredViews (p : Project) (f : Field) : Result (List String) :=
  f.requiredViewsWithin p (chainLimit p)

end Field

end SemanticLayer
