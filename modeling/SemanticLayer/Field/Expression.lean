import SemanticLayer.Field.NonAdditive
import SemanticLayer.Filter.Case
import SemanticLayer.Project.Lookup

/-!
# The expression of a field

The SQL of a field before its references are expanded.  It is written out, or follows from cases;
a count without SQL counts the primary key.  Filters, tiers and boolean types wrap it.
-/

namespace SemanticLayer.Field

def caseExpression (v : Value) : Result String := do
  let d ← v.needMap
  let branches ← (← (← d.need "whens").iterate).mapM fun w => do
    let branch ← w.needMap
    let condition := Text.replace (← (← branch.need "sql").asText) "\"" "'"
    return "when " ++ condition ++ " then '" ++ (← branch.need "label").plain ++ "' "
  let otherwise := d.get "else"
  return "case " ++ String.join branches
    ++ (if otherwise.truthy then "else '" ++ otherwise.plain ++ "' " else "") ++ "end"

def tierBranches (sql : String) : List String → List String
  | low :: high :: rest =>
    ("when " ++ sql ++ " >= " ++ low ++ " and " ++ sql ++ " < " ++ high ++ " then '[" ++ low ++ ","
      ++ high ++ ")' ") :: tierBranches sql (high :: rest)
  | _ => []

def tierExpression (sql : String) (tiers : Value) : Result String := do
  let tiers ← match tiers with
    | .list xs => pure (xs.map Value.plain)
    | _ => malformed .wrongType
  match tiers.head?, tiers.getLast? with
  | some first, some last =>
    return "case when " ++ sql ++ " < " ++ first ++ " then 'Below " ++ first ++ "' "
      ++ String.join (tierBranches sql tiers)
      ++ "when " ++ sql ++ " >= " ++ last ++ " then '[" ++ last ++ ",inf)' else 'Unknown' end"
  | _, _ => malformed .outOfRange

def lowerReferences (sql : String) : String :=
  (Reference.all sql).foldl (fun acc r =>
    if r == Reference.table then acc
    else Text.replace acc (Reference.wrap r) (Reference.wrap (Text.lower r))) sql

def filters (f : Field) : Value :=
  let v := f.property "filters"
  if v.truthy then v else .null

def filterList (v : Value) : Result (List Definition) := do
  (← v.iterate).mapM fun item =>
    match item with
    | .map d => .ok d
    | .text _ => .ok []
    | _ => malformed .wrongType

def filtered (p : Project) (f : Field) (sql : Value) : Result Value := do
  let nonAdditive ← f.nonAdditive
  if !(f.filters.truthy || nonAdditive.truthy) then return sql
  if sql.isTextOf "*" then throw .countWithoutKey
  let own ← match f.definition.get? "filters" with
    | none => pure []
    | some v => filterList v
  let windows ← match nonAdditive.map? with
    | some d => if d.isEmpty then pure [] else f.windowFilters d
    | none => pure []
  return .text (← Filter.caseSql p.almanac sql.plain (own ++ windows))

def writtenSql (f : Field) : Result (Option String) :=
  match f.property "sql" with
  | .null => .ok none
  | v => v.needText.map some

/-- The expression of a field, if it has one; `depth` bounds the way through primary keys. -/
def expressionWithin (p : Project) : Nat → Field → Result (Option String)
  | 0, _ => malformed .endless
  | depth + 1, f => orWritten f.writtenSql do
    let d := f.definition
    let written : Option Value ← match d.get? "sql" with
      | some v => pure (some v)
      | none =>
        if d.has "case" then do pure (some (.text (← caseExpression (d.get "case"))))
        else if f.isMeasure && f.hasType "count" then do
          match ← f.view.primaryKey p with
          | some key => do
            match ← expressionWithin p depth key with
            | some s => pure (some (.text s))
            | none => pure (some .null)
          | none => pure (some (.text "*"))
        else pure none
    match written with
    | none => return none
    | some sql =>
      let sql ← f.filtered p sql
      let sql ← if f.hasType "tier" then do
          pure (Value.text (← tierExpression sql.plain (← d.need "tiers")))
        else pure sql
      let sql := if f.hasType "yesno" then .text ("(" ++ sql.plain ++ ")") else sql
      return some (lowerReferences (← sql.needText))

def chainLimit (p : Project) : Nat := 30 * p.size + 30

def expression (p : Project) (f : Field) : Result (Option String) :=
  f.expressionWithin p (chainLimit p)

def nonEmpty (s : Option String) : Option String := s.filter fun t => !t.isEmpty

end SemanticLayer.Field
