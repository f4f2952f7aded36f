import SemanticLayer.Filter.Condition
import SemanticLayer.Sql.Criterion

/-!
# Filtered expressions

A measure with filters is counted only where they hold: its SQL becomes the value of a `case`
whose condition joins the filters by `and`.
-/

namespace SemanticLayer.Filter

def reference (name : String) : String := "$\x7b" ++ name ++ "\x7d"

def caseConditions (almanac : Almanac) (f : Definition) : Reading (List String) :=
  if f.has "field" && f.has "value" then do
    let found ← readOn almanac (f.get "value") (f.get "week_start_day") (f.get "timezone")
    found.mapM fun (e, v) => do
      match f.get "field" with
      | .text name => (← Sql.Criterion.ofExpression (reference name) e v).renderAlone
      | _ => (malformed .wrongType : Result String)
  else pure []

def caseSqlOn (almanac : Almanac) (sql : String) (filters : List Definition) : Reading String := do
  let found ← filters.mapM (caseConditions almanac)
  return "case when " ++ Text.join " and " found.flatten ++ " then " ++ sql ++ " end"

def caseSql (almanac : Almanac) (sql : String) (filters : List Definition) : Result String :=
  (caseSqlOn almanac sql filters).alone

end SemanticLayer.Filter
