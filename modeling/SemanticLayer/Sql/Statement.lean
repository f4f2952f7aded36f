import SemanticLayer.Sql.Criterion
import SemanticLayer.Warehouse

/-!
# Statements

A query as data: tables that are written out first, then one selection.  `Statement.render` is the
only place where the text of a statement is put together.
-/

namespace SemanticLayer.Sql

structure Dialect where
  lists : ListStyle
  limitsInFront : Bool
  deriving DecidableEq, Repr, Inhabited

def Dialect.ofWarehouse : Warehouse → Result Dialect
  | .snowflake | .bigquery => .ok ⟨.brackets, false⟩
  | .redshift | .postgres | .druid | .duckDb | .databricks => .ok ⟨.array, false⟩
  | .sqlServer | .azureSynapse => .ok ⟨.brackets, true⟩
  | .other _ => malformed .missingKey

structure Source where
  table : String
  name : Option String := none
  deriving DecidableEq, Repr, Inhabited

inductive Column where
  | expression (sql : String) (name : Option String)
  | star (table : String)
  deriving DecidableEq, Repr, Inhabited

inductive JoinKind where
  | inner
  | left
  | fullOuter
  | cross
  deriving DecidableEq, Repr, Inhabited

namespace JoinKind

def name : JoinKind → String
  | .inner => "INNER"
  | .left => "LEFT"
  | .fullOuter => "FULL OUTER"
  | .cross => "CROSS"

def words : JoinKind → String
  | .inner => "JOIN"
  | k => k.name ++ " JOIN"

def ofValue : Value → JoinKind
  | .text "inner" => .inner
  | .text "full_outer" => .fullOuter
  | .text "cross" => .cross
  | _ => .left

end JoinKind

structure JoinClause where
  kind : JoinKind
  source : Source
  on : Option String
  deriving DecidableEq, Repr, Inhabited

inductive Direction where
  | ascending
  | descending
  deriving DecidableEq, Repr, Inhabited

def Direction.word : Direction → String
  | .ascending => "ASC"
  | .descending => "DESC"

structure Select where
  dialect : Dialect
  isDistinct : Bool := false
  columns : List Column := []
  source : Option Source := none
  joins : List JoinClause := []
  wheres : List Criterion := []
  groups : List String := []
  havings : List Criterion := []
  orders : List (String × Direction) := []
  limit : Value := .null
  deriving Repr, Inhabited

inductive Statement where
  | text (sql : String)
  | union (parts : List Statement)
  | select (tables : List (String × Statement)) (body : Select)
  deriving Repr, Inhabited

def Source.render (s : Source) : String :=
  match s.name with
  | some a => s.table ++ " " ++ a
  | none => s.table

namespace Column

def render (hasJoins : Bool) : Column → String
  | .expression sql none => sql
  | .expression sql (some a) => sql ++ " as " ++ a
  | .star table => if hasJoins then table ++ ".*" else "*"

end Column

def JoinClause.render (j : JoinClause) : String :=
  j.kind.words ++ " " ++ j.source.render
    ++ (match j.on with
      | some c => " ON " ++ c
      | none => "")

namespace Select

def front (s : Select) : String :=
  (if s.isDistinct then "DISTINCT " else "")
    ++ (if s.dialect.limitsInFront && s.limit.truthy then "TOP (" ++ s.limit.plain ++ ") " else "")

def clause (word : String) (parts : List String) : String :=
  if parts.isEmpty then "" else " " ++ word ++ " " ++ Text.join "," parts

def conditions (s : Select) (word : String) (cs : List Criterion) : Result String := do
  if cs.isEmpty then return ""
  else return " " ++ word ++ " " ++ (← Criterion.renderAll s.dialect.lists cs)

def render (s : Select) : Result String := do
  let columns := s.columns.map (Column.render !s.joins.isEmpty)
  let wheres ← s.conditions "WHERE" s.wheres
  let havings ← s.conditions "HAVING" s.havings
  return "SELECT " ++ s.front ++ Text.join "," columns
    ++ (match s.source with
      | some t => " FROM " ++ t.render
      | none => "")
    ++ String.join (s.joins.map fun j => " " ++ j.render)
    ++ wheres
    ++ clause "GROUP BY" s.groups
    ++ havings
    ++ clause "ORDER BY" (s.orders.map fun (f, d) => f ++ " " ++ d.word)
    ++ (if s.dialect.limitsInFront || s.limit.isNull then "" else " LIMIT " ++ s.limit.plain)

end Select

namespace Statement

mutual

def render : Statement → Result String
  | .text sql => .ok sql
  | .union parts => do return Text.join " UNION ALL " (← renderParts parts)
  | .select tables body => do
    if body.columns.isEmpty then return ""
    let front ← renderTables tables
    let rest ← body.render
    return (if front.isEmpty then "" else "WITH " ++ Text.join "," front) ++ rest

def renderParts : List Statement → Result (List String)
  | [] => .ok []
  | s :: rest => do
    let text ← render s
    return ("(" ++ text ++ ")") :: (← renderParts rest)

def renderTables : List (String × Statement) → Result (List String)
  | [] => .ok []
  | (name, s) :: rest => do
    let text ← render s
    return (name ++ " AS (" ++ text ++ ") ") :: (← renderTables rest)

end

end Statement

end SemanticLayer.Sql
