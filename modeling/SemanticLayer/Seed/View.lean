import SemanticLayer.Project.Basic
import SemanticLayer.Seed.Seeder

/-!
# Seeded views

Every column of a table becomes a field of a view: a column of times a group of dimensions, any
other a dimension.  Columns of text with fewer than a hundred different values can be tagged as
searchable.
-/

namespace SemanticLayer.Seeder

abbrev Ask := String → HostAction Dataset

def timeframes : List String :=
  ["raw", "date", "day_of_year", "week", "week_of_year", "month", "month_of_year", "quarter",
   "year"]

def field (s : Seeder) (row : Definition) : Result (Definition × ColumnType) := do
  let column ← (row.get "COLUMN_NAME").needText
  let type := match row.get "DATA_TYPE" with
    | .text name => ColumnType.ofName s.warehouse name
    | _ => .string
  let comment := row.get "COMMENT"
  let description : Definition :=
    if s.hasComments && !comment.isNull then [("description", comment)] else []
  let start : Definition :=
    [("name", .text (Name.clean column)), ("sql", .text ("${TABLE}." ++ column))] ++ description
  let kind : Definition := if type.isTime then
      [("field_type", .text "dimension_group"), ("type", .text "time"),
       ("timeframes", .texts timeframes), ("datatype", .text type.name)]
    else [("field_type", .text "dimension"), ("type", .text type.name)]
  return (start ++ kind, type)

def isSmall : Value → Result Bool
  | .int n => .ok (n < 100)
  | .real x => .ok (x.ltNat 100)
  | .bool _ => .ok true
  | _ => malformed .wrongType

def countedColumn (name : String) : String :=
  let ending := "_cardinality"
  match Text.split (Text.lower name) ending with
  | [all] => all
  | pieces => Text.join ending pieces.dropLast

def searchableColumns (counts : Dataset) : Result (List String) := do
  let first := counts.rows.head?.getD []
  let few ← (counts.columns.zip first).filterM fun (_, v) => isSmall v
  return few.map fun (name, _) => countedColumn name

def tag (columns : List String) (f : Definition) : Definition :=
  match Text.split (f.get "sql").plain "." with
  | _ :: rest =>
    if columns.contains (Text.lower (Text.join "." rest)) then f.set "searchable" (.bool true)
    else f
  | [] => f

def fields (s : Seeder) (ask : Ask) (columns : Dataset) (schema table : Value)
    (tagged : Bool) : HostAction (List Definition) := do
  if tagged && schema.isNull then throw (.tagNeeds "schema_name")
  if tagged && table.isNull then throw (.tagNeeds "table_name")
  columns.require (["COLUMN_NAME", "DATA_TYPE"] ++ if s.hasComments then ["COMMENT"] else [])
  let rows := columns.records
  let made ← rows.mapM fun r => do return (← s.field r)
  let texts := (rows.zip made).filterMap fun (r, _, type) =>
    if tagged && type == .string then some (r.get "COLUMN_NAME").plain else none
  if texts.isEmpty then return made.map (·.1)
  let counts ← ask (← s.cardinalitiesQuery texts schema table)
  let searchable ← searchableColumns counts
  return made.map fun (f, _) => tag searchable f

def tableName (s : Seeder) (schema table : String) : Result String :=
  let name := schema ++ "." ++ table
  match s.warehouse with
  | .druid => .ok name
  | .bigquery => .ok ("`" ++ s.database.plain ++ "." ++ name ++ "`")
  | .other _ => .error (.seedConnectionType s.warehouse.value)
  | _ => .ok (if s.isOtherDatabase then s.database.plain ++ "." ++ name else name)

def view (s : Seeder) (ask : Ask) (columns : Dataset) (model table schema comment : Value)
    (tagged : Bool) : HostAction Definition := do
  let name := Name.clean (← table.needText)
  let fields ← s.fields ask columns schema table tagged
  let sqlName ← s.tableName schema.plain table.plain
  let date := ((fields.find? fun f => (f.get "field_type").isTextOf "dimension_group").map
    fun f => ("default_date", f.get "name")).toList
  let description := if comment.truthy then [("description", comment)] else []
  return [("version", .int 1), ("type", .text "view"), ("name", .text name),
      ("model_name", model), ("sql_table_name", .text sqlName)] ++ date
    ++ [("fields", .list (fields.map .map))] ++ description

def baseModel : String := "base_model"

def model (s : Seeder) : Definition :=
  [("version", .int 1), ("type", .text "model"), ("name", .text baseModel),
   ("connection", s.connection.name)]

def modelName (models : List Model) : Value := (models.head?.map Model.name).getD (.text baseModel)

end SemanticLayer.Seeder
