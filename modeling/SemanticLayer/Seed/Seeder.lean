import SemanticLayer.Host
import SemanticLayer.Naming
import SemanticLayer.Seed.Column

/-!
# Seeders

A seeder looks into a warehouse through one connection.  Three queries tell it what is there: the
columns, the tables with their comments, and how many different values columns have.
-/

namespace SemanticLayer

structure Seeder where
  connection : Connection
  database : Value
  isOtherDatabase : Bool
  schema : Value
  table : Option String
  place : String
  deriving Repr, Inhabited

namespace Seeder

def chooseConnection (connections : List Connection) (name : Option String) :
    Result Connection :=
  match name.filter (!·.isEmpty) with
  | some n =>
    match connections.find? fun c => c.name.isTextOf n with
    | some c => .ok c
    | none => malformed .noAttribute
  | none =>
    match connections with
    | [c] => .ok c
    | _ => .error .seedConnectionUndetermined

def make (connections : List Connection) (name database schema table : Option String) :
    Result Seeder := do
  let c ← chooseConnection connections name
  let database := database.filter (!·.isEmpty)
  let schema := schema.filter (!·.isEmpty)
  let table := (table.filter (!·.isEmpty)).map fun t => Text.replace t ".sql" ""
  let db := (database.map Value.text).getD c.database
  let sc := (schema.map Value.text).getD c.schema
  let place := match schema, table with
    | some _, some t => "table: " ++ db.plain ++ "." ++ sc.plain ++ "." ++ t
    | some _, none => "schema: " ++ db.plain ++ "." ++ sc.plain
    | none, _ => "database: " ++ db.plain
  return { connection := c, database := db,
           isOtherDatabase := database.isSome && !db.same c.database, schema := sc,
           table := table.filter (!·.isEmpty), place := place }

def warehouse (s : Seeder) : Warehouse := s.connection.warehouse

def hasComments (s : Seeder) : Bool := s.warehouse == .snowflake || s.warehouse == .databricks

def ended (s : Seeder) (query : String) : String :=
  if s.warehouse == .druid then query else query ++ ";"

def catalogueInDatabase : Warehouse → Bool
  | .snowflake | .redshift | .postgres | .sqlServer | .azureSynapse | .duckDb | .databricks => true
  | _ => false

def undetermined (s : Seeder) : Error :=
  if s.warehouse == .bigquery && !s.schema.truthy then .seedDatabaseAndSchema else .seedDatabase

def quotedPlace (s : Seeder) : String := "`" ++ s.database.plain ++ "." ++ s.schema.plain ++ "`"

/-! ### Queries -/

def columnsQuery (s : Seeder) : Result String :=
  let start := "SELECT table_catalog, table_schema, table_name, column_name, data_type"
    ++ (if s.hasComments then ", comment as comment" else "") ++ " FROM "
  if s.database.truthy && catalogueInDatabase s.warehouse then
    .ok (s.ended (start ++ s.database.plain ++ ".INFORMATION_SCHEMA.COLUMNS"))
  else if s.warehouse == .druid then
    .ok ("SELECT TABLE_CATALOG, TABLE_SCHEMA, TABLE_NAME, COLUMN_NAME, DATA_TYPE "
      ++ "FROM INFORMATION_SCHEMA.COLUMNS")
  else if s.database.truthy && s.schema.truthy && s.warehouse == .bigquery then
    .ok (s.ended (start ++ s.quotedPlace ++ ".INFORMATION_SCHEMA.COLUMNS"))
  else .error s.undetermined

def tablesQuery (s : Seeder) : Result String :=
  let start := "SELECT table_catalog as table_database, table_schema as table_schema, "
    ++ "table_name as table_name, "
  let database := s.database.plain
  match s.warehouse, s.database.truthy with
  | .snowflake, true =>
    .ok (s.ended (start ++ "table_owner as table_owner, table_type as table_type, "
      ++ "bytes as table_size, created as table_created, last_altered as table_last_modified, "
      ++ "row_count as table_row_count, comment as comment "
      ++ "FROM " ++ database ++ ".INFORMATION_SCHEMA.TABLES"))
  | .druid, _ =>
    .ok ("SELECT TABLE_CATALOG as table_database, TABLE_SCHEMA as table_schema, "
      ++ "TABLE_NAME as table_name, TABLE_TYPE as table_type FROM INFORMATION_SCHEMA.TABLES "
      ++ "WHERE TABLE_SCHEMA not in ('sys', 'INFORMATION_SCHEMA')")
  | .redshift, true | .postgres, true | .sqlServer, true | .azureSynapse, true | .duckDb, true =>
    .ok (s.ended (start ++ "table_type as table_type FROM " ++ database
      ++ ".INFORMATION_SCHEMA.TABLES "
      ++ "WHERE table_schema not in ('pg_catalog', 'information_schema')"))
  | .databricks, given =>
    .ok (s.ended (start ++ "table_type as table_type, comment as comment FROM "
      ++ (if given then database ++ "." else "") ++ "INFORMATION_SCHEMA.TABLES"))
  | .bigquery, given =>
    if given && s.schema.truthy then
      .ok (s.ended (start ++ "table_type as table_type, creation_time as table_created FROM "
        ++ s.quotedPlace ++ ".INFORMATION_SCHEMA.TABLES"))
    else .error s.undetermined
  | _, _ => .error s.undetermined

def cardinality (w : Warehouse) (column : String) : Result String :=
  let quoted := "\"" ++ column ++ "\""
  let name := "\"" ++ column ++ "_cardinality\""
  match w with
  | .snowflake | .duckDb | .druid | .sqlServer | .azureSynapse =>
    .ok ("APPROX_COUNT_DISTINCT( " ++ quoted ++ " ) as " ++ name)
  | .redshift => .ok ("APPROXIMATE COUNT(DISTINCT " ++ quoted ++ " ) as " ++ name)
  | .postgres => .ok ("COUNT(DISTINCT " ++ quoted ++ " ) as " ++ name)
  | .bigquery | .databricks =>
    .ok ("APPROX_COUNT_DISTINCT( `" ++ column ++ "` ) as `" ++ column ++ "_cardinality`")
  | .other _ => .error (.seedUnknownConnection w.value)

def cardinalitiesQuery (s : Seeder) (columns : List String) (schema table : Value) :
    Result String := do
  let counts ← columns.mapM (cardinality s.warehouse)
  let place := if s.warehouse == .bigquery then
      "`" ++ s.database.plain ++ "`.`" ++ schema.plain ++ "`.`" ++ table.plain ++ "`"
    else s.database.plain ++ "." ++ schema.plain ++ "." ++ table.plain
  return s.ended ("SELECT " ++ Text.join ", " counts ++ " FROM " ++ place)

end Seeder

end SemanticLayer
