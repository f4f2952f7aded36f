import SemanticLayer.Value.Show

/-!
# Warehouses

The databases for which SQL is written, by the names under which connections and queries ask for
them.
-/

namespace SemanticLayer

inductive Warehouse where
  | snowflake
  | bigquery
  | redshift
  | postgres
  | druid
  | sqlServer
  | duckDb
  | databricks
  | azureSynapse
  | other (name : String)
  deriving DecidableEq, Repr, Inhabited

namespace Warehouse

def name : Warehouse → String
  | .snowflake => "SNOWFLAKE"
  | .bigquery => "BIGQUERY"
  | .redshift => "REDSHIFT"
  | .postgres => "POSTGRES"
  | .druid => "DRUID"
  | .sqlServer => "SQL_SERVER"
  | .duckDb => "DUCK_DB"
  | .databricks => "DATABRICKS"
  | .azureSynapse => "AZURE_SYNAPSE"
  | .other n => n

def supported : List Warehouse :=
  [.snowflake, .bigquery, .redshift, .postgres, .druid, .sqlServer, .duckDb, .databricks,
   .azureSynapse]

def ofName (s : String) : Warehouse := (supported.find? (·.name == s)).getD (.other s)

def ofValue (v : Value) : Warehouse := ofName v.plain

def value (w : Warehouse) : Value := .text w.name

def hasSymmetricAggregates : Warehouse → Bool
  | .snowflake | .redshift | .bigquery | .postgres | .duckDb => true
  | _ => false

end Warehouse

end SemanticLayer
