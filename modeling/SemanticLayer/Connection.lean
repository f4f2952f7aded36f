import SemanticLayer.Files.Path
import SemanticLayer.Value.Json
import SemanticLayer.Value.Read
import SemanticLayer.Warehouse

/-!
# Connections

How a warehouse is reached.  Each kind of warehouse needs settings of its own; those that were left
out have defaults.
-/

namespace SemanticLayer

structure Connection where
  kind : Warehouse
  name : Value
  settings : Definition
  /-- What it shows of itself, where that is not read off its settings. -/
  shown : Option Definition := none
  deriving Repr, Inhabited

namespace Connection

def required : Warehouse → List String
  | .snowflake => ["name", "account", "password"]
  | .databricks => ["name", "host", "http_path"]
  | .redshift => ["name", "host", "username", "password"]
  | .postgres | .duckDb => ["name", "host", "user", "password"]
  | .druid | .sqlServer | .azureSynapse => ["name", "host"]
  | _ => ["name"]

def defaults : Warehouse → Definition
  | .redshift => [("port", .int 5439)]
  | .postgres | .duckDb => [("port", .int 5432)]
  | .sqlServer | .azureSynapse => [("port", .int 1433)]
  | .druid => [("port", .int 8082), ("path", .text "/druid/v2/sql/"), ("scheme", .text "http")]
  | _ => []

/-! ### Users -/

def user? (d : Definition) : Result (Option Value) :=
  let user := d.get "user"
  let username := d.get "username"
  if user.truthy && username.truthy then malformed .wrongType
  else if username.truthy then .ok (some username)
  else if user.truthy then .ok (some user)
  else .ok none

def userSettings (kind : Warehouse) (d : Definition) : Result Definition := do
  match kind with
  | .snowflake =>
    match ← user? d with
    | some u => return [("user", u)]
    | none => malformed .wrongType
  | .druid | .sqlServer | .azureSynapse =>
    match ← user? d with
    | some u => return [("user", u)]
    | none => return []
  | .postgres | .duckDb => return [("username", d.get "user")]
  | _ => return [("username", d.get "username")]

/-! ### Credentials -/

def credentials (readFile : String → Result Value) (d : Definition) : Result Value := do
  let given := if (d.get "credentials").truthy then d.get "credentials" else d.get "keyfile"
  match given with
  | .map c => return .map c
  | .text s =>
    match Json.parse? s with
    | some v => return v
    | none =>
      if Path.isAbsolute s then readFile s
      else readFile (Path.within (← (← d.need "directory").needText) s)
  | v => throw (.credentialsType v.typeName v)

def credentialSettings (readFile : String → Result Value) (d : Definition) :
    Result Definition := do
  let found ← credentials readFile d
  let project ← (← found.needMap).need "project_id"
  return [("credentials", found), ("project_id", project)]

/-! ### Reading -/

def ofDefinition (readFile : String → Result Value) (d : Definition) : Result Connection := do
  let kind := Warehouse.ofName (Text.upper (← (← d.need "type").asText))
  if let .other _ := kind then malformed .missingKey
  if (required kind).any fun k => !d.has k then malformed .wrongType
  let own ← if kind == .bigquery then credentialSettings readFile d else userSettings kind d
  return { kind := kind, name := d.get "name", settings := ((defaults kind).merge d).merge own }

def warehouse (c : Connection) : Warehouse :=
  match c.kind with
  | .azureSynapse => .sqlServer
  | w => w

def schema (c : Connection) : Value :=
  match c.kind with
  | .druid => .null
  | _ => c.settings.get "schema"

def database (c : Connection) : Value :=
  match c.kind with
  | .druid => .null
  | .postgres => c.settings.get "dbname"
  | .bigquery => c.settings.get "project_id"
  | _ => c.settings.get "database"

/-! ### Showing -/

def label : Warehouse → String
  | .snowflake => "SnowflakeConnection"
  | .bigquery => "BigQueryConnection"
  | .redshift => "RedshiftConnection"
  | .postgres => "PostgresConnection"
  | .druid => "DruidConnection"
  | .sqlServer => "SQLServerConnection"
  | .duckDb => "DuckDBConnection"
  | .databricks => "DatabricksConnection"
  | .azureSynapse => "AzureSynapseConnection"
  | .other n => n

def describe (c : Connection) : String := "<" ++ label c.kind ++ " name=" ++ c.name.plain ++ ">"

def givenOnly (d : Definition) : Definition := d.filter fun (_, v) => v.truthy

private def picked (c : Connection) (keys : List String) : Definition :=
  keys.map fun k => (k, c.settings.get k)

def hasUser (c : Connection) : Bool := (c.settings.get "user").truthy

def toDefinition (c : Connection) : Result Definition := do
  let type : Definition := [("type", c.warehouse.value)]
  let place := givenOnly [("database", c.database), ("schema", c.schema)]
  match c.kind with
  | .snowflake =>
    return c.picked ["name", "user", "password", "account"] ++ type
      ++ givenOnly (c.picked ["warehouse", "database", "schema", "role"])
  | .databricks =>
    return c.picked ["name", "host", "http_path", "username", "password", "personal_access_token",
      "client_id", "client_secret"] ++ type ++ place
  | .redshift | .postgres | .duckDb =>
    return c.picked ["name", "host", "port", "username", "password"] ++ type ++ place
  | .druid =>
    if !c.hasUser then malformed .noAttribute
    return c.picked ["name", "host", "port", "path", "scheme"] ++ type
      ++ givenOnly (c.picked ["user", "password"])
  | .sqlServer | .azureSynapse =>
    if !c.hasUser then malformed .noAttribute
    return c.picked ["name", "host", "port"] ++ type ++ givenOnly (c.picked ["user", "password"])
  | _ => return c.picked ["name", "credentials", "project_id"] ++ type

def shownKeys : Warehouse → List String
  | .snowflake => ["name", "type", "account", "user", "database", "schema", "warehouse", "role"]
  | .databricks => ["name", "type", "host", "http_path", "username", "database", "schema"]
  | .redshift | .postgres | .duckDb =>
    ["name", "type", "host", "port", "username", "database", "schema"]
  | .druid => ["name", "type", "host", "port", "user", "path", "scheme"]
  | .sqlServer | .azureSynapse => ["name", "type", "host", "port", "user"]
  | _ => ["name", "type", "project_id"]

def printable (c : Connection) : Result Definition := do
  if let some shown := c.shown then return shown
  let d ← c.toDefinition
  let secret := if c.kind == .bigquery then "credentials" else "password"
  let _ ← d.need secret
  return (d.erase secret).pick (shownKeys c.kind)

end Connection

end SemanticLayer
