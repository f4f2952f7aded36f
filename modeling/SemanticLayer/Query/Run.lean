import SemanticLayer.Connection

/-!
# Running queries

A query is run by calls to the client of its warehouse, which follow from the connection and the
options; the answer is a table, or a cursor if that is asked for.
-/

namespace SemanticLayer

structure ClientCall where
  name : String
  arguments : List Value := []
  named : Definition := []
  deriving Repr, Inhabited

structure RunOptions where
  timeout : Value
  rawCursor : Bool
  preQueries : Bool
  startWarehouse : Bool
  deriving Repr, Inhabited

def RunOptions.ofDefinition (d : Definition) : RunOptions :=
  { timeout := (d.get? "timeout").getD (.int 180), rawCursor := (d.get "raw_cursor").truthy,
    preQueries := ((d.get? "run_pre_queries").getD (.bool true)).truthy,
    startWarehouse := ((d.get? "start_warehouse").getD (.bool true)).truthy }

inductive Answer where
  | table
  | cursor
  deriving DecidableEq, Repr, Inhabited

structure Run where
  calls : List ClientCall
  outcome : Result Answer
  deriving Inhabited

namespace Run

def failed (calls : List ClientCall) (e : Error) : Run := ⟨calls, .error e⟩

def answer (o : RunOptions) : Result Answer := .ok (if o.rawCursor then .cursor else .table)

/-! ### Snowflake -/

def preQueries (c : Connection) (warehouseOnly : Bool) : Result String := do
  let warehouse := c.settings.get "warehouse"
  let named (key word : String) : Result String := do
    let v := c.settings.get key
    if v.truthy && !warehouseOnly then
      return "USE " ++ word ++ " \"" ++ Text.upper (← v.asText) ++ "\";"
    else return ""
  let first := if warehouse.truthy then "USE WAREHOUSE " ++ warehouse.plain ++ ";" else ""
  return first ++ (← named "database" "DATABASE") ++ (← named "schema" "SCHEMA")

private def close : ClientCall := { name := "connection.close" }

private def cursor : ClientCall := { name := "connection.cursor" }

def snowflake (c : Connection) (query : Value) (o : RunOptions) : Run :=
  let s := c.settings
  let connect : ClientCall :=
    { name := "snowflake.connect",
      named := [("account", s.get "account"), ("user", s.get "user"),
      ("password", s.get "password"), ("role", s.get "role")] }
  let setUp : Result String :=
    if o.preQueries then preQueries c false
    else if o.startWarehouse then preQueries c true
    else .ok ""
  match setUp with
  | .error e => failed [connect] e
  | .ok text =>
    let first := if text.isEmpty then [] else
      [{ name := "connection.execute_string", arguments := [.text text] }]
    let execute : ClientCall :=
      { name := "cursor.execute", arguments := [query], named := [("timeout", o.timeout)] }
    ⟨connect :: first ++ [cursor, execute, close], answer o⟩

/-! ### Redshift, Postgres, BigQuery -/

def redshift (c : Connection) (query : Value) (o : RunOptions) : Run :=
  let s := c.settings
  let connect : ClientCall :=
    { name := "redshift.connect",
      named := [("host", s.get "host"), ("port", s.get "port"), ("database", c.database),
      ("user", s.get "username"), ("password", s.get "password"), ("timeout", o.timeout)] }
  ⟨[connect, cursor, { name := "cursor.execute", arguments := [query] }, close], answer o⟩

def milliseconds : Value → String
  | .bool b => if b then "1000" else "0"
  | .int n => toString (n * 1000)
  | .real (.finite negative m e) =>
    let x : Double := if 0 ≤ e then .ofQuotient negative (m * 1000 * Nat.pow 2 e.toNat) 1
      else .ofQuotient negative (m * 1000) (Nat.pow 2 (-e).toNat)
    (Value.real x).plain
  | .text s => String.join (List.replicate 1000 s)
  | v => v.plain

def address (c : Connection) (port : Int) : String :=
  let s := c.settings
  "postgresql://" ++ (s.get "username").plain ++ ":" ++ (s.get "password").plain ++ "@"
    ++ (s.get "host").plain ++ ":" ++ toString port ++ "/" ++ c.database.plain

def postgres (c : Connection) (query : Value) (o : RunOptions) : Run :=
  match (c.settings.get "port").toInteger with
  | .error e => failed [] e
  | .ok port =>
    let options : Definition := if o.timeout.truthy then
        [("options", .text ("-c statement_timeout=" ++ milliseconds o.timeout))]
      else []
    let engine : ClientCall :=
      { name := "sqlalchemy.create_engine", arguments := [.text (address c port)],
        named := [("connect_args", .map options)] }
    let start := [engine, { name := "engine.connect" }]
    if o.rawCursor then ⟨start ++ [cursor], .ok .cursor⟩
    else ⟨start ++ [cursor, { name := "cursor.execute", arguments := [query] }, close], .ok .table⟩

def bigquery (c : Connection) (query : Value) (o : RunOptions) : Run :=
  let s := c.settings
  ⟨[{ name := "credentials.from_service_account_info", arguments := [s.get "credentials"] },
    { name := "bigquery.Client",
      named := [("project", s.get "project_id"), ("credentials", .text "<credentials>")] },
    { name := "connection.query", arguments := [query],
      named := [("timeout", o.timeout), ("job_retry", .null)] }, close], answer o⟩

def onConnection (c : Option Connection) (query : Value) (options : Definition) : Run :=
  let o := RunOptions.ofDefinition options
  match c with
  | none => failed [] (.malformed .noAttribute)
  | some c =>
    match c.warehouse with
    | .snowflake => snowflake c query o
    | .redshift => redshift c query o
    | .postgres => postgres c query o
    | .bigquery => bigquery c query o
    | w => failed [] (.connectionUnsupported w.value)

def client : Warehouse → String × String
  | .snowflake => ("Snowflake", "snowflake")
  | .redshift => ("Redshift", "redshift")
  | .postgres => ("Postgres", "postgres")
  | _ => ("BigQuery", "bigquery")

def withoutClient (c : Option Connection) (query : Value) (options : Definition) : Result Answer :=
  let run := onConnection c query options
  match run.calls, c with
  | _ :: _, some c => .error (.clientMissing (client c.warehouse).1 (client c.warehouse).2)
  | _, _ => run.outcome

end Run

end SemanticLayer
