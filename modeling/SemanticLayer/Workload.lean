import SemanticLayer.Cli.Terminal
import SemanticLayer.Inspect

/-!
# Workloads

A workload is a fixed mix of work on a commerce project, gone through in order and again from its
start when more queries are asked for than it has.
-/

namespace SemanticLayer

inductive Workload where
  | joins (queries : Nat)
  | calls (queries : Nat)
  | cumulative (queries : Nat)
  | funnel (steps : Nat)
  | nonAdditive (queries : Nat)
  | listing (lookups : Nat)
  | commands
  | validation
  deriving DecidableEq, Repr

namespace Workload

def rounds {α : Type} (mix : List α) (n : Nat) : List α :=
  (List.range n).filterMap fun i => mix[i % mix.length]?

/-! ### Requests -/

def request (metrics dimensions : List String) (warehouse : Option String := none) : Request :=
  { metrics := metrics, dimensions := dimensions,
    options := warehouse.toList.map fun w => ("query_type", .text w) }

def joinMix : List Request :=
  [request ["total_item_revenue"] ["channel", "new_vs_repeat"],
   request ["total_item_revenue"] ["region", "new_vs_repeat"] (some "BIGQUERY"),
   request ["total_item_revenue", "number_of_orders"] ["region"] (some "REDSHIFT"),
   request ["average_order_revenue"] ["channel"] (some "POSTGRES")]

def cumulativeMix : List Request :=
  [request ["total_lifetime_revenue"] [],
   request ["ltv", "total_lifetime_revenue"] [] (some "BIGQUERY"),
   request ["cumulative_customers", "cumulative_customers_no_change_grain"]
     ["orders.order_date"]]

def nonAdditiveMix : List Request :=
  [request ["mrr_end_of_month"] [], request ["mrr_beginning_of_month"] [],
   request ["mrr_end_of_month"] ["plan_name"], request ["mrr_end_of_month"] ["record_week"]]

def condition (field expression : String) (value : Value) : Value :=
  .map [("field", .text field), ("expression", .text expression), ("value", value)]

def stepMix : List Value :=
  [.list [condition "channel" "equal_to" (.text "Paid")],
   .list [condition "channel" "isin" (.texts ["Organic", "Paid"])]]

def funnelRequest (steps : Nat) (warehouse : String) : Request :=
  { request ["number_of_orders"] ["channel"] (some warehouse) with
    funnel := .map [("steps", .list (rounds stepMix steps)),
      ("within", .map [("value", .int 7), ("unit", .text "days")])],
    wheres := .list [condition "region" "equal_to" (.text "West")] }

def funnelWarehouses : List String := ["SNOWFLAKE", "BIGQUERY", "REDSHIFT", "POSTGRES", "DUCK_DB"]

def reference (field : String) : String := "$\x7b" ++ field ++ "\x7d"

def callMix : List String :=
  let region := reference "customers.region"
  let revenue := reference "total_item_revenue"
  let channel := reference "order_lines.channel"
  ["SELECT * FROM MQL(total_item_revenue BY channel)",
   "SELECT * FROM MQL(total_item_revenue BY channel, new_vs_repeat) as rev_group",
   "SELECT * FROM MQL(total_item_revenue BY region, new_vs_repeat) as rg",
   "SELECT * FROM MQL(total_item_revenue BY region, new_vs_repeat WHERE " ++ region
     ++ " != 'West' AND " ++ reference "orders.new_vs_repeat" ++ " <> 'New' HAVING " ++ revenue
     ++ " > -12 AND " ++ revenue
     ++ " < 122 ORDER BY total_item_revenue ASC, new_vs_repeat) as rev_group",
   "SELECT * FROM MQL(number_of_orders FOR orders FUNNEL " ++ channel ++ " = 'Paid' THEN "
     ++ channel ++ " = 'Organic' WITHIN 3 days WHERE " ++ region ++ " != 'West') as seq",
   "SELECT x.channel FROM analytics.x"]

def commandLines : List (List String) :=
  [["validate"], ["debug"], ["list", "models"], ["list", "connections"], ["list", "views"],
   ["list", "--view", "orders", "fields"],
   ["list", "--view", "orders", "--show-hidden", "dimensions"], ["list", "metrics"],
   ["list", "widgets"], ["show", "--type", "model", "test_model"],
   ["show", "--type", "view", "orders"], ["show", "--type", "connection", "testing_snowflake"],
   ["show", "--type", "field", "new_vs_repeat"], ["show", "--type", "metric", "total_item_revenue"],
   ["show", "--type", "dimension", "channel"], ["show", "--type", "zzz", "channel"]]

/-! ### The project at hand -/

def manifest : Manifest :=
  ⟨.map [("nodes", .map [("models.test_project.customers", .map [("database", .text "transformed"),
    ("schema", .text "analytics"), ("alias", .text "customers")])])]⟩

def connections : List Connection :=
  let make (kind : Warehouse) (name key value : String) : Connection :=
    { kind := kind, name := .text name, settings := [("database", .text "analytics")],
      shown := some [("name", .text name), (key, .text value)] }
  [make .snowflake "testing_snowflake" "account" "blah.us-east-1",
   make .bigquery "testing_bigquery" "project_id" "fake-proj-id",
   make .databricks "testing_databricks" "host" "blah.databricks.com"]

def session (models views dashboards : List Definition) (almanac : Almanac) : Result Session := do
  let p ← Project.ofDefinitions models views dashboards (.text "prod") [] (some manifest) almanac
  return { workspace := { project := p }, declared := connections.map .ready }

def files (models views dashboards : List Definition) : List (String × Value) :=
  let kept (kind : String) (ds : List Definition) : List (String × Value) :=
    ds.map fun d => (kind ++ "/" ++ (Definition.get d "name").plain ++ ".yml", .map d)
  kept "models" models ++ kept "views" views ++ kept "dashboards" dashboards

/-! ### Running -/

def inSession {α : Type} (work : Session → Result α × Session) : TerminalAction α := fun t =>
  match t.session with
  | none => (.error .notLoaded, t)
  | some s =>
    let (r, s) := work s
    (r, { t with session := some s })

def compileAll (requests : List Request) : TerminalAction Value := do
  let texts ← requests.mapM fun r => do return (← inSession (·.compile r)).text
  return .texts texts

def convertAll (texts : List String) : TerminalAction Value := do
  return .texts (← texts.mapM fun q => inSession (·.convert q []))

def listAll (lookups : Nat) (s : Session) : Result Value := do
  let names ← [Session.Listing.models, .views, .dashboards, .metrics, .dimensions].mapM
    fun what => s.names what none false
  let orders ← s.names .fields (some "orders") true
  let found ← ((← s.project.fields none true true none).take lookups).mapM fun f => do
    return Value.list [.text f.id, .map (← (← s.field f.id none).printable s.project)]
  return .list ((names ++ [orders]).map .list ++ found)

def runLine (i : Installation) (args : List String) : TerminalAction (Nat × String) :=
  tryCatch (Terminal.run i args) fun _ => do return (1, (← get).host.printed)

def measure (i : Installation) (args : List String) : TerminalAction Value := do
  let (code, output) ← runLine i args
  let length : Value := if args.head? == some "debug" then .null else .int output.length
  return .list [.text (args.headD ""), .int code, length]

def measureAll (i : Installation) : TerminalAction Value := do
  let measured ← commandLines.mapM (measure i)
  let (code, _) ← runLine i ["init"]
  let errors ← inSession (·.perform Action.validate)
  return .list (measured ++ [.int code, .int errors.length])

def validateBoth : TerminalAction Value := do
  let here ← inSession (·.perform Action.validate)
  let location := (← get).host.disk.current
  let site ← Terminal.onHost (({ location := some location } : Site).load none)
  match site.session with
  | none => throw .notLoaded
  | some s =>
    let there ← (s.perform Action.validate).1
    return .texts ((here ++ there).mergeSort fun a b => decide (a ≤ b))

def run (i : Installation) : Workload → TerminalAction Value
  | .joins n => compileAll (rounds joinMix n)
  | .calls n => convertAll (rounds callMix n)
  | .cumulative n => compileAll (rounds cumulativeMix n)
  | .funnel n => compileAll (funnelWarehouses.map (funnelRequest n))
  | .nonAdditive n => compileAll (rounds nonAdditiveMix n)
  | .listing n => inSession fun s => (listAll n s, s)
  | .commands => measureAll i
  | .validation => validateBoth

end Workload

end SemanticLayer
