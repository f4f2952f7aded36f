import SemanticLayer.Query.Merged
import SemanticLayer.Query.Resolution

/-!
# Compiling requests

A request is compiled to one statement.  If its fields can be joined it is a single query; if not,
its results are merged.
-/

namespace SemanticLayer

inductive QueryKind where
  | single
  | merged
  deriving DecidableEq, Repr, Inhabited

def QueryKind.name : QueryKind → String
  | .single => "SINGLE"
  | .merged => "MERGED"

structure CompiledQuery where
  sql : String
  kind : QueryKind
  warehouse : Option Warehouse
  connection : Option Connection
  deriving Inhabited

/-- The statement with its end; some warehouses allow no semicolon. -/
def CompiledQuery.text (c : CompiledQuery) : String :=
  if c.warehouse == some .druid then c.sql else c.sql ++ ";"

namespace Resolution

def asksForMerged (p : Project) (r : Resolution) : Result Bool := do
  let isAny ← r.metrics.anyM fun n => do return (← (← p.getField n).isMergedResult p).truthy
  return isAny || (r.options.get "merged_result").truthy || r.isMerged

def single (r : Resolution) (wheres havings : Conditions) : SingleQuery :=
  { metrics := r.metrics, dimensions := r.dimensions, funnel := r.funnel, wheres := wheres,
    havings := havings, orders := r.orders, model := some r.model, warehouse := r.warehouse,
    options := r.options, isWhole := true }

def compileSingle (r : Resolution) : Action String := do
  let query := r.single (← current .rows r.wheres) (← current .groups r.havings)
  let compiled ← query.compile
  return (← compiled.statementOf.render)

def compileMerged (r : Resolution) : Action String := do
  let query : MergedQuery :=
    { metrics := r.metrics, dimensions := r.dimensions,
      wheres := ← current .rows r.wheres, havings := ← current .groups r.havings,
      model := some r.model, warehouse := r.warehouse, options := r.options }
  let statement ← query.compile r.funnel
  return (← statement.render)

/-- Compiles merged results; an error of the query says that merging was tried. -/
def compileMergedAfter (r : Resolution) (attempted : Bool) : Action String := do
  try r.compileMerged
  catch e => if e.isQuery then throw (.unmerged attempted e) else throw e

/-- Compiles what could not be joined, with the dimensions that the attempt added to the given
ones. -/
def compileFallback (r : Resolution) (given : List String) : Action String := do
  let added := (← get).request.dimensions.drop given.length
  { r with dimensions := r.dimensions ++ added }.compileMergedAfter true

/-- Compiles a resolved request by an attempt at a single query: what cannot be joined is merged. -/
def compileBy (attempt : Action String) (r : Resolution) : Action (String × QueryKind) := do
  if ← r.asksForMerged (← Action.project) then return (← r.compileMergedAfter false, .merged)
  let given := (← get).request.dimensions
  match ← Action.outcome attempt with
  | .ok sql => return (sql, .single)
  | .error e =>
    if e.kind == .join && !(r.options.get "single_query").truthy then
      return (← r.compileFallback given, .merged)
    else throw e

def compile (r : Resolution) : Action (String × QueryKind) := r.compileBy r.compileSingle

end Resolution

def Request.compile (connections : List Connection) (r : Request) : Action CompiledQuery := do
  let resolved ← Resolution.ofRequest connections r
  let (sql, kind) ← resolved.compile
  return { sql := sql, kind := kind, warehouse := resolved.warehouse,
           connection := resolved.connection }

end SemanticLayer
