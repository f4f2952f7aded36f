import SemanticLayer.Graph.Component
import SemanticLayer.Graph.Line
import SemanticLayer.Graph.ShortestPath
import SemanticLayer.Join.Basic

/-!
# The join graph

Views are joined where their identifiers have one name, and where an identifier refers to another
view by a condition of its own.  An arc says how a row of its source finds rows of its target; an
arc that repeats rows is there only if an identifier allows it.
-/

namespace SemanticLayer

structure JoinGraph where
  graph : Digraph String Definition
  /-- Views with composite identifiers, by the views whose primary keys these are made of. -/
  bridges : List (List String × String)
  /-- The strongly connected components: each sorted, the largest first. -/
  components : List (List String)
  /-- For each component all views it reaches. -/
  reached : List (List String)
  deriving Repr, Inhabited

namespace JoinGraph

/-! ### Identifiers -/

def identifiers (v : View) : Result (List Definition) := do
  match v.definition.get? "identifiers" with
  | none => return []
  | some ids => (← ids.iterate).mapM Value.needMap

def isJoin (identifier : Definition) : Result Bool := do
  return (← identifier.need "type").isTextOf "join"

/-- Views by the names of their identifiers: all of them, and those of primary keys. -/
structure Names where
  all : List (String × String)
  primary : List (String × String)

def Names.views (table : List (String × String)) (name : String) : List String :=
  (table.filter (·.1 == name)).map (·.2)

/-- What an identifier is listed with under its name; one of type join is not listed. -/
def nameEntry (v : View) (identifier : Definition) : Result (Option (String × String × Bool)) := do
  if ← isJoin identifier then return none
  let name := (← identifier.need "name").plain
  return some (name, v.name, (identifier.get "type").isTextOf "primary")

def names (views : List View) : Result Names := do
  let entries ← views.mapM fun v => do (← identifiers v).filterMapM (nameEntry v)
  let entries := entries.flatten
  return { all := entries.map fun (n, v, _) => (n, v),
           primary := (entries.filter (·.2.2)).map fun (n, v, _) => (n, v) }

def choices : List (List String) → List (List String)
  | [] => [[]]
  | options :: rest => options.flatMap fun o => (choices rest).map (o :: ·)

def bridgeEntries (names : Names) (v : View) (identifier : Definition) :
    Result (List (List String × String)) := do
  if ← isJoin identifier then return []
  match identifier.get? "identifiers" with
  | none => return []
  | some parts =>
    let options ← (← parts.iterate).mapM fun part => do
      return Names.views names.primary (← (← part.needMap).need "name").plain
    return (choices options).map fun c => (c.mergeSort fun a b => decide (a ≤ b), v.name)

/-- The bridges: a later view replaces an earlier one with the same views. -/
def bridgesOf (views : List View) (names : Names) : Result (List (List String × String)) := do
  let found ← views.mapM fun v => do
    return (← (← identifiers v).mapM (bridgeEntries names v)).flatten
  return found.flatten.foldl (fun acc (key, view) =>
    if acc.any (·.1 == key) then acc.map fun e => if e.1 == key then (key, view) else e
    else acc ++ [(key, view)]) []

/-! ### Arcs -/

def weightOf (data : Definition) : Nat :=
  match data.get "weight" with
  | .int n => n.toNat
  | _ => 0

def explicitData (identifier : Definition) : Result Definition := do
  let relationship := (identifier.get? "relationship").getD (.text "many_to_one")
  let condition ← identifier.need "sql_on"
  let weight := (← Relationship.read relationship).weight
  return ((identifier.set "relationship" relationship).set "sql_on" condition).set "weight"
    (.int weight)

/-- Arcs by source and target, each written over an earlier one. -/
abbrev References := List (String × String × Definition)

def References.put (table : References) (u v : String) (d : Definition) : References :=
  if table.any fun e => e.1 == u && e.2.1 == v then
    table.map fun e => if e.1 == u && e.2.1 == v then (u, v, d) else e
  else table ++ [(u, v, d)]

/-- The arcs of one identifier of type join: as it is written, and backwards unless that repeats
rows. -/
def referenceStep (view : String) (table : References) (identifier : Definition) :
    Result References := do
  if !(← isJoin identifier) then return table
  let inverse := (← Relationship.read (← identifier.need "relationship")).invert
  let other := (← identifier.need "reference").plain
  let table := table.put view other (← explicitData identifier)
  if inverse.isFanout then return table
  let backwards ← explicitData (identifier.set "relationship" (.text inverse.name))
  return table.put other view backwards

def references (views : List View) : Result References :=
  views.foldlM (fun table v => do (← identifiers v).foldlM (referenceStep v.name) table) []

def clause (identifier : Definition) (view : String) : Result String := do
  match identifier.get? "sql" with
  | some sql =>
    let text := sql.plain
    return (Reference.all text).foldl (fun acc r =>
      if r == Reference.table || Text.contains r "." then acc
      else Text.replace acc (Reference.wrap r) (Reference.wrap (view ++ "." ++ r))) text
  | none => return Reference.wrap (view ++ "." ++ (← identifier.need "name").plain)

def matchData (first : Definition) (firstView : String) (second : Definition)
    (secondView : String) : Result (Relationship × Definition) := do
  let relationship ← Relationship.derive (← first.need "type") (← second.need "type")
  let condition := (← clause first firstView) ++ "=" ++ (← clause second secondView)
  return (relationship,
    [("relationship", .text relationship.name), ("type", .text "left_outer"),
     ("sql_on", .text condition), ("weight", .int relationship.weight)])

def allows (identifier : Definition) (view : String) : Result Bool := do
  let only := (identifier.get? "only_join").getD (.list [])
  if only.truthy then only.includes (.text view) else return true

def allowsFanout (identifier : Definition) (view : String) : Result Bool :=
  ((identifier.get? "allowed_fanouts").getD (.list [])).includes (.text view)

def addArc (g : Digraph String Definition) (u v : String) (data : Definition) :
    Digraph String Definition :=
  g.addArc Definition.merge u v data

def isPreferred (r : Relationship) (existing : Definition) : Result Bool := do
  match Relationship.ofValue? (existing.get "relationship") with
  | some e => return r.weight < e.weight
  | none => malformed .badValue

def offer (views : List View) (v : View) (identifier : Definition) (other : String) :
    Result (Option (Relationship × Definition)) := do
  if other == v.name then return none
  if !(← allows identifier other) then return none
  match views.find? (·.name == other) with
  | none => throw (.viewNotFound other)
  | some w =>
    let name ← identifier.need "name"
    match ← (← identifiers w).findM? fun i => do return (← i.need "name").same name with
    | none => malformed .noAttribute
    | some second =>
      if !(← allows second v.name) then return none
      let (relationship, data) ← matchData identifier v.name second other
      if relationship.isFanout && !(← allowsFanout identifier other) then return none
      return some (relationship, data)

/-- Writes an arc, unless there is one whose relationship is as good. -/
def settle (g : Digraph String Definition) (u v : String) (r : Relationship) (data : Definition) :
    Result (Digraph String Definition) := do
  match g.arc? u v with
  | some existing => if ← isPreferred r existing.data then return addArc g u v data else return g
  | none => return addArc g u v data

def matchStep (views : List View) (v : View) (identifier : Definition)
    (g : Digraph String Definition) (other : String) : Result (Digraph String Definition) := do
  match ← offer views v identifier other with
  | none => return g
  | some (relationship, data) => settle g v.name other relationship data

def viewStep (views : List View) (names : Names) (table : References)
    (state : Digraph String Definition × List String) (v : View) :
    Result (Digraph String Definition × List String) := do
  let (g, seen) := state
  if seen.contains v.name then throw (.duplicateView v.name)
  let g := g.addNode v.name
  let g := (table.filter (·.1 == v.name)).foldl (fun g (u, w, d) => addArc g u w d) g
  let g ← (← identifiers v).foldlM (fun g i => do
    let name := (← i.need "name").plain
    (Names.views names.all name).foldlM (matchStep views v i) g) g
  return (g, v.name :: seen)

/-! ### The graph -/

/-- The components in their order: the largest first, then backwards by their first view. -/
def sortedComponents (g : Digraph String Definition) : List (List String) :=
  let sorted := g.components.map fun c => c.mergeSort fun a b => decide (a ≤ b)
  sorted.mergeSort fun a b =>
    decide (b.length < a.length) ||
      (a.length == b.length && decide ((b.head?.getD "") ≤ (a.head?.getD "")))

def ofGraph (g : Digraph String Definition) (bridges : List (List String × String)) : JoinGraph :=
  let components := sortedComponents g
  { graph := g, bridges := bridges, components := components, reached := components.map g.reach }

def build (views : List View) : Result JoinGraph := do
  let names ← names views
  let bridges ← bridgesOf views names
  let table ← references views
  let (g, _) ← views.foldlM (viewStep views names table) (Digraph.empty, [])
  return ofGraph g bridges

abbrev Built := { g : JoinGraph // ∃ views, build views = .ok g }

def Built.ofViews (views : List View) : Result Built :=
  match h : build views with
  | .ok g => .ok ⟨g, views, h⟩
  | .error e => .error e

def componentName (i : Nat) : String := "subquery_" ++ toString i

def componentNames (g : JoinGraph) : List String :=
  (List.range g.components.length).map componentName

def componentOf (g : JoinGraph) (view : String) : Result String :=
  match g.components.findIdx? (·.contains view) with
  | some i => .ok (componentName i)
  | none => .error (.viewNotInGraph view)

def joinableFrom (g : JoinGraph) (view : String) : List String :=
  (g.reached.zipIdx.filter fun (vs, _) => vs.contains view).map fun (_, i) => componentName i

def join (g : JoinGraph) (u v : String) : Result Join :=
  match g.graph.arc? u v with
  | none => malformed .missingKey
  | some a =>
    Join.make ((a.data.set "base_view_name" (.text u)).set "join_view_name" (.text v))

def joins (g : JoinGraph) (pairs : List (String × String)) : Result (List Join) := do
  let (found, _) ← pairs.foldlM (fun (state : List Join × List String) (u, v) => do
    let (found, joined) := state
    let j ← g.join u v
    return (if joined.contains v then found else found ++ [j], v :: joined)) ([], [])
  return found

def errors (p : Project) (g : JoinGraph) : Result (List String) := do
  let found ← (← g.graph.edges.mapM fun (u, v) => g.join u v).mapM (Join.errors p)
  return found.flatten

end JoinGraph

end SemanticLayer
