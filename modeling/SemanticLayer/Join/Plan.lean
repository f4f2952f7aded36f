import SemanticLayer.Join.Graph

/-!
# Join plans

The views of a query are joined one after the other along arcs of the join graph.  If the arcs
between the views can be put in order, that order is the plan.  Otherwise two views are joined by a
shortest path, and more of them by growing a plan from one arc along shortest paths.
-/

namespace SemanticLayer.JoinGraph

abbrev Pair := String × String

def sameViews (a b : Pair) : Bool := a == b || (a.1 == b.2 && a.2 == b.1)

/-- Drops pairs that join a view again; `before` holds the pairs in front. -/
def cleanAfter (before : List Pair) : List Pair → List Pair
  | [] => []
  | pair :: rest =>
    let included := (before.head?.map (·.1)).toList ++ before.map (·.2)
    let others := cleanAfter (before ++ [pair]) rest
    if included.contains pair.2 || before.any (sameViews pair) then others else pair :: others

def clean (pairs : List Pair) : List Pair := cleanAfter [] pairs

def joined? : List Pair → Option (List String)
  | [] => some []
  | (u, v) :: rest =>
    rest.foldlM (fun views (a, b) => if views.contains a then some (views ++ [b]) else none) [u, v]

/-- The plan that follows from the order of the arcs between the views. -/
def orderedPlan? (g : JoinGraph) (views : List String) : Option (List Pair) := do
  let pairs := clean (← (g.graph.restrict views).line.topological?)
  if views.length ≤ 1 then return pairs
  let found ← joined? pairs
  if views.all found.contains then return pairs else none

/-- A path of least weight between the ends of one of the pairs; of several the first by name. -/
def bestPath (g : JoinGraph) (pairs : List Pair) : Result (Option (List String)) := do
  let found ← pairs.filterMapM fun (u, v) => do
    if !g.graph.nodes.contains u || !g.graph.nodes.contains v then malformed .unknownNode
    return (g.graph.shortestPath? weightOf u v).map fun path =>
      (g.graph.pathWeight weightOf path, String.join path, path)
  return (found.mergeSort fun a b =>
    decide (a.1 < b.1) || (a.1 == b.1 && decide (a.2.1 ≤ b.2.1))).head?.map (·.2.2)

/-- The views of a plan that a path to another view may start from. -/
def anchors (pairs : List Pair) : List String :=
  (pairs.head?.map (·.1)).toList ++ pairs.map (·.2)

def inOrder (views : List String) : List String := views.mergeSort fun a b => decide (a ≤ b)

/-- The views to which no path was found. -/
def unreached (views : List String) (found : List (Option (List String))) : List String :=
  (((inOrder views).zip found).filter (·.2.isNone)).map (·.1)

theorem length_unreached (views : List String) (found : List (Option (List String))) :
    (unreached views found).length ≤ views.length := by
  have := List.length_filter_le (·.2.isNone) ((inOrder views).zip found)
  simp only [unreached, inOrder, List.length_map, List.length_zip, List.length_mergeSort] at this ⊢
  omega

/-- Adds paths to missing views from the views that are there, as long as that helps; `before` is
the number that was missing a round ago. -/
def addMissing (g : JoinGraph) (missing : List String) (pairs : List Pair) (before : Nat) :
    Result (Option (List Pair)) :=
  match (inOrder missing).mapM fun v => g.bestPath ((anchors pairs).map (·, v)) with
  | .error e => .error e
  | .ok found =>
    if (unreached missing found).isEmpty then
      .ok (some (pairs ++ (found.filterMap id).flatMap Digraph.steps))
    else if (unreached missing found).length = before then .ok none
    else
      addMissing g (unreached missing found) (pairs ++ (found.filterMap id).flatMap Digraph.steps)
        missing.length
  -- a round that helps leaves fewer views, and after one that does not the number is theirs
  termination_by (missing.length, if before = missing.length then 0 else 1)
  decreasing_by
    rcases Nat.lt_or_eq_of_le (length_unreached missing found) with hless | heq
    · exact Prod.Lex.left _ _ hless
    · rw [heq, if_pos rfl, if_neg (by omega)]
      exact Prod.Lex.right _ (by omega)

def grow (g : JoinGraph) (views : List String) (pair : Pair) : Result (Option (List Pair)) := do
  let missing := views.filter fun v => v != pair.1 && v != pair.2
  if missing.isEmpty then return some [pair]
  else g.addMissing missing [pair] missing.length

/-- The pairs from which a plan may grow, the most promising first: those with a bridge, then those
between the views themselves, then by name. -/
def startingPairs (g : JoinGraph) (views : List String) : List Pair :=
  let bridges := (g.bridges.filter fun (key, _) => views.any key.contains).map (·.2)
  let touching := g.graph.edges.filter fun (u, v) => views.contains u || views.contains v
  let rank (e : Pair) : Nat :=
    (if bridges.contains e.1 || bridges.contains e.2 then 0 else 2)
      + (if views.contains e.1 && views.contains e.2 then 0 else 1)
  touching.mergeSort fun a b =>
    decide (rank a < rank b) || (rank a == rank b &&
      (decide (a.1 < b.1) || (a.1 == b.1 && decide (a.2 ≤ b.2))))

def firstPlan (g : JoinGraph) (views : List String) : List Pair → Result (List Pair)
  | [] => .error (.noJoinPath (views.mergeSort fun a b => decide (a ≤ b)))
  | pair :: rest => do
    match ← g.grow views pair with
    | some plan => return plan
    | none => firstPlan g views rest

def plan (g : JoinGraph) (views : List String) : Result (List Pair) := do
  if views.length = 1 then return []
  match g.orderedPlan? views with
  | some pairs => return pairs
  | none =>
    match views with
    | [u, v] =>
      match ← g.bestPath [(u, v), (v, u)] with
      | some path => return Digraph.steps path
      | none => g.firstPlan views (g.startingPairs views)
    | _ => g.firstPlan views (g.startingPairs views)

end SemanticLayer.JoinGraph
