import SemanticLayer.Graph.Digraph

/-!
# Lines and generations

The line graph of a graph has the arcs as nodes; an arc leads to those that start where it ends.
An acyclic graph falls into generations: first the nodes without predecessors, then those whose
last predecessor stood in the generation before.
-/

namespace SemanticLayer.Digraph

variable {ν α : Type} [DecidableEq ν]

/-- One arc of the graph with its followers added to the line graph. -/
def lineStep (g : Digraph ν α) (l : Digraph (ν × ν) Unit) (e : ν × ν) : Digraph (ν × ν) Unit :=
  (g.successors e.2).foldl (fun l v => l.addArc (fun _ d => d) e (e.2, v) ()) (l.addNode e)

def line (g : Digraph ν α) : Digraph (ν × ν) Unit := g.edges.foldl g.lineStep empty

/-- Nodes with the number of predecessors that are still to come. -/
abbrev Pending (ν : Type) := List (ν × Nat)

/-- Takes one predecessor from `v`; at the last one `v` is ready. -/
def release (state : Pending ν × List ν) (v : ν) : Pending ν × List ν :=
  let (pending, ready) := state
  match pending.find? (·.1 = v) with
  | some (_, n) =>
    if n ≤ 1 then (pending.filter (·.1 ≠ v), ready ++ [v])
    else (pending.map fun (w, k) => if w = v then (w, k - 1) else (w, k), ready)
  | none => (pending, ready)

/-- Generation after generation; nodes that stay pending lie on or behind a cycle. -/
def generations (g : Digraph ν α) : Nat → Pending ν → List ν → List ν × Pending ν
  | 0, pending, _ => ([], pending)
  | fuel + 1, pending, ready =>
    if ready.isEmpty then ([], pending)
    else
      let (pending, next) := (ready.flatMap g.successors).foldl release (pending, [])
      let (later, rest) := generations g fuel pending next
      (ready ++ later, rest)

/-- The nodes in topological order; none if there is a cycle. -/
def topological? (g : Digraph ν α) : Option (List ν) :=
  let degrees := g.nodes.map fun v => (v, (g.into v).length)
  let ready := (degrees.filter (·.2 = 0)).map (·.1)
  let (order, rest) := g.generations (g.nodes.length + 1) (degrees.filter (·.2 ≠ 0)) ready
  if rest.isEmpty then some order else none

end SemanticLayer.Digraph
