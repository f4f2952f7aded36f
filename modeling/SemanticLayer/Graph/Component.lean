import SemanticLayer.Graph.Digraph

/-!
# Components

What can be reached from some nodes, and the strongly connected components: nodes that reach each
other.
-/

namespace SemanticLayer.Digraph

variable {ν α : Type} [DecidableEq ν]

def expand (g : Digraph ν α) (found : List ν) : List ν :=
  g.arcs.foldl (fun acc a =>
    if a.source ∈ found ∧ a.target ∉ acc then acc ++ [a.target] else acc) found

def expandTimes (g : Digraph ν α) : Nat → List ν → List ν
  | 0, found => found
  | n + 1, found => expandTimes g n (g.expand found)

/-- All nodes that can be reached from the given ones, those included. -/
def reach (g : Digraph ν α) (start : List ν) : List ν := g.expandTimes g.nodes.length start

def component (g : Digraph ν α) (v : ν) : List ν :=
  (g.reach [v]).filter fun u => v ∈ g.reach [u]

def components (g : Digraph ν α) : List (List ν) :=
  g.nodes.foldl (fun acc v => if acc.any (v ∈ ·) then acc else acc ++ [g.component v]) []

end SemanticLayer.Digraph
