/-!
# Directed graphs

A graph keeps its nodes and its arcs in the order in which they were added.  Between two nodes
there is at most one arc; adding it again changes its data and keeps its place.
-/

namespace SemanticLayer

structure Arc (ν α : Type) where
  source : ν
  target : ν
  data : α
  deriving Repr, Inhabited

structure Digraph (ν α : Type) where
  nodes : List ν
  arcs : List (Arc ν α)
  deriving Repr, Inhabited

namespace Digraph

variable {ν α : Type} [DecidableEq ν]

def empty : Digraph ν α := ⟨[], []⟩

def addNode (g : Digraph ν α) (v : ν) : Digraph ν α :=
  if v ∈ g.nodes then g else { g with nodes := g.nodes ++ [v] }

def arc? (g : Digraph ν α) (u v : ν) : Option (Arc ν α) :=
  g.arcs.find? fun a => a.source = u ∧ a.target = v

def hasArc (g : Digraph ν α) (u v : ν) : Bool := (g.arc? u v).isSome

/-- Adds an arc and its ends; `update` joins old data with new. -/
def addArc (update : α → α → α) (g : Digraph ν α) (u v : ν) (data : α) : Digraph ν α :=
  let g := (g.addNode u).addNode v
  if g.hasArc u v then
    { g with arcs := g.arcs.map fun a =>
        if a.source = u ∧ a.target = v then { a with data := update a.data data } else a }
  else { g with arcs := g.arcs ++ [⟨u, v, data⟩] }

def out (g : Digraph ν α) (u : ν) : List (Arc ν α) := g.arcs.filter fun a => a.source = u

def into (g : Digraph ν α) (v : ν) : List (Arc ν α) := g.arcs.filter fun a => a.target = v

def successors (g : Digraph ν α) (u : ν) : List ν := (g.out u).map (·.target)

def edges (g : Digraph ν α) : List (ν × ν) :=
  g.nodes.flatMap fun u => (g.successors u).map fun v => (u, v)

def restrict (g : Digraph ν α) (keep : List ν) : Digraph ν α :=
  { nodes := g.nodes.filter (· ∈ keep),
    arcs := g.arcs.filter fun a => a.source ∈ keep ∧ a.target ∈ keep }

end Digraph

end SemanticLayer
