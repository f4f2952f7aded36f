import SemanticLayer.Graph.Digraph

/-!
# Shortest paths

A path of least weight is searched from both ends in turn.  Each side settles the nearest node it
has seen, of equally near ones the one seen first.  The best meeting of both sides is the path once
a node is settled on both.
-/

namespace SemanticLayer

namespace Digraph

variable {ν α : Type} [DecidableEq ν]

structure Side (ν : Type) where
  fringe : List (Nat × Nat × ν)
  settled : List (ν × Nat)
  seen : List (ν × Nat)
  trails : List (ν × List ν)

namespace Side

def start (number : Nat) (v : ν) : Side ν := ⟨[(0, number, v)], [], [(v, 0)], [(v, [v])]⟩

def distance? (table : List (ν × Nat)) (v : ν) : Option Nat := (table.find? (·.1 = v)).map (·.2)

def trail (s : Side ν) (v : ν) : List ν := ((s.trails.find? (·.1 = v)).map (·.2)).getD []

def nearest? (s : Side ν) : Option (Nat × Nat × ν) :=
  s.fringe.foldl (fun best e =>
    match best with
    | none => some e
    | some b => if e.1 < b.1 ∨ (e.1 = b.1 ∧ e.2.1 < b.2.1) then some e else some b) none

/-- A node is seen at a smaller distance than before. -/
def see (s : Side ν) (v w : ν) (distance number : Nat) : Side ν :=
  { s with
    seen := (w, distance) :: s.seen,
    fringe := s.fringe ++ [(distance, number, w)],
    trails := (w, w :: s.trail v) :: s.trails }

end Side

/-- The search: the side whose turn it is, the other side, and the best meeting so far. -/
structure Search (ν : Type) where
  isForward : Bool
  here : Side ν
  there : Side ν
  count : Nat
  best : Option (Nat × List ν)

namespace Search

/-- The path through `w`, where both sides have seen it. -/
def meeting (s : Search ν) (w : ν) : Option (Nat × List ν) := do
  let near ← Side.distance? s.here.seen w
  let far ← Side.distance? s.there.seen w
  let (front, back) := if s.isForward then (s.here, s.there) else (s.there, s.here)
  return (near + far, (front.trail w).reverse ++ (back.trail w).drop 1)

/-- Goes along one arc from the node that was settled. -/
def relax (v : ν) (distance : Nat) (s : Search ν) (step : ν × Nat) : Search ν :=
  let (w, weight) := step
  let reached := distance + weight
  let isNearer := match Side.distance? s.here.settled w, Side.distance? s.here.seen w with
    | some _, _ => false
    | none, some d => decide (reached < d)
    | none, none => true
  if isNearer then
    let s := { s with here := s.here.see v w reached s.count, count := s.count + 1 }
    match s.meeting w, s.best with
    | some (d, path), some (least, _) => if d < least then { s with best := some (d, path) } else s
    | some found, none => { s with best := some found }
    | none, _ => s
  else s

def turn (s : Search ν) : Search ν :=
  { s with isForward := !s.isForward, here := s.there, there := s.here }

end Search

def neighbours (weight : α → Nat) (g : Digraph ν α) (isForward : Bool) (v : ν) : List (ν × Nat) :=
  if isForward then (g.out v).map fun a => (a.target, weight a.data)
  else (g.into v).map fun a => (a.source, weight a.data)

/-- Settles nodes until one is settled on both sides or a side has nothing left. -/
def search (weight : α → Nat) (g : Digraph ν α) : Nat → Search ν → Option (List ν)
  | 0, _ => none
  | fuel + 1, s =>
    if s.here.fringe.isEmpty || s.there.fringe.isEmpty then none
    else
      match s.here.nearest? with
      | none => none
      | some (distance, number, v) =>
        let here := { s.here with fringe := s.here.fringe.filter (·.2.1 ≠ number) }
        if (Side.distance? here.settled v).isSome then
          search weight g fuel { s with here := here }.turn
        else
          let here := { here with settled := (v, distance) :: here.settled }
          if (Side.distance? s.there.settled v).isSome then s.best.map (·.2)
          else
            let s := { s with here := here }
            search weight g fuel
              ((g.neighbours weight s.isForward v).foldl (Search.relax v distance) s).turn

/-- A path of least weight from `u` to `v`, both of which are nodes. -/
def shortestPath? (weight : α → Nat) (g : Digraph ν α) (u v : ν) : Option (List ν) :=
  if u = v then some [u]
  else g.search weight (2 * g.arcs.length + 3)
    { isForward := true, here := Side.start 0 u, there := Side.start 1 v, count := 2, best := none }

def steps : List ν → List (ν × ν)
  | u :: v :: rest => (u, v) :: steps (v :: rest)
  | _ => []

def pathWeight (weight : α → Nat) (g : Digraph ν α) (path : List ν) : Nat :=
  (steps path).foldl (fun n (u, v) => n + ((g.arc? u v).map fun a => weight a.data).getD 0) 0

end Digraph

end SemanticLayer
