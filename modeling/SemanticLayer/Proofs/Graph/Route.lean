import Mathlib
import SemanticLayer.Graph.ShortestPath

/-!
# Routes in weighted graphs

A route is a list of nodes, each a neighbour of the one before, with the sum of the weights on the
way.  Neighbours are given by a function, so that arcs can be followed forward and backward, and a
route can be turned round (`Route.turned`).
-/

namespace SemanticLayer.Digraph

open List

variable {ν α : Type}

/-- `Route next stop u p n`: the list `p` leads from `u` to `stop` along neighbours, with weight
`n`. -/
inductive Route (next : ν → List (ν × Nat)) (stop : ν) : ν → List ν → Nat → Prop
  | done : Route next stop stop [stop] 0
  | step {u v : ν} {k n : Nat} {p : List ν} :
      (v, k) ∈ next u → Route next stop v p n → Route next stop u (u :: p) (k + n)

namespace Route

variable {next back : ν → List (ν × Nat)} {u v w stop : ν} {p q : List ν} {m n k : Nat}

theorem head_eq (h : Route next stop u p n) : ∃ q, p = u :: q := by
  cases h with
  | done => exact ⟨[], rfl⟩
  | step _ _ => exact ⟨_, rfl⟩

theorem snoc (h : Route next stop u p n) (hw : (w, k) ∈ next stop) :
    Route next w u (p ++ [w]) (n + k) := by
  induction h with
  | done => simpa using Route.step hw Route.done
  | @step u v k' n' p' hv _ ih =>
    rw [Nat.add_assoc]
    exact Route.step hv ih

/-- **A route turned round**, where `back` has the neighbours of `next` the other way. -/
theorem turned (hb : ∀ a b k, (b, k) ∈ next a → (a, k) ∈ back b) (h : Route next stop u p n) :
    Route back u stop p.reverse n := by
  induction h with
  | done => exact Route.done
  | @step u v k n p hv _ ih =>
    rw [reverse_cons, Nat.add_comm]
    exact ih.snoc (hb u v k hv)

/-- A route to `w` turned round and a route on from `w` make one route. -/
theorem join (hb : ∀ a b k, (b, k) ∈ back a → (a, k) ∈ next b)
    (h : Route back u w p m) (h' : Route next stop w q n) :
    Route next stop u (p.reverse ++ q.drop 1) (m + n) := by
  induction h generalizing q n with
  | done =>
    obtain ⟨r, rfl⟩ := h'.head_eq
    simpa using h'
  | @step w v k m p hv _ ih =>
    obtain ⟨r, rfl⟩ := h'.head_eq
    have := ih (Route.step (hb w v k hv) h')
    rw [show k + m + n = m + (k + n) by omega]
    simpa using this

/-- A route cut at one of its nodes: what follows is a route, and lighter unless the cut is at the
start. -/
theorem suffix (hpos : ∀ a b k, (b, k) ∈ next a → 0 < k) (h : Route next stop u p n) {l r : List ν}
    (hp : p = l ++ w :: r) : ∃ m, Route next stop w (w :: r) m ∧ m ≤ n ∧ (l ≠ [] → m < n) := by
  induction h generalizing l with
  | done =>
    cases l with
    | nil =>
      obtain ⟨rfl, rfl⟩ := hp
      exact ⟨0, Route.done, Nat.le_refl _, fun h => absurd rfl h⟩
    | cons a l => simp at hp
  | @step u v k n p hv h' ih =>
    cases l with
    | nil =>
      obtain ⟨rfl, rfl⟩ := hp
      exact ⟨k + n, Route.step hv h', Nat.le_refl _, fun h => absurd rfl h⟩
    | cons a l =>
      simp only [cons_append, List.cons.injEq] at hp
      obtain ⟨m, hm, hle, -⟩ := ih hp.2
      have := hpos u v k hv
      exact ⟨m, hm, by omega, fun _ => by omega⟩

theorem stop_mem (h : Route next stop u p n) : stop ∈ p := by
  induction h with
  | done => simp
  | step _ _ ih => exact mem_cons_of_mem _ ih

end Route

/-! ### Routes along arcs -/

theorem foldl_add (f : ν × ν → Nat) (l : List (ν × ν)) (n : Nat) :
    l.foldl (fun n e => n + f e) n = n + l.foldl (fun n e => n + f e) 0 := by
  induction l generalizing n with
  | nil => simp
  | cons e l ih =>
    simp only [foldl_cons]
    rw [ih (n + f e), ih (0 + f e)]
    omega

variable [DecidableEq ν] {weight : α → Nat} {g : Digraph ν α}

theorem hasArc_iff {u v : ν} : g.hasArc u v = true ↔ ∃ a ∈ g.arcs, a.source = u ∧ a.target = v := by
  unfold hasArc arc?
  simp

theorem mem_neighbours {isForward : Bool} {v w : ν} {k : Nat} :
    (w, k) ∈ g.neighbours weight isForward v ↔ ∃ a ∈ g.arcs, weight a.data = k ∧
        (if isForward then a.source = v ∧ a.target = w else a.source = w ∧ a.target = v) := by
  cases isForward
  · simp only [neighbours, into, Bool.false_eq_true, if_false, mem_map, mem_filter,
      decide_eq_true_eq, Prod.mk.injEq]
    constructor
    · rintro ⟨a, ⟨ha, ht⟩, hs, hk⟩; exact ⟨a, ha, hk, hs, ht⟩
    · rintro ⟨a, ha, hk, hs, ht⟩; exact ⟨a, ⟨ha, ht⟩, hs, hk⟩
  · simp only [neighbours, out, if_true, mem_map, mem_filter, decide_eq_true_eq, Prod.mk.injEq]
    constructor
    · rintro ⟨a, ⟨ha, hs⟩, ht, hk⟩; exact ⟨a, ha, hk, hs, ht⟩
    · rintro ⟨a, ha, hk, hs, ht⟩; exact ⟨a, ⟨ha, hs⟩, ht, hk⟩

theorem neighbours_turned (isForward : Bool) (a b : ν) (k : Nat)
    (h : (b, k) ∈ g.neighbours weight isForward a) :
    (a, k) ∈ g.neighbours weight (!isForward) b := by
  rw [mem_neighbours] at h ⊢
  cases isForward <;> simpa using h

/-- Between two nodes there is at most one arc. -/
def IsSimple (g : Digraph ν α) : Prop :=
  g.arcs.Pairwise fun a b => ¬ (a.source = b.source ∧ a.target = b.target)

def IsPositive (weight : α → Nat) (g : Digraph ν α) : Prop := ∀ a ∈ g.arcs, 0 < weight a.data

theorem IsPositive.neighbours (h : g.IsPositive weight) (isForward : Bool) (a b : ν) (k : Nat)
    (hk : (b, k) ∈ g.neighbours weight isForward a) : 0 < k := by
  obtain ⟨arc, harc, rfl, -⟩ := mem_neighbours.mp hk
  exact h arc harc

theorem find?_eq_of_pairwise (arcs : List (Arc ν α))
    (h : arcs.Pairwise fun a b => ¬ (a.source = b.source ∧ a.target = b.target)) {a : Arc ν α}
    (ha : a ∈ arcs) : arcs.find? (fun b => b.source = a.source ∧ b.target = a.target) = some a := by
  induction arcs with
  | nil => simp at ha
  | cons b arcs ih =>
    rw [pairwise_cons] at h
    rcases mem_cons.mp ha with rfl | ha
    · simp
    · have hne := h.1 a ha
      rw [List.find?_cons_of_neg (by simpa using hne)]
      exact ih h.2 ha

theorem IsSimple.arc?_eq (h : g.IsSimple) {a : Arc ν α} (ha : a ∈ g.arcs) :
    g.arc? a.source a.target = some a := find?_eq_of_pairwise g.arcs h ha

theorem pathWeight_cons (u v : ν) (rest : List ν) : g.pathWeight weight (u :: v :: rest)
      = ((g.arc? u v).map fun a => weight a.data).getD 0 + g.pathWeight weight (v :: rest) := by
  simp only [pathWeight, steps, foldl_cons]
  rw [foldl_add (fun e => ((g.arc? e.1 e.2).map fun a => weight a.data).getD 0)]
  omega

theorem Route.pathWeight_eq (hs : g.IsSimple) {stop u : ν} {p : List ν} {n : Nat}
    (h : Route (g.neighbours weight true) stop u p n) : g.pathWeight weight p = n := by
  induction h with
  | done => rfl
  | @step u v k n p hv h' ih =>
    obtain ⟨q, rfl⟩ := h'.head_eq
    obtain ⟨a, ha, hk, hsrc, htgt⟩ := mem_neighbours.mp hv
    have harc := hs.arc?_eq ha
    rw [hsrc, htgt] at harc
    rw [pathWeight_cons, harc, ih]
    simp [hk]

end SemanticLayer.Digraph
