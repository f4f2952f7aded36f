import SemanticLayer.Graph.Line
import SemanticLayer.Proofs.Graph.Reach

/-!
# Nodes of line graphs and of topological orders

The nodes of a line graph are arcs (`hasArc_of_mem_line`), and a topological order lists nodes of
its graph only (`mem_of_topological?`).
-/

namespace SemanticLayer.Digraph

open List

variable {ν α : Type} [DecidableEq ν] {g : Digraph ν α} {u v w : ν}

variable {e : ν × ν} {nodes : List ν}

/-! ### Arcs -/

theorem mem_successors : v ∈ g.successors u ↔ g.hasArc u v = true := by
  rw [hasArc_iff]
  simp [successors, out, and_assoc]

theorem hasArc_of_mem_edges (h : e ∈ g.edges) : g.hasArc e.1 e.2 = true := by
  obtain ⟨u, -, he⟩ := mem_flatMap.mp h
  obtain ⟨v, hv, rfl⟩ := mem_map.mp he
  exact mem_successors.mp hv

theorem mem_edges (hg : g.IsClosed) : e ∈ g.edges ↔ g.hasArc e.1 e.2 = true := by
  refine ⟨hasArc_of_mem_edges, fun h => ?_⟩
  exact mem_flatMap.mpr ⟨e.1, (hg.mem_of_hasArc h).1, mem_map.mpr ⟨e.2, mem_successors.mpr h, rfl⟩⟩

theorem hasArc_restrict {keep : List ν} (h : (g.restrict keep).hasArc u v = true) :
    g.hasArc u v = true ∧ u ∈ keep ∧ v ∈ keep := by
  obtain ⟨a, ha, rfl, rfl⟩ := hasArc_iff.mp h
  obtain ⟨harc, hkp⟩ := mem_filter.mp ha
  exact ⟨hasArc_iff.mpr ⟨a, harc, rfl, rfl⟩, by simpa using hkp⟩

/-! ### Adding nodes and arcs -/

@[simp] theorem addNode_arcs (g : Digraph ν α) (v : ν) : (g.addNode v).arcs = g.arcs := by
  unfold addNode
  split_ifs <;> rfl

theorem mem_addNode : w ∈ (g.addNode v).nodes ↔ w = v ∨ w ∈ g.nodes := by
  unfold addNode
  split_ifs with h
  · exact ⟨Or.inr, fun hw => hw.elim (fun heq => heq ▸ h) id⟩
  · simp [or_comm]

theorem mem_nodes_addArc {update : α → α → α} {data : α} :
    w ∈ (g.addArc update u v data).nodes ↔ w = v ∨ w = u ∨ w ∈ g.nodes := by
  have hnod : (g.addArc update u v data).nodes = ((g.addNode u).addNode v).nodes := by
    unfold addArc
    dsimp only
    split_ifs <;> rfl
  rw [hnod, mem_addNode, mem_addNode]

/-! ### Line graphs -/

theorem hasArc_of_mem_lineStep {l : Digraph (ν × ν) Unit}
    (hl : ∀ x ∈ l.nodes, g.hasArc x.1 x.2 = true) (he : g.hasArc e.1 e.2 = true) :
    ∀ x ∈ (g.lineStep l e).nodes, g.hasArc x.1 x.2 = true := by
  have hst : ∀ x ∈ (l.addNode e).nodes, g.hasArc x.1 x.2 = true := by
    intro x hx
    rcases mem_addNode.mp hx with rfl | hx
    · exact he
    · exact hl x hx
  refine List.foldlRecOn (motive := fun l : Digraph (ν × ν) Unit =>
    ∀ x ∈ l.nodes, g.hasArc x.1 x.2 = true) _ _ hst fun l hl v hv x hx => ?_
  rcases mem_nodes_addArc.mp hx with rfl | rfl | hx
  · exact mem_successors.mp hv
  · exact he
  · exact hl x hx

theorem hasArc_of_mem_line (h : e ∈ g.line.nodes) : g.hasArc e.1 e.2 = true := by
  refine List.foldlRecOn (motive := fun l : Digraph (ν × ν) Unit =>
    ∀ x ∈ l.nodes, g.hasArc x.1 x.2 = true) g.edges g.lineStep (by simp [empty]) ?_ e h
  intro l hl e he
  exact hasArc_of_mem_lineStep hl (hasArc_of_mem_edges he)

/-! ### Topological orders -/

def Among (nodes : List ν) (state : Pending ν × List ν) : Prop :=
  (∀ e ∈ state.1, e.1 ∈ nodes) ∧ ∀ v ∈ state.2, v ∈ nodes

theorem Among.release {state : Pending ν × List ν} (h : Among nodes state) (v : ν) :
    Among nodes (release state v) := by
  obtain ⟨pending, ready⟩ := state
  unfold Digraph.release
  dsimp only
  cases hfi : pending.find? (·.1 = v) with
  | none => exact h
  | some e =>
    have hv : v ∈ nodes := by
      have heq : e.1 = v := by simpa using List.find?_some hfi
      exact heq ▸ h.1 e (List.mem_of_find?_eq_some hfi)
    dsimp only
    split_ifs
    · refine ⟨fun x hx => h.1 x (mem_of_mem_filter hx), fun x hx => ?_⟩
      rcases mem_append.mp hx with hx | hx
      · exact h.2 x hx
      · exact mem_singleton.mp hx ▸ hv
    · refine ⟨fun x hx => ?_, h.2⟩
      obtain ⟨y, hy, rfl⟩ := mem_map.mp hx
      split_ifs <;> exact h.1 y hy

theorem Among.generations {fuel : Nat} {pending : Pending ν} {ready : List ν}
    (h : Among nodes (pending, ready)) : ∀ v ∈ (g.generations fuel pending ready).1, v ∈ nodes := by
  induction fuel generalizing pending ready with
  | zero => simp [Digraph.generations]
  | succ fuel ih =>
    intro v hv
    rw [Digraph.generations] at hv
    split_ifs at hv
    · simp at hv
    · have hnx : Among nodes
          ((ready.flatMap g.successors).foldl Digraph.release (pending, [])) :=
        List.foldlRecOn _ _ ⟨h.1, by simp⟩ fun s hs v _ => hs.release v
      rcases mem_append.mp hv with hv | hv
      · exact h.2 v hv
      · exact ih hnx v hv

theorem mem_of_topological? {order : List ν} (h : g.topological? = some order) (hv : v ∈ order) :
    v ∈ g.nodes := by
  unfold topological? at h
  dsimp only at h
  split_ifs at h
  cases h
  have hdegrees : ∀ e ∈ g.nodes.map fun v => (v, (g.into v).length), e.1 ∈ g.nodes := by
    intro e he
    obtain ⟨u, hu, rfl⟩ := mem_map.mp he
    exact hu
  have hready : ∀ u ∈ ((g.nodes.map fun v => (v, (g.into v).length)).filter (·.2 = 0)).map (·.1),
      u ∈ g.nodes := by
    intro u hu
    obtain ⟨e, he, rfl⟩ := mem_map.mp hu
    exact hdegrees e (mem_of_mem_filter he)
  exact Among.generations ⟨fun e he => hdegrees e (mem_of_mem_filter he), hready⟩ v hv

end SemanticLayer.Digraph
