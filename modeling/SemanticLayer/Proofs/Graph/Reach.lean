import SemanticLayer.Graph.Component
import SemanticLayer.Proofs.Graph.Route

/-!
# What can be reached

A node reaches another by a chain of arcs (`Reaches`); these are the nodes that are found step by
step (`mem_reach`).  A component holds the nodes that reach each other
(`reaches_of_mem_components`), and every node is in one (`exists_mem_components`).  Two graphs with
the same arcs have the same components up to the order of their nodes (`component_perm`).
-/

namespace SemanticLayer.Digraph

open List

variable {ν α : Type} [DecidableEq ν] {g g' : Digraph ν α} {u v w : ν}

variable {c found : List ν} {n : Nat}

/-- Arcs lead from one node to another. -/
def Reaches (g : Digraph ν α) : ν → ν → Prop :=
  Relation.ReflTransGen fun u v => g.hasArc u v = true

theorem Reaches.refl (g : Digraph ν α) (u : ν) : g.Reaches u u := Relation.ReflTransGen.refl

theorem Reaches.trans (h : g.Reaches u v) (h' : g.Reaches v w) : g.Reaches u w :=
  Relation.ReflTransGen.trans h h'

theorem Reaches.of_hasArc (h : g.hasArc u v = true) : g.Reaches u v :=
  Relation.ReflTransGen.single h

theorem Reaches.exists_hasArc (h : g.Reaches u v) (hne : u ≠ v) : ∃ w, g.hasArc u w = true := by
  rcases Relation.ReflTransGen.cases_head h with heq | ⟨w, hw, -⟩
  · exact absurd heq hne
  · exact ⟨w, hw⟩

/-- The ends of all arcs are nodes. -/
def IsClosed (g : Digraph ν α) : Prop := ∀ a ∈ g.arcs, a.source ∈ g.nodes ∧ a.target ∈ g.nodes

theorem IsClosed.mem_of_hasArc (hg : g.IsClosed) (h : g.hasArc u v = true) :
    u ∈ g.nodes ∧ v ∈ g.nodes := by
  obtain ⟨a, ha, rfl, rfl⟩ := hasArc_iff.mp h
  exact hg a ha

theorem IsClosed.mem_of_reaches (hg : g.IsClosed) (hu : u ∈ g.nodes) (h : g.Reaches u v) :
    v ∈ g.nodes := by
  induction h with
  | refl => exact hu
  | tail _ harc _ => exact (hg.mem_of_hasArc harc).2

/-! ### Routes -/

variable {weight : α → Nat}

theorem Route.reaches {p : List ν} (h : Route (g.neighbours weight true) v u p n) :
    g.Reaches u v := by
  induction h with
  | done => exact Reaches.refl g v
  | step hnx _ ih =>
    obtain ⟨a, ha, -, hends⟩ := mem_neighbours.mp hnx
    exact (Reaches.of_hasArc (hasArc_iff.mpr ⟨a, ha, by simpa using hends⟩)).trans ih

theorem Reaches.exists_route (weight : α → Nat) (h : g.Reaches u v) :
    ∃ p n, Route (g.neighbours weight true) v u p n := by
  induction h using Relation.ReflTransGen.head_induction_on with
  | refl => exact ⟨_, _, Route.done⟩
  | head harc _ ih =>
    obtain ⟨p, n, hrt⟩ := ih
    obtain ⟨a, ha, hends⟩ := hasArc_iff.mp harc
    exact ⟨_, _, Route.step (mem_neighbours.mpr ⟨a, ha, rfl, by simpa using hends⟩) hrt⟩

theorem Route.hasArc_of_mem_steps {p : List ν} (h : Route (g.neighbours weight true) v u p n) :
    ∀ e ∈ steps p, g.hasArc e.1 e.2 = true := by
  induction h with
  | done => simp [steps]
  | step hnx hr ih =>
    obtain ⟨q, rfl⟩ := hr.head_eq
    obtain ⟨a, ha, -, hends⟩ := mem_neighbours.mp hnx
    intro e he
    rcases mem_cons.mp he with rfl | he
    · exact hasArc_iff.mpr ⟨a, ha, by simpa using hends⟩
    · exact ih e he

/-! ### Step by step -/

theorem mem_foldl_expand (arcs : List (Arc ν α)) (acc : List ν) :
    v ∈ arcs.foldl (fun acc a =>
        if a.source ∈ found ∧ a.target ∉ acc then acc ++ [a.target] else acc) acc ↔
      v ∈ acc ∨ ∃ a ∈ arcs, a.source ∈ found ∧ a.target = v := by
  induction arcs generalizing acc with
  | nil => simp
  | cons a arcs ih =>
    rw [foldl_cons, ih]
    split_ifs with h
    · simp only [mem_append, mem_cons, not_mem_nil, or_false, exists_eq_or_imp, h.1,
        true_and, or_assoc, eq_comm (a := v) (b := a.target)]
    · rw [not_and_not_right] at h
      simp only [mem_cons, exists_eq_or_imp]
      constructor
      · exact Or.imp_right Or.inr
      · rintro (hv | ⟨hsrc, rfl⟩ | harc)
        · exact Or.inl hv
        · exact Or.inl (h hsrc)
        · exact Or.inr harc

theorem mem_expand : v ∈ g.expand found ↔ v ∈ found ∨ ∃ u ∈ found, g.hasArc u v = true := by
  rw [expand, mem_foldl_expand]
  refine or_congr_right ⟨?_, ?_⟩
  · rintro ⟨a, ha, hsrc, rfl⟩
    exact ⟨a.source, hsrc, hasArc_iff.mpr ⟨a, ha, rfl, rfl⟩⟩
  · rintro ⟨u, hu, harc⟩
    obtain ⟨a, ha, rfl, rfl⟩ := hasArc_iff.mp harc
    exact ⟨a, ha, hu, rfl⟩

theorem exists_reaches_of_mem_expandTimes (h : v ∈ g.expandTimes n found) :
    ∃ u ∈ found, g.Reaches u v := by
  induction n generalizing found with
  | zero => exact ⟨v, h, Reaches.refl g v⟩
  | succ n ih =>
    obtain ⟨w, hw, hrch⟩ := ih h
    rcases mem_expand.mp hw with hw | ⟨u, hu, harc⟩
    · exact ⟨w, hw, hrch⟩
    · exact ⟨u, hu, (Reaches.of_hasArc harc).trans hrch⟩

theorem mem_expandTimes_of_mem (h : v ∈ found) : v ∈ g.expandTimes n found := by
  induction n generalizing found with
  | zero => exact h
  | succ n ih => exact ih (mem_expand.mpr (Or.inl h))

theorem Reaches.mem_of_expand_subset (hstable : ∀ x ∈ g.expand found, x ∈ found) (h : g.Reaches u v)
    (hu : u ∈ found) : v ∈ found := by
  induction h with
  | refl => exact hu
  | tail _ harc ih => exact hstable _ (mem_expand.mpr (Or.inr ⟨_, ih, harc⟩))

section

variable (hg : g.IsClosed)
include hg

theorem length_missing_expand {x : ν} (hx : x ∈ g.expand found) (hnew : x ∉ found) :
    (g.nodes.filter (· ∉ g.expand found)).length < (g.nodes.filter (· ∉ found)).length := by
  obtain ⟨w, -, harc⟩ := (mem_expand.mp hx).resolve_left hnew
  have heq : g.nodes.filter (· ∉ g.expand found)
      = (g.nodes.filter (· ∉ found)).filter (· ∉ g.expand found) := by
    rw [filter_filter]
    refine filter_congr fun y _ => ?_
    have hkp : y ∈ found → y ∈ g.expand found := fun hy => mem_expand.mpr (Or.inl hy)
    by_cases hy : y ∈ found <;> simp [hy, hkp]
  rw [heq, length_filter_lt_length_iff_exists]
  refine ⟨x, mem_filter.mpr ⟨(hg.mem_of_hasArc harc).2, by simpa using hnew⟩, ?_⟩
  simpa using hx

/-- As many steps as there are nodes to be found are enough: each one before the last finds a node.
-/
theorem Reaches.mem_expandTimes (h : g.Reaches u v)
    (hn : (g.nodes.filter (· ∉ found)).length ≤ n) (hu : u ∈ found) :
    v ∈ g.expandTimes n found := by
  induction n generalizing found with
  | zero =>
    have hstable : ∀ x ∈ g.expand found, x ∈ found := by
      intro x hx
      by_contra hnew
      have := length_missing_expand hg hx hnew
      omega
    exact h.mem_of_expand_subset hstable hu
  | succ n ih =>
    by_cases hstable : ∀ x ∈ g.expand found, x ∈ found
    · exact mem_expandTimes_of_mem (h.mem_of_expand_subset hstable hu)
    · simp only [not_forall] at hstable
      obtain ⟨x, hx, hnew⟩ := hstable
      have := length_missing_expand hg hx hnew
      exact ih (by omega) (mem_expand.mpr (Or.inl hu))

theorem mem_reach {start : List ν} : v ∈ g.reach start ↔ ∃ u ∈ start, g.Reaches u v := by
  refine ⟨exists_reaches_of_mem_expandTimes, ?_⟩
  rintro ⟨u, hu, h⟩
  exact h.mem_expandTimes hg (length_filter_le _ _) hu

/-! ### Components -/

theorem mem_component : u ∈ g.component v ↔ g.Reaches v u ∧ g.Reaches u v := by
  simp [component, mem_reach hg]

theorem self_mem_component (v : ν) : v ∈ g.component v :=
  (mem_component hg).mpr ⟨Reaches.refl g v, Reaches.refl g v⟩

omit hg in
theorem mem_foldl_components (nodes : List ν) (acc : List (List ν)) (h : c ∈ nodes.foldl
      (fun acc v => if acc.any (v ∈ ·) then acc else acc ++ [g.component v]) acc) :
    c ∈ acc ∨ ∃ v ∈ nodes, c = g.component v := by
  induction nodes generalizing acc with
  | nil => exact Or.inl h
  | cons v nodes ih =>
    rcases ih _ h with hmem | ⟨u, hu, rfl⟩
    · dsimp only at hmem
      split_ifs at hmem
      · exact Or.inl hmem
      · rcases mem_append.mp hmem with hmem | hmem
        · exact Or.inl hmem
        · exact Or.inr ⟨v, mem_cons_self .., mem_singleton.mp hmem⟩
    · exact Or.inr ⟨u, mem_cons_of_mem _ hu, rfl⟩

theorem exists_mem_foldl_components (nodes : List ν) (acc : List (List ν))
    (h : (∃ c ∈ acc, v ∈ c) ∨ v ∈ nodes) :
    ∃ c ∈ nodes.foldl
      (fun acc v => if acc.any (v ∈ ·) then acc else acc ++ [g.component v]) acc, v ∈ c := by
  induction nodes generalizing acc with
  | nil => simpa using h
  | cons u nodes ih =>
    rw [foldl_cons]
    apply ih
    rcases h with ⟨c, hc, hv⟩ | h
    · left
      split_ifs
      · exact ⟨c, hc, hv⟩
      · exact ⟨c, mem_append_left _ hc, hv⟩
    · rcases mem_cons.mp h with rfl | h
      · left
        split_ifs with hany
        · simpa using hany
        · exact ⟨g.component v, by simp, self_mem_component hg v⟩
      · exact Or.inr h

theorem exists_mem_components (hv : v ∈ g.nodes) : ∃ c ∈ g.components, v ∈ c :=
  exists_mem_foldl_components hg g.nodes [] (Or.inr hv)

omit hg in
theorem exists_of_mem_components (hc : c ∈ g.components) : ∃ v ∈ g.nodes, c = g.component v :=
  (mem_foldl_components g.nodes [] hc).resolve_left (by simp)

theorem reaches_of_mem_components (hc : c ∈ g.components) (hu : u ∈ c) (hv : v ∈ c) :
    g.Reaches u v := by
  obtain ⟨w, -, rfl⟩ := exists_of_mem_components hc
  exact ((mem_component hg).mp hu).2.trans ((mem_component hg).mp hv).1

theorem mem_nodes_of_mem_components (hc : c ∈ g.components) (hv : v ∈ c) : v ∈ g.nodes := by
  obtain ⟨w, hw, rfl⟩ := exists_of_mem_components hc
  exact hg.mem_of_reaches hw ((mem_component hg).mp hv).1

end

/-! ### Alike graphs -/

/-- Two graphs have the same nodes and the same arcs, whatever their order and data. -/
structure Alike (g g' : Digraph ν α) : Prop where
  nodes : ∀ v, v ∈ g.nodes ↔ v ∈ g'.nodes
  arcs : ∀ u v, g.hasArc u v = g'.hasArc u v

theorem Alike.refl (g : Digraph ν α) : g.Alike g := ⟨fun _ => Iff.rfl, fun _ _ => rfl⟩

theorem Alike.reaches_iff (h : g.Alike g') : g.Reaches u v ↔ g'.Reaches u v := by
  unfold Reaches
  simp only [h.arcs]

theorem nodup_expand (h : found.Nodup) : (g.expand found).Nodup := by
  unfold expand
  refine List.foldlRecOn (motive := List.Nodup) g.arcs _ h fun acc hacc a _ => ?_
  split_ifs with ha
  · exact nodup_append.mpr ⟨hacc, nodup_singleton _, fun x hx y hy => by
      rw [mem_singleton.mp hy]
      rintro rfl
      exact ha.2 hx⟩
  · exact hacc

theorem nodup_expandTimes (h : found.Nodup) :
    (g.expandTimes n found).Nodup := by
  induction n generalizing found with
  | zero => exact h
  | succ n ih => exact ih (nodup_expand h)

theorem nodup_component (g : Digraph ν α) (v : ν) : (g.component v).Nodup :=
  (nodup_expandTimes (nodup_singleton v)).filter _

theorem component_perm (hg : g.IsClosed) (hg' : g'.IsClosed) (h : g.Alike g')
    (huv : u ∈ g.component v) : (g.component v).Perm (g'.component u) := by
  refine (perm_ext_iff_of_nodup (nodup_component g v) (nodup_component g' u)).mpr fun w => ?_
  obtain ⟨hvu, huv⟩ := (mem_component hg).mp huv
  rw [mem_component hg, mem_component hg', ← h.reaches_iff, ← h.reaches_iff]
  exact ⟨fun hw => ⟨huv.trans hw.1, hw.2.trans hvu⟩, fun hw => ⟨hvu.trans hw.1, hw.2.trans huv⟩⟩

theorem nodup_map_components (hg : g.IsClosed) {f : List ν → List ν}
    (hf : ∀ c v, v ∈ f c ↔ v ∈ c) : (g.components.map f).Nodup := by
  unfold components
  refine List.foldlRecOn (motive := fun acc : List (List ν) => (acc.map f).Nodup) g.nodes _ nodup_nil
    fun acc hacc v _ => ?_
  split_ifs with hany
  · exact hacc
  · rw [map_append, nodup_append]
    refine ⟨hacc, nodup_singleton _, fun x hx y hy hxy => hany ?_⟩
    obtain ⟨c, hc, rfl⟩ := mem_map.mp hx
    rw [map_singleton, mem_singleton] at hy
    refine any_eq_true.mpr ⟨c, hc, decide_eq_true ((hf c v).mp ?_)⟩
    rw [hxy, hy, hf]
    exact self_mem_component hg v

end SemanticLayer.Digraph
