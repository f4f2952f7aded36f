import SemanticLayer.Proofs.Join.Feasible

/-!
# The components that views can be joined from

The components that a view can be joined from are those of the views that reach it
(`mem_joinableFrom_iff`).  Views with such a component in common have a plan only if a view that
reaches all of them is one of them or has an arc to one (`plan_isOk_iff_near`).
-/

namespace SemanticLayer.JoinGraph

open List

variable {name u v : String} {views vs : List View}

variable {g : JoinGraph}

theorem componentName_inj {i j : Nat} (h : componentName i = componentName j) : i = j := by
  have hdig := congrArg String.toList h
  simp only [componentName, String.toList_append, append_cancel_left_eq, Nat.toString_eq_repr,
    Nat.toList_repr] at hdig
  rw [← Nat.ofDigitChars_toDigits (b := 10) (n := i) (by decide) (by decide), hdig,
    Nat.ofDigitChars_toDigits (by decide) (by decide)]

theorem exists_mem_sortedComponents {graph : Digraph String Definition} {c : List String}
    (h : c ∈ sortedComponents graph) : ∃ c' ∈ graph.components, ∀ v, v ∈ c ↔ v ∈ c' := by
  rw [sortedComponents, mem_mergeSort] at h
  obtain ⟨c', hc', rfl⟩ := mem_map.mp h
  exact ⟨c', hc', fun v => mem_mergeSort⟩

theorem build_components (h : build views = .ok g) :
    g.components = sortedComponents g.graph ∧ g.reached = g.components.map g.graph.reach := by
  unfold build at h
  obtain ⟨names, -, h⟩ := Result.of_bind h
  obtain ⟨bridges, -, h⟩ := Result.of_bind h
  obtain ⟨table, -, h⟩ := Result.of_bind h
  obtain ⟨⟨g0, seen⟩, -, h⟩ := Result.of_bind h
  cases h
  exact ⟨rfl, rfl⟩

theorem componentName_mem_joinableFrom {i : Nat} :
    componentName i ∈ g.joinableFrom v ↔ ∃ vs, g.reached[i]? = some vs ∧ v ∈ vs := by
  simp only [joinableFrom, mem_map, mem_filter, Prod.exists, contains_iff_mem]
  constructor
  · rintro ⟨vs, j, ⟨hmem, hv⟩, heq⟩
    rw [← componentName_inj heq]
    exact ⟨vs, mem_zipIdx_iff_getElem?.mp hmem, hv⟩
  · rintro ⟨vs, hi, hv⟩
    exact ⟨vs, i, ⟨mem_zipIdx_iff_getElem?.mpr hi, hv⟩, rfl⟩

theorem componentOf_eq_ok (h : g.componentOf u = .ok name) :
    ∃ i c, name = componentName i ∧ g.components[i]? = some c ∧ u ∈ c := by
  unfold componentOf at h
  split at h
  · next i hi =>
    cases h
    obtain ⟨hlt, hmem, -⟩ := List.findIdx?_eq_some_iff_getElem.mp hi
    exact ⟨i, g.components[i], rfl, List.getElem?_eq_getElem hlt, by simpa using hmem⟩
  · cases h

theorem mem_joinableFrom_iff (hbd : build views = .ok g) (hu : g.componentOf u = .ok name) :
    name ∈ g.joinableFrom v ↔ g.graph.Reaches u v := by
  obtain ⟨hcom, hrd⟩ := build_components hbd
  have hg := (build_isWhole hbd).closed
  obtain ⟨i, c, rfl, hc, hmem⟩ := componentOf_eq_ok hu
  have hi : g.reached[i]? = some (g.graph.reach c) := by
    rw [hrd, List.getElem?_map, hc]
    rfl
  rw [componentName_mem_joinableFrom, hi]
  simp only [Option.some.injEq, exists_eq_left', Digraph.mem_reach hg]
  refine ⟨?_, fun h => ⟨u, hmem, h⟩⟩
  rintro ⟨w, hw, h⟩
  -- the views of a component reach each other
  obtain ⟨c', hc', hsm⟩ :=
    exists_mem_sortedComponents (hcom ▸ mem_of_getElem? hc)
  exact (Digraph.reaches_of_mem_components hg hc' ((hsm u).mp hmem) ((hsm w).mp hw)).trans h

theorem exists_componentOf (hbd : build views = .ok g)
    (hu : u ∈ g.graph.nodes) : ∃ name, g.componentOf u = .ok name := by
  obtain ⟨c, hc, hmem⟩ := Digraph.exists_mem_components (build_isWhole hbd).closed hu
  have hsrt : ∃ c ∈ g.components, u ∈ c := by
    rw [(build_components hbd).1]
    exact ⟨_, mem_mergeSort.mpr (mem_map_of_mem hc), mem_mergeSort.mpr hmem⟩
  unfold componentOf
  split
  · exact ⟨_, rfl⟩
  · next hno =>
    obtain ⟨c', hc', hmem'⟩ := hsrt
    have := List.findIdx?_eq_none_iff.mp hno c' hc'
    simp [hmem'] at this

theorem mem_nodes_of_componentOf (hbd : build views = .ok g)
    (h : g.componentOf u = .ok name) : u ∈ g.graph.nodes := by
  obtain ⟨i, c, -, hc, hmem⟩ := componentOf_eq_ok h
  obtain ⟨c', hc', hsm⟩ := exists_mem_sortedComponents
    ((build_components hbd).1 ▸ mem_of_getElem? hc)
  exact Digraph.mem_nodes_of_mem_components (build_isWhole hbd).closed hc' ((hsm u).mp hmem)

def IsShared (g : JoinGraph) (views : List String) (name : String) : Prop :=
  ∀ v ∈ views, name ∈ g.joinableFrom v

/-- The component of a name holds one of the views, or a view with an arc to one of them. -/
def IsNear (g : JoinGraph) (views : List String) (name : String) : Prop :=
  ∃ u, g.componentOf u = .ok name ∧ (u ∈ views ∨ ∃ v ∈ views, g.graph.hasArc u v = true)

theorem isFeasible_iff_near (hbd : build vs = .ok g) {views : List String}
    (hmany : 1 < views.length)
    (hnd : views.Nodup) :
    g.IsFeasible views ↔ ∃ name, g.IsShared views name ∧ g.IsNear views name := by
  constructor
  · rintro ⟨e, harc, htouch, hrch⟩
    have hnode := ((build_isWhole hbd).closed.mem_of_hasArc harc).1
    obtain ⟨name, hn⟩ := exists_componentOf hbd hnode
    refine ⟨name, fun v hv => (mem_joinableFrom_iff hbd hn).mpr (hrch v hv), e.1, hn, ?_⟩
    exact htouch.imp_right fun hmem => ⟨e.2, hmem, harc⟩
  · rintro ⟨name, hsh, u, hn, hnear⟩
    have hrch : ∀ v ∈ views, g.graph.Reaches u v :=
      fun v hv => (mem_joinableFrom_iff hbd hn).mp (hsh v hv)
    rcases hnear with hu | ⟨v, hv, harc⟩
    · -- one of the views reaches another one, so it has an arc
      obtain ⟨v, hv, hne⟩ : ∃ v ∈ views, u ≠ v := by
        match views, hmany, hnd with
        | a :: b :: _, _, hnd =>
          have hab : a ≠ b := by
            intro heq
            simp [heq] at hnd
          by_cases hua : u = a
          · exact ⟨b, by simp, hua ▸ hab⟩
          · exact ⟨a, by simp, hua⟩
      obtain ⟨w, harc⟩ := (hrch v hv).exists_hasArc hne
      exact ⟨(u, w), harc, Or.inl hu, hrch⟩
    · exact ⟨(u, v), harc, Or.inr hv, hrch⟩

theorem plan_isOk_iff_near (hbd : build vs = .ok g) {views : List String} (hmany : 1 < views.length)
    (hnd : views.Nodup) :
    (∃ pairs, g.plan views = .ok pairs) ↔ ∃ name, g.IsShared views name ∧ g.IsNear views name := by
  have hg := (build_isWhole hbd).closed
  constructor
  · rintro ⟨pairs, hpn⟩
    obtain ⟨root, hspans⟩ := plan_spans hmany hpn hnd
    exact (isFeasible_iff_near hbd hmany hnd).mp hspans.isFeasible
  · intro h
    have hfeasible := (isFeasible_iff_near hbd hmany hnd).mpr h
    -- a component reaches views of the graph only
    have hnod : ∀ v ∈ views, v ∈ g.graph.nodes := by
      obtain ⟨name, hsh, u, hn, -⟩ := h
      intro v hv
      exact hg.mem_of_reaches (mem_nodes_of_componentOf hbd hn)
        ((mem_joinableFrom_iff hbd hn).mp (hsh v hv))
    exact (plan_isOk_iff hg hmany hnd hnod).mpr hfeasible

end SemanticLayer.JoinGraph
