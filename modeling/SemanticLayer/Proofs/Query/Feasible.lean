import SemanticLayer.Proofs.Join.Joinable
import SemanticLayer.Proofs.Query.Joins

/-!
# When a design can be joined

A design of several views is joined exactly if some arc that touches the views leads from a view
that reaches all of them.  The only other way to fail is a join whose condition is said in more than
one way.  A plan is found only if there is a component that all views can be joined from, but that has
to be near the views as well (`Design.finds_plan_iff_near`).
-/

namespace SemanticLayer

open SemanticLayer.Action JoinGraph

variable {g : JoinGraph} {views : List String}

theorem JoinGraph.Spans.isPlan (hg : JoinGraph.IsSound g.graph) (hloop : g.IsLoopless)
    {root : String}
    {pairs : List JoinGraph.Pair} (hmany : 1 < views.length) (hpn : g.plan views = .ok pairs)
    (h : g.Spans views root pairs) :
    g.IsPlan views root (JoinGraph.firstTo [] pairs) := by
  obtain ⟨e, hhead, rfl⟩ := Option.map_eq_some_iff.mp h.head
  have hne := hloop.ne_of_hasArc _ _ (h.arcs e (List.mem_of_mem_head? hhead))
  exact (h.grown (plan_avoids hmany hpn hg hhead hne)).isPlan h.arcs h.covers

namespace Design

theorem joins_apply {d : Design} {w w' : Workspace} (hg : Action.joinGraph w = (.ok g, w'))
    (hvs : d.requiredViews w.project = .ok views) :
    d.joins w = (g.plan views >>= g.joins, w') := by
  unfold joins
  rw [bind_of_eq_ok (project_eq_ok.mpr ⟨rfl, rfl⟩),
    bind_of_eq_ok (lift_eq_ok.mpr ⟨hvs, rfl⟩), bind_of_eq_ok hg]
  cases hpn : g.plan views with
  | error e => rfl
  | ok pairs =>
    exact lift_apply _ _

/-- **A design of several views has no join path exactly if its views are not feasible.**  Otherwise
its joins lead along arcs from one view to all others; they are returned unless one of them says its
condition in several ways. -/
theorem joins_feasible_iff {d : Design} {w w' : Workspace} {g : JoinGraph} {views : List String}
    (hg : Action.joinGraph w = (.ok g, w')) (hviews : d.requiredViews w.project = .ok views)
    (hmany : 1 < views.length) (hnodes : ∀ v ∈ views, v ∈ g.graph.nodes) :
    ((∃ e, d.joins w = (.error e, w') ∧ e.kind = .join) ↔ ¬ g.IsFeasible views) ∧
    (g.IsFeasible views → ∃ root pairs, g.Spans views root pairs ∧
      (g.IsLoopless → g.IsPlan views root (JoinGraph.firstTo [] pairs)) ∧
      ((∃ js, d.joins w = (.ok js, w') ∧
          List.Forall₂ JoinGraph.Leads js (JoinGraph.firstTo [] pairs)) ∨
        ∃ e ∈ pairs, g.IsAmbiguous e ∧
          d.joins w = (.error (.joinWithManyConditions (.text e.1)), w'))) := by
  have hnodup := requiredViews_nodup hviews
  obtain ⟨⟨vs, hbuild⟩, -⟩ := joinGraph_eq_ok hg
  have hwhole := build_isWhole hbuild
  rw [joins_apply hg hviews]
  by_cases hfeasible : g.IsFeasible views
  · obtain ⟨root, pairs, hplan, hspans⟩ :=
      hfeasible.exists_plan hwhole.closed hmany hnodup hnodes
    rw [hplan]
    change ((∃ e, (g.joins pairs, w') = (.error e, w') ∧ e.kind = .join) ↔ _) ∧ (_ → _)
    have hplanned : g.IsLoopless → g.IsPlan views root (JoinGraph.firstTo [] pairs) := fun hloop =>
      hspans.isPlan (build_isSound hbuild) hloop hmany hplan
    rcases joins_cases hwhole hspans.arcs with ⟨e, he, hambiguous, herror⟩ | ⟨-, js, hjs⟩
    · rw [herror]
      refine ⟨⟨?_, fun hnot => absurd hfeasible hnot⟩, fun _ => ?_⟩
      · rintro ⟨e', he', hkind⟩
        cases he'
        cases hkind
      · exact ⟨root, pairs, hspans, hplanned, Or.inr ⟨e, he, hambiguous, herror ▸ rfl⟩⟩
    · rw [hjs]
      refine ⟨⟨?_, fun hnot => absurd hfeasible hnot⟩, fun _ => ?_⟩
      · rintro ⟨e', he', -⟩
        cases he'
      · exact ⟨root, pairs, hspans, hplanned,
          Or.inl ⟨js, hjs ▸ rfl, (JoinGraph.joins_eq_ok hjs).2⟩⟩
  · rw [plan_eq_error hwhole.closed hmany hnodup hnodes hfeasible]
    exact ⟨⟨fun _ => hfeasible, fun _ => ⟨_, rfl, rfl⟩⟩, fun h => absurd h hfeasible⟩

theorem joins_feasible_iff_tickets :
    ((∃ e, Tickets.design.joins Tickets.workspace = (.error e, Tickets.built) ∧ e.kind = .join) ↔
      ¬ Tickets.graph.IsFeasible ["sales", "tickets"]) :=
  (joins_feasible_iff Tickets.joinGraph_workspace Tickets.requiredViews_design (by decide)
    (by decide)).1

end Design

/-! ### Orders and customers

The customer of an order is said twice, by a text and by an expression. -/

namespace TwoWays

def ofOrder : Definition :=
  Tickets.reference .manyToOne "customers" "orders.customer=customers.id"
    ++ [("sql", .text "customer")]

def project : Store :=
  { (default : Store) with
    views := [Tickets.entry "orders" [ofOrder], Tickets.entry "customers" []],
    shelves := [⟨[Tickets.key], .null⟩] }

def workspace : Workspace := { project := project }

def design : Design where
  warehouse := .snowflake
  model := none
  fields := [Tickets.field "orders" "id", Tickets.field "customers" "region"]

def graph : JoinGraph :=
  .ofGraph ⟨["orders", "customers"], [⟨"orders", "customers",
    ofOrder ++ [("weight", .int Relationship.manyToOne.weight)]⟩]⟩ []

theorem exists_build : ∃ views, workspace.project.listViews none = .ok views ∧
    JoinGraph.build views = .ok graph := by
  refine ⟨_, by cbv, ?_⟩
  -- the components are not looked at
  unfold JoinGraph.build graph
  generalize JoinGraph.ofGraph = make
  cbv

def built : Workspace :=
  { workspace with joinGraph := some ⟨graph, exists_build.imp fun _ h => h.2⟩ }

theorem joinGraph_workspace : Action.joinGraph workspace = (.ok graph, built) := by
  obtain ⟨views, hvs, hbd⟩ := exists_build
  exact joinGraph_of_build rfl hvs hbd

theorem requiredViews_design :
    design.requiredViews workspace.project = .ok ["orders", "customers"] := by cbv

theorem plan_graph : graph.plan ["orders", "customers"] = .ok [("orders", "customers")] := by
  unfold graph JoinGraph.ofGraph
  generalize JoinGraph.sortedComponents = components
  cbv

theorem isAmbiguous_graph : graph.IsAmbiguous ("orders", "customers") :=
  ⟨_, rfl, Or.inr (Or.inl (by decide))⟩

theorem joins_graph : graph.joins [("orders", "customers")]
    = .error (.joinWithManyConditions (.text "orders")) := by
  obtain ⟨views, -, hbd⟩ := exists_build
  have harcs : ∀ e ∈ [("orders", "customers")], graph.graph.hasArc e.1 e.2 = true := by
    simp
    rfl
  rcases joins_cases (build_isWhole hbd) harcs with
    ⟨e, he, -, herr⟩ | ⟨hno, -⟩
  · rwa [List.mem_singleton.mp he] at herr
  · exact absurd isAmbiguous_graph (hno _ (List.mem_singleton.mpr rfl))

theorem isFeasible_graph : graph.IsFeasible ["orders", "customers"] := by
  refine ⟨("orders", "customers"), rfl, by simp, fun v hv => ?_⟩
  simp only [List.mem_cons, List.not_mem_nil, or_false] at hv
  rcases hv with rfl | rfl
  · exact Digraph.Reaches.refl _ _
  · exact Digraph.Reaches.of_hasArc rfl

end TwoWays

namespace Design

/-- Orders reach their customers by an arc, and are not joined with them. -/
theorem orders_joined_in_two_ways : TwoWays.graph.IsFeasible ["orders", "customers"] ∧
    TwoWays.design.joins TwoWays.workspace
      = (.error (.joinWithManyConditions (.text "orders")), TwoWays.built) := by
  refine ⟨TwoWays.isFeasible_graph, ?_⟩
  rw [joins_apply TwoWays.joinGraph_workspace TwoWays.requiredViews_design, TwoWays.plan_graph]
  exact congrArg (·, TwoWays.built) TwoWays.joins_graph

/-- **A plan is found for the views of a design exactly if they can be joined from one component that
holds one of them or a view with an arc to one of them.** -/
theorem finds_plan_iff_near {d : Design} {w w' : Workspace} {g : JoinGraph} {views : List String}
    (hg : Action.joinGraph w = (.ok g, w')) (hviews : d.requiredViews w.project = .ok views)
    (hmany : 1 < views.length) :
    (∃ pairs, g.plan views = .ok pairs ∧ d.joins w = (g.joins pairs, w')) ↔
      ∃ name, g.IsShared views name ∧ g.IsNear views name := by
  obtain ⟨⟨vs, hbuild⟩, -⟩ := Action.joinGraph_eq_ok hg
  rw [← JoinGraph.plan_isOk_iff_near hbuild hmany (requiredViews_nodup hviews)]
  refine exists_congr fun pairs => ⟨And.left, fun hplan => ⟨hplan, ?_⟩⟩
  rw [joins_apply hg hviews, hplan]
  rfl

theorem finds_plan_iff_near_tickets :
    (∃ pairs, Tickets.graph.plan ["sales", "tickets"] = .ok pairs ∧
        Tickets.design.joins Tickets.workspace = (Tickets.graph.joins pairs, Tickets.built)) ↔
      ∃ name, Tickets.graph.IsShared ["sales", "tickets"] name ∧
        Tickets.graph.IsNear ["sales", "tickets"] name :=
  finds_plan_iff_near Tickets.joinGraph_workspace Tickets.requiredViews_design (by decide)

end Design

/-! ### Regions and suppliers

A sale has a customer in a region and a product of a supplier.  Regions and suppliers can be joined
from the sales, but no arc between the sales and one of them is there to grow a plan from. -/

namespace FarApart

def manyToOne (view other : String) : Definition :=
  Tickets.reference .manyToOne other (view ++ "." ++ other ++ "=" ++ other ++ ".id")

def project : Store :=
  { (default : Store) with
    views := [Tickets.entry "sales" [manyToOne "sales" "customers", manyToOne "sales" "products"],
      Tickets.entry "customers" [manyToOne "customers" "regions"], Tickets.entry "regions" [],
      Tickets.entry "products" [manyToOne "products" "suppliers"], Tickets.entry "suppliers" []],
    shelves := [⟨[Tickets.key], .null⟩] }

def workspace : Workspace := { project := project }

def design : Design where
  warehouse := .snowflake
  model := none
  fields := [Tickets.field "regions" "name", Tickets.field "suppliers" "name"]

def arc (u v : String) : Arc String Definition := Tickets.arc .manyToOne u v (manyToOne u v)

def graph : JoinGraph :=
  .ofGraph ⟨["sales", "customers", "products", "regions", "suppliers"],
    [arc "sales" "customers", arc "sales" "products", arc "customers" "regions",
      arc "products" "suppliers"]⟩ []

theorem exists_build : ∃ views, workspace.project.listViews none = .ok views ∧
    JoinGraph.build views = .ok graph := by
  refine ⟨_, by cbv, ?_⟩
  -- the components are not looked at
  unfold build graph
  generalize ofGraph = make
  cbv

def built : Workspace :=
  { workspace with joinGraph := some ⟨graph, exists_build.imp fun _ h => h.2⟩ }

theorem joinGraph_workspace : Action.joinGraph workspace = (.ok graph, built) := by
  obtain ⟨views, hvs, hbd⟩ := exists_build
  exact Action.joinGraph_of_build rfl hvs hbd

theorem requiredViews_design :
    design.requiredViews workspace.project = .ok ["regions", "suppliers"] := by cbv

theorem plan_graph : graph.plan ["regions", "suppliers"]
    = .error (.noJoinPath ["regions", "suppliers"]) := by
  unfold graph ofGraph
  generalize sortedComponents = components
  cbv

theorem reaches_sales : graph.graph.Reaches "sales" "regions" ∧
    graph.graph.Reaches "sales" "suppliers" :=
  ⟨(Digraph.Reaches.of_hasArc (v := "customers") rfl).trans (Digraph.Reaches.of_hasArc rfl),
    (Digraph.Reaches.of_hasArc (v := "products") rfl).trans (Digraph.Reaches.of_hasArc rfl)⟩

theorem exists_isShared : ∃ name, graph.IsShared ["regions", "suppliers"] name := by
  obtain ⟨views, -, hbd⟩ := exists_build
  have hsales : "sales" ∈ graph.graph.nodes := by simp [graph, ofGraph]
  obtain ⟨name, hn⟩ := exists_componentOf hbd hsales
  refine ⟨name, fun v hv => (mem_joinableFrom_iff hbd hn).mpr ?_⟩
  simp only [List.mem_cons, List.not_mem_nil, or_false] at hv
  rcases hv with rfl | rfl
  · exact reaches_sales.1
  · exact reaches_sales.2

end FarApart

namespace Design

/-- Regions and suppliers can be joined from one component, and have no join path. -/
theorem regions_and_suppliers_far_apart :
    (∃ name, ∀ v ∈ ["regions", "suppliers"], name ∈ FarApart.graph.joinableFrom v) ∧
    FarApart.design.joins FarApart.workspace
      = (.error (.noJoinPath ["regions", "suppliers"]), FarApart.built) := by
  refine ⟨FarApart.exists_isShared, ?_⟩
  rw [joins_apply FarApart.joinGraph_workspace FarApart.requiredViews_design, FarApart.plan_graph]
  rfl

end Design

end SemanticLayer
