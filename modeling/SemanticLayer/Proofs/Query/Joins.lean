import SemanticLayer.Proofs.Join.Plan
import SemanticLayer.Query.Design

/-!
# The joins of a design

A design needs views, and its joins put them together: they are a plan (`IsPlan`) in the join graph
of the project, rooted at the view that the design starts from.
-/

namespace SemanticLayer

open SemanticLayer.Action List JoinGraph

variable {d : Design} {g : JoinGraph} {js : List Join} {pairs : List Pair} {views : List String}
  {w w' : Workspace} {p : Project} {root : String}

/-- No arc leads back to the view it starts at. -/
def JoinGraph.IsLoopless (g : JoinGraph) : Prop := ∀ a ∈ g.graph.arcs, a.source ≠ a.target

theorem JoinGraph.IsLoopless.ne_of_hasArc (h : g.IsLoopless) (u v : String)
    (harc : g.graph.hasArc u v = true) : u ≠ v := by
  obtain ⟨a, ha, rfl, rfl⟩ := Digraph.hasArc_iff.mp harc
  exact h a ha

/-! ### The kept graph -/

theorem JoinGraph.Built.ofViews_eq_ok {views : List View}
    (h : JoinGraph.build views = .ok g) : Built.ofViews views = .ok ⟨g, views, h⟩ := by
  unfold Built.ofViews
  split
  · next g' hg' =>
    cases hg'.symm.trans h
    rfl
  · next e he => cases he.symm.trans h

theorem Action.joinGraph_eq_ok (h : Action.joinGraph w = (.ok g, w')) :
    ∃ hblt, w' = { w with joinGraph := some ⟨g, hblt⟩ } := by
  unfold Action.joinGraph at h
  obtain ⟨w0, w1, hget, h⟩ := of_bind h
  cases hget
  cases hkp : w.joinGraph with
  | some kept =>
    rw [hkp] at h
    obtain ⟨rfl, rfl⟩ := pure_eq_ok.mp h
    refine ⟨kept.2, ?_⟩
    rw [← hkp]
  | none =>
    rw [hkp] at h
    obtain ⟨views, -, h⟩ := of_lift_bind h
    obtain ⟨g', -, h⟩ := of_lift_bind h
    obtain ⟨_, w4, hset, h⟩ := of_bind h
    cases hset
    obtain ⟨rfl, rfl⟩ := pure_eq_ok.mp h
    exact ⟨g'.2, rfl⟩

theorem Action.joinGraph_of_build {views : List View}
    (hno : w.joinGraph = none) (hvs : w.project.listViews none = .ok views)
    (hg : JoinGraph.build views = .ok g) :
    Action.joinGraph w = (.ok g, { w with joinGraph := some ⟨g, views, hg⟩ }) := by
  unfold Action.joinGraph
  refine bind_eq_ok.mpr ⟨w, w, rfl, ?_⟩
  rw [hno]
  refine bind_eq_ok.mpr ⟨_, w, lift_eq_ok.mpr ⟨hvs, rfl⟩, ?_⟩
  refine bind_eq_ok.mpr ⟨_, w, lift_eq_ok.mpr
    ⟨JoinGraph.Built.ofViews_eq_ok hg, rfl⟩, ?_⟩
  exact bind_eq_ok.mpr ⟨(), _, rfl, rfl⟩

/-! ### Plans -/

namespace JoinGraph

/-- **A join plan** for views, rooted at one view: pairs of views along arcs of the graph, each
from the root or from the target of an earlier pair to a view that was not there before, until all
views are. -/
structure IsPlan (g : JoinGraph) (views : List String) (root : String) (pairs : List Pair) :
    Prop extends IsTree root pairs where
  arcs : ∀ e ∈ pairs, g.graph.hasArc e.1 e.2 = true
  covers : ∀ v ∈ views, v = root ∨ v ∈ targets pairs
  alone : pairs = [] → views = [root]

theorem mem_of_mem_firstTo {joined : List String} {e : Pair}
    (h : e ∈ firstTo joined pairs) : e ∈ pairs := by
  induction pairs generalizing joined with
  | nil => exact h
  | cons a rest ih =>
    rw [firstTo] at h
    split_ifs at h
    · exact mem_cons_of_mem _ (ih h)
    · rcases mem_cons.mp h with rfl | h
      · exact mem_cons_self ..
      · exact mem_cons_of_mem _ (ih h)

theorem Grown.isPlan (h : Grown root pairs) (harcs : ∀ e ∈ pairs, g.graph.hasArc e.1 e.2 = true)
    (hcovers : ∀ v ∈ views, v = root ∨ v ∈ targets pairs) :
    IsPlan g views root (firstTo [] pairs) where
  arcs e he := harcs e (mem_of_mem_firstTo he)
  linked := h.linked.firstTo (by simp)
  distinct := by
    rw [nodup_cons, mem_targets_firstTo]
    exact ⟨fun hmem => h.avoids hmem.1, nodup_targets_firstTo [] pairs⟩
  covers v hv := by
    rw [mem_targets_firstTo]
    simpa using hcovers v hv
  alone hnil := by
    have hhead := h.head
    cases pairs with
    | nil => simp at hhead
    | cons e rest => simp [firstTo] at hnil

theorem joins_plan_isPlan (hg : IsSound g.graph) (hsome : views ≠ []) (hnd : views.Nodup)
    (hpn : g.plan views = .ok pairs) (hjs : g.joins pairs = .ok js)
    (hself : ∀ e ∈ firstTo [] pairs, e.1 ≠ e.2) :
    ∃ root, g.IsPlan views root (firstTo [] pairs) := by
  obtain ⟨harcs, -⟩ := joins_eq_ok hjs
  obtain ⟨v, rest, rfl⟩ := exists_cons_of_ne_nil hsome
  cases rest with
  | nil =>
    cases hpn
    exact ⟨v, ⟨trivial, by simp [firstTo]⟩, by simp [firstTo], by simp, by simp⟩
  | cons v' rest =>
    have hfst : ∀ e ∈ pairs.head?, e.1 ≠ e.2 := by
      cases pairs with
      | nil => simp
      | cons e pairs =>
        intro e' he'
        cases he'
        exact hself e (by simp [firstTo])
    obtain ⟨root, hgrown, hcovers⟩ := plan_grown (by simp) hpn hg hnd hfst
    exact ⟨root, hgrown.isPlan harcs hcovers⟩

end JoinGraph

/-! ### Designs -/

namespace Design

theorem requiredViews_nodup (h : d.requiredViews p = .ok views) : views.Nodup := by
  unfold requiredViews at h
  obtain ⟨⟨_, access⟩, -, h⟩ := Result.of_bind h
  unfold viewsOf at h
  obtain ⟨found, -, h⟩ := Result.of_bind h
  cases h
  exact nodup_eraseDups _

theorem joins_eq_ok :
    d.joins w = (.ok js, w') ↔
      ∃ views g pairs, d.requiredViews w.project = .ok views ∧ Action.joinGraph w = (.ok g, w') ∧
        g.plan views = .ok pairs ∧ g.joins pairs = .ok js := by
  unfold joins
  constructor
  · intro h
    replace h := of_project_bind h
    obtain ⟨views, hvs, h⟩ := of_lift_bind h
    obtain ⟨g, w3, hg, h⟩ := of_bind h
    obtain ⟨pairs, hprs, h⟩ := of_lift_bind h
    obtain ⟨hjs, rfl⟩ := lift_eq_ok.mp h
    exact ⟨views, g, pairs, hvs, hg, hprs, hjs⟩
  · rintro ⟨views, g, pairs, hvs, hg, hprs, hjs⟩
    refine bind_eq_ok.mpr ⟨_, w, project_eq_ok.mpr ⟨rfl, rfl⟩, ?_⟩
    refine bind_eq_ok.mpr ⟨_, w, lift_eq_ok.mpr ⟨hvs, rfl⟩, ?_⟩
    refine bind_eq_ok.mpr ⟨_, w', hg, ?_⟩
    refine bind_eq_ok.mpr ⟨_, w', lift_eq_ok.mpr ⟨hprs, rfl⟩, ?_⟩
    exact lift_eq_ok.mpr ⟨hjs, rfl⟩

theorem joins_follow_plan (hg : Action.joinGraph w = (.ok g, w'))
    (hvs : d.requiredViews w.project = .ok views) (hsome : views ≠ [])
    (hjoins : d.joins w = (.ok js, w')) :
    ∃ pairs, List.Forall₂ JoinGraph.Leads js pairs ∧ (∀ e ∈ pairs, g.graph.hasArc e.1 e.2 = true) ∧
      ((∀ e ∈ pairs, e.1 ≠ e.2) → ∃ root, g.IsPlan views root pairs) := by
  obtain ⟨views', g', pairs, hvs', hg', hpn, hjs⟩ := joins_eq_ok.mp hjoins
  rw [hvs] at hvs'
  rw [hg] at hg'
  cases hvs'
  cases hg'
  obtain ⟨⟨vs, hbd⟩, -⟩ := joinGraph_eq_ok hg
  obtain ⟨harcs, hleads⟩ := JoinGraph.joins_eq_ok hjs
  exact ⟨_, hleads, fun e he => harcs e (JoinGraph.mem_of_mem_firstTo he),
    joins_plan_isPlan (build_isSound hbd) hsome
      (requiredViews_nodup hvs) hpn hjs⟩

theorem baseOf_isPlan {pairs : List JoinGraph.Pair} (hvs : d.requiredViews p = .ok views)
    (hpn : g.IsPlan views root pairs) (hleads : List.Forall₂ JoinGraph.Leads js pairs) :
    d.baseOf p js = .ok root := by
  cases hleads with
  | nil =>
    rw [hpn.alone rfl] at hvs
    simp [baseOf, hvs, bind, Except.bind, pure, Except.pure]
  | @cons j e js pairs hj _ =>
    have hroot : e.1 = root := by simpa using hpn.linked.1
    simp [baseOf, hj.1, hroot, Value.plain]

/-- **The joins of a design are a plan rooted at the view the design starts from**, whichever way
the plan was found. -/
theorem joins_isPlan {d : Design} {w w' : Workspace} {g : JoinGraph} {views : List String}
    {js : List Join} (hg : Action.joinGraph w = (.ok g, w'))
    (hloop : g.IsLoopless) (hviews : d.requiredViews w.project = .ok views) (hsome : views ≠ [])
    (hjoins : d.joins w = (.ok js, w')) :
    ∃ root pairs, d.baseOf w.project js = .ok root ∧
      List.Forall₂ JoinGraph.Leads js pairs ∧ g.IsPlan views root pairs := by
  obtain ⟨pairs, hleads, harcs, hpairs⟩ := joins_follow_plan hg hviews hsome hjoins
  obtain ⟨root, hplan⟩ := hpairs fun e he => hloop.ne_of_hasArc _ _ (harcs e he)
  exact ⟨root, pairs, baseOf_isPlan hviews hplan hleads, hleads, hplan⟩

end Design

/-! ### Sales and tickets

Sales have customers, a customer is one account, and an account has many tickets.  A design of sales
and tickets joins them by way of the customers and accounts, which it does not ask for. -/

namespace Tickets

def reference (r : Relationship) (other condition : String) : Definition :=
  [("name", .text other), ("type", .text "join"), ("reference", .text other),
    ("relationship", .text r.name), ("sql_on", .text condition)]

def ofSale : Definition := reference .manyToOne "customers" "sales.customer=customers.id"

def ofCustomer : Definition := reference .oneToOne "accounts" "customers.id=accounts.id"

def ofAccount : Definition := reference .oneToMany "tickets" "accounts.id=tickets.account"

def entry (name : String) (identifiers : List Definition) : ViewEntry where
  definition := [("name", .text name), ("identifiers", .list (identifiers.map .map))]
  shelf := some 0

def key : Definition :=
  [("name", .text "id"), ("field_type", .text "dimension"), ("primary_key", .text "yes"),
    ("type", .text "string"), ("sql", .text "id")]

def project : Store :=
  { (default : Store) with
    views := [entry "sales" [ofSale], entry "customers" [ofCustomer],
      entry "accounts" [ofAccount], entry "tickets" []],
    shelves := [⟨[key], .null⟩] }

def workspace : Workspace := { project := project }

def field (view name : String) : String × Field :=
  (name, { view := { (default : View) with definition := [("name", .text view)] },
           definition := [("name", .text name), ("field_type", .text "dimension")] })

def design : Design where
  warehouse := .snowflake
  model := none
  fields := [field "sales" "day", field "tickets" "topic"]

/-- The arc of an identifier, in its own direction or backwards. -/
def arc (r : Relationship) (u v : String) (identifier : Definition) : Arc String Definition where
  source := u
  target := v
  data := identifier.set "relationship" (.text r.name) ++ [("weight", .int r.weight)]

def graph : JoinGraph :=
  .ofGraph ⟨["sales", "customers", "accounts", "tickets"],
    [arc .manyToOne "sales" "customers" ofSale, arc .oneToOne "customers" "accounts" ofCustomer,
      arc .oneToOne "accounts" "customers" ofCustomer, arc .oneToMany "accounts" "tickets" ofAccount,
      arc .manyToOne "tickets" "accounts" ofAccount]⟩ []

def joinAlong (a : Arc String Definition) : Join :=
  ⟨a.data ++ [("base_view_name", .text a.source), ("join_view_name", .text a.target)]⟩

def joins : List Join :=
  [joinAlong (arc .manyToOne "sales" "customers" ofSale),
    joinAlong (arc .oneToOne "customers" "accounts" ofCustomer),
    joinAlong (arc .oneToMany "accounts" "tickets" ofAccount)]

theorem exists_build : ∃ views, workspace.project.listViews none = .ok views ∧
    JoinGraph.build views = .ok graph := by
  refine ⟨_, by cbv, ?_⟩
  -- the components are not looked at
  unfold build graph
  generalize ofGraph = make
  cbv

def built : Workspace :=
  { workspace with joinGraph := some ⟨graph, exists_build.imp fun _ h => h.2⟩ }

theorem joinGraph_workspace : Action.joinGraph workspace = (.ok graph, built) := by
  obtain ⟨views, hvs, hbd⟩ := exists_build
  exact joinGraph_of_build rfl hvs hbd

theorem requiredViews_design :
    design.requiredViews workspace.project = .ok ["sales", "tickets"] := by cbv

theorem plan_graph : graph.plan ["sales", "tickets"]
    = .ok [("sales", "customers"), ("customers", "accounts"), ("accounts", "tickets")] := by
  unfold graph ofGraph
  generalize sortedComponents = components
  cbv

theorem make_joinAlong (r : Relationship) (u v other condition : String) :
    Join.make (((arc r u v (reference r other condition)).data.set "base_view_name"
        (.text u)).set "join_view_name" (.text v))
      = .ok (joinAlong (arc r u v (reference r other condition))) := by
  simp [arc, reference, Definition.set, Definition.has]
  rfl

theorem join_graph {r : Relationship} {u v other condition : String}
    (h : arc r u v (reference r other condition) ∈ graph.graph.arcs) :
    graph.join u v = .ok (joinAlong (arc r u v (reference r other condition))) := by
  obtain ⟨views, -, hbd⟩ := exists_build
  have harc := (build_isSound hbd).simple.arc?_eq h
  unfold join
  rw [show graph.graph.arc? u v = _ from harc]
  exact make_joinAlong r u v other condition

theorem joins_graph :
    graph.joins [("sales", "customers"), ("customers", "accounts"), ("accounts", "tickets")]
      = .ok joins := by
  have h1 : graph.join "sales" "customers"
      = .ok (joinAlong (arc .manyToOne "sales" "customers" ofSale)) :=
    join_graph (by simp [graph, ofGraph, ofSale])
  have h2 : graph.join "customers" "accounts"
      = .ok (joinAlong (arc .oneToOne "customers" "accounts" ofCustomer)) :=
    join_graph (by simp [graph, ofGraph, ofCustomer])
  have h3 : graph.join "accounts" "tickets"
      = .ok (joinAlong (arc .oneToMany "accounts" "tickets" ofAccount)) :=
    join_graph (by simp [graph, ofGraph, ofAccount])
  rfl

theorem joins_design : design.joins workspace = (.ok joins, built) :=
  Design.joins_eq_ok.mpr
    ⟨_, _, _, requiredViews_design, joinGraph_workspace, plan_graph, joins_graph⟩

theorem isLoopless_graph : graph.IsLoopless := by
  intro a ha
  simp only [graph, ofGraph, mem_cons, not_mem_nil, or_false] at ha
  rcases ha with rfl | rfl | rfl | rfl | rfl <;> decide

end Tickets

namespace Design

theorem joins_isPlan_tickets : ∃ root pairs,
    Tickets.design.baseOf Tickets.workspace.project Tickets.joins = .ok root ∧
      List.Forall₂ JoinGraph.Leads Tickets.joins pairs ∧
      Tickets.graph.IsPlan ["sales", "tickets"] root pairs :=
  joins_isPlan Tickets.joinGraph_workspace Tickets.isLoopless_graph Tickets.requiredViews_design
    (by simp) Tickets.joins_design

end Design

end SemanticLayer
