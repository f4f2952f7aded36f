import SemanticLayer.Proofs.Join.Arrangement
import SemanticLayer.Proofs.Join.Preferred

/-!
# The names of components

The components that a view is in and can be joined from do not hang on the order of the views and
their identifiers (`components_in_any_order`), unless a view has two primary identifiers that are
joined under one other name (`People.second_identifier_lost`).
-/

namespace SemanticLayer.JoinGraph

open List

variable {c : List String} {v : String}

/-! ### What the names tell -/

section

variable {views : List View} {g : JoinGraph} (hg : build views = .ok g)

include hg

theorem mem_of_mem_components (hc : c ∈ g.components) {u : String} (hu : u ∈ c) :
    v ∈ c ↔ g.graph.Reaches u v ∧ g.graph.Reaches v u := by
  have hcl := (build_isWhole hg).closed
  rw [(build_components hg).1] at hc
  rw [eq_of_mem_sortedComponents hcl hc hu, mem_inOrder, Digraph.mem_component hcl]

theorem componentOf_of_mem {i : Nat} (hc : g.components[i]? = some c) (hv : v ∈ c) :
    g.componentOf v = .ok (componentName i) := by
  have hcl := (build_isWhole hg).closed
  have hcom := (build_components hg).1
  cases hn : g.componentOf v with
  | error e =>
    unfold componentOf at hn
    split at hn
    · cases hn
    · next hno =>
      have := List.findIdx?_eq_none_iff.mp hno c (mem_of_getElem? hc)
      simp [hv] at this
  | ok name =>
    obtain ⟨j, c', rfl, hj, hv'⟩ := componentOf_eq_ok hn
    have hsm : c' = c := by
      have hmem := fun {c} {k : Nat} (hk : g.components[k]? = some c) =>
        hcom ▸ mem_of_getElem? hk
      rw [eq_of_mem_sortedComponents hcl (hmem hj) hv', eq_of_mem_sortedComponents hcl (hmem hc) hv]
    have hnd : g.components.Nodup := hcom ▸ nodup_sortedComponents hcl
    have hij : j = i := (List.getElem?_inj (List.getElem?_eq_some_iff.mp hj).1 hnd).mp
      (by rw [hj, hc, hsm])
    rw [hij]

theorem componentOf_eq_iff {u : String} (hu : u ∈ g.graph.nodes) :
    g.componentOf u = g.componentOf v ↔ g.graph.Reaches u v ∧ g.graph.Reaches v u := by
  obtain ⟨name, hn⟩ := exists_componentOf hg hu
  obtain ⟨i, c, rfl, hc, hmem⟩ := componentOf_eq_ok hn
  rw [← mem_of_mem_components hg (mem_of_getElem? hc) hmem, hn]
  constructor
  · intro h
    obtain ⟨j, c', hij, hc', hmem'⟩ := componentOf_eq_ok h.symm
    cases componentName_inj hij
    cases hc.symm.trans hc'
    exact hmem'
  · exact fun hv => (componentOf_of_mem hg hc hv).symm

theorem componentName_mem_iff {i : Nat} : componentName i ∈ g.joinableFrom v ↔
    ∃ c, g.components[i]? = some c ∧ ∃ u ∈ c, g.graph.Reaches u v := by
  rw [componentName_mem_joinableFrom, (build_components hg).2]
  simp only [List.getElem?_map, Option.map_eq_some_iff, exists_exists_and_eq_and,
    Digraph.mem_reach (build_isWhole hg).closed]

theorem joinableFrom_mono {u : String} (harc : g.graph.hasArc u v = true) :
    g.joinableFrom u ⊆ g.joinableFrom v := by
  intro name hn
  obtain ⟨⟨vs, i⟩, -, rfl⟩ := mem_map.mp hn
  obtain ⟨c, hc, w, hw, hrch⟩ := (componentName_mem_iff hg).mp hn
  exact (componentName_mem_iff hg).mpr
    ⟨c, hc, w, hw, hrch.trans (Digraph.Reaches.of_hasArc harc)⟩

end

/-! ### Names of identifiers -/

theorem eq_of_identifiers {v : View} {ids : List Definition} (h : identifiers v = .ok ids) :
    ids = Project.identifiersOf v.definition := by
  have hmap : ∀ x (d : Definition), Value.needMap x = .ok d → d = x.entriesD := by
    intro x d hd
    cases x <;> cases hd
    rfl
  -- a text or a map can be gone through, but what is found there is no identifier
  have hno : ∀ l : List Value, (∀ x ∈ l, ∃ t, x = .text t) → ∀ {ids : List Definition},
      l.mapM Value.needMap = .ok ids → ids = [] := by
    intro l hl ids hids
    cases l with
    | nil =>
      cases hids
      rfl
    | cons x l =>
      obtain ⟨t, rfl⟩ := hl _ (mem_cons_self ..)
      cases hids
  unfold identifiers at h
  unfold Project.identifiersOf Definition.get
  cases hget : v.definition.get? "identifiers" with
  | none =>
    rw [hget] at h
    cases h
    rfl
  | some x =>
    rw [hget] at h
    obtain ⟨items, hits, hids⟩ := Result.of_bind h
    cases x with
    | list xs =>
      cases hits
      have hall := Result.map_of_mapM (g := id) hmap hids
      rwa [map_id] at hall
    | text t =>
      cases hits
      refine hno _ (fun x hx => ?_) hids
      obtain ⟨c, -, rfl⟩ := mem_map.mp hx
      exact ⟨_, rfl⟩
    | map m =>
      cases hits
      refine hno _ (fun x hx => ?_) hids
      obtain ⟨e, -, rfl⟩ := mem_map.mp hx
      exact ⟨_, rfl⟩
    | _ => cases hits

theorem areNamed_of_isNamed {views : List View} (hvs : (views.map View.name).Nodup)
    (h : ∀ v ∈ views, Project.IsNamed v.definition) : AreNamed views := by
  constructor
  · rintro ⟨u, i⟩ he
    obtain ⟨v, hv, rfl, ids, hids, hi⟩ := mem_owned.mp he
    exact (h v hv).text i (eq_of_identifiers hids ▸ hi)
  · have hown : ∀ v ∈ views, (((identifiers v).toOption.getD []).map Project.nameOf).Nodup := by
      intro v hv
      cases hids : identifiers v with
      | error e => exact nodup_nil
      | ok ids => exact eq_of_identifiers hids ▸ (h v hv).nodup
    rw [owned, map_flatMap, nodup_flatMap]
    constructor
    · intro v hv
      rw [map_map]
      have hprs := (hown v hv).map (f := fun n => (v.name, n)) fun _ _ h => (Prod.mk.inj h).2
      rwa [map_map] at hprs
    · refine (pairwise_map.mp hvs).imp fun hne => ?_
      rintro e he he'
      simp only [map_map, mem_map] at he he'
      obtain ⟨i, -, rfl⟩ := he
      obtain ⟨j, -, heq⟩ := he'
      exact hne (congrArg Prod.fst heq).symm

/-! ### The theorem -/

def graphOf (s : Setting) (views : List Definition) : Result JoinGraph := do
  build (← (do (← Project.storeOf s views).listViews none))

/-- **Components in any order.**  Where no two views have one name, no two identifiers of a view
have one name, and no two primary identifiers of a view are joined under one other name, two views
have the same component exactly if they reach each other, and a view can be joined from a component
exactly if one of its views reaches it.  If the views and their identifiers are written in another
order, every view has the same component and can be joined from the same components. -/
theorem components_in_any_order {s : Setting} {views views' : List Definition}
    (hnamed : Project.AreNamed views) (hsplit : Project.AreSplit views)
    (h : AreReordered views views') {g : JoinGraph} (hg : graphOf s views = .ok g) :
    (∀ u ∈ g.graph.nodes, ∀ v, g.componentOf u = g.componentOf v ↔
      g.graph.Reaches u v ∧ g.graph.Reaches v u) ∧
    (∀ i v, componentName i ∈ g.joinableFrom v ↔
      ∃ c, g.components[i]? = some c ∧ ∃ u ∈ c, g.graph.Reaches u v) ∧
    (∀ v ∈ g.graph.nodes, ∃ name ∈ g.joinableFrom v, g.componentOf v = .ok name) ∧
    (∀ u v, g.graph.hasArc u v = true → g.joinableFrom u ⊆ g.joinableFrom v) ∧
    ∃ g', graphOf s views' = .ok g' ∧
      ∀ v, g'.componentOf v = g.componentOf v ∧ g'.joinableFrom v = g.joinableFrom v := by
  obtain ⟨vs, hvs, hbuild⟩ := Result.of_bind hg
  refine ⟨fun u hu v => componentOf_eq_iff hbuild hu, fun i v => componentName_mem_iff hbuild, ?_,
    fun u v => joinableFrom_mono hbuild, ?_⟩
  · intro v hv
    obtain ⟨name, hname⟩ := exists_componentOf hbuild hv
    exact ⟨name, (mem_joinableFrom_iff hbuild hname).mpr (Digraph.Reaches.refl _ v), hname⟩
  · obtain ⟨vs', hvs', hreordered⟩ := Project.listViews_reordered h hnamed hsplit hvs
    have hlisted := ((Project.listed_meets s hnamed hsplit none).only vs hvs).2
    have hids : AreNamed vs := areNamed_of_isNamed (nodup_of_build hbuild) fun v hv => by
      have hshown := hlisted ▸ mem_map_of_mem hv
      obtain ⟨d, hd, hshown⟩ := mem_map.mp hshown
      rw [← hshown]
      exact Project.isNamed_shown
        (Project.isNamed_of_mem_formsOf hnamed (mem_filter.mp hd).1)
    obtain ⟨g', hg', hsame⟩ := build_reordered hreordered hids hbuild
    exact ⟨g', Result.bind_eq_ok.mpr ⟨vs', hvs', hg'⟩, hsame⟩

/-! ### People that are called and visited

People are joined under other names: as callers by one identifier, as hosts by another one. -/

namespace People

def identifier (name kind : String) (more : Definition) : Definition :=
  [("name", .text name), ("type", .text kind), ("sql", .text ("$\x7b" ++ name ++ "\x7d"))] ++ more

/-- A primary identifier of people that is joined under another name. -/
def joinedAs (name joinAs : String) : Definition :=
  identifier name "primary" [("join_as", .text joinAs)]

def view (name : String) (identifiers : List Definition) : Definition :=
  [("name", .text name), ("fields", .list []), ("identifiers", .list (identifiers.map .map))]

def calls : Definition := view "calls" [identifier "caller" "foreign" []]

def visits : Definition := view "visits" [identifier "host" "foreign" []]

def setting : Setting :=
  { (default : Setting) with models := [[("name", .text "m"), ("connection", .text "wh")]] }

/-- People, calls and visits. -/
def views (identifiers : List Definition) : List Definition :=
  [view "people" identifiers, calls, visits]

def listed (views : List Definition) : List View :=
  ((do (← Project.storeOf setting views).listViews none).toOption).getD []

theorem reorders_view (name : String) {ids ids' : List Definition} (h : ids.Perm ids') :
    (view name ids).Reorders (view name ids') := by
  refine ⟨fun key hkey => ?_, Or.inr ⟨_, _, rfl, rfl, h.map _⟩⟩
  simp [view, Definition.get?_cons, Ne.symm hkey]

theorem exists_graph (views : List Definition)
    (hok : (do (← Project.storeOf setting views).listViews none).isOk = true)
    (hviews : ((listed views).map View.name).Nodup) (hnm : AreNamed (listed views))
    (hap : AreApart (owned (listed views))) (hls : AreListed (listed views))
    (hall : ∀ e ∈ owned (listed views), IsWellFormed e.2) :
    ∃ g, graphOf setting views = .ok g ∧ IsOf (listed views) g.graph ∧
      build (listed views) = .ok g := by
  have hrun : (do (← Project.storeOf setting views).listViews none) = .ok (listed views) := by
    unfold listed
    cases hvs : (do (← Project.storeOf setting views).listViews none) with
    | error e =>
      rw [hvs] at hok
      cases hok
    | ok vs => rfl
  have hmeets := build_meets hviews hnm
  obtain ⟨g, hg⟩ := hmeets.succeeds (canBuild_of_wellFormed hviews hnm hap hls hall)
  exact ⟨g, Result.bind_eq_ok.mpr ⟨_, hrun, hg⟩, (hmeets.only g hg).2, hg⟩

def callers : Definition := joinedAs "caller" "callers"

def hosts : Definition := joinedAs "host" "hosts"

/-- Callers and hosts under one other name. -/
def first : Definition := joinedAs "caller" "guests"

def second : Definition := joinedAs "host" "guests"

theorem owned_first : owned (listed (views [first, second])) =
    [("calls", identifier "caller" "foreign" []), ("visits", identifier "host" "foreign" []),
     ("guests", identifier "caller" "primary" [])] := by
  rfl

end People

open People in
theorem components_in_any_order_people :
    Project.AreNamed (views [callers, hosts]) ∧ Project.AreSplit (views [callers, hosts]) ∧
      AreReordered (views [callers, hosts]) [visits, view "people" [hosts, callers], calls] ∧
      ∃ g g', graphOf setting (views [callers, hosts]) = .ok g ∧
        graphOf setting [visits, view "people" [hosts, callers], calls] = .ok g' ∧
        (g.componentOf "people" = g.componentOf "callers" ↔
          g.graph.Reaches "people" "callers" ∧ g.graph.Reaches "callers" "people") ∧
        g'.componentOf "callers" = g.componentOf "callers" ∧
        g'.joinableFrom "callers" = g.joinableFrom "callers" := by
  have hnamed : Project.AreNamed (views [callers, hosts]) := by decide +kernel
  have hsplit : Project.AreSplit (views [callers, hosts]) := by decide +kernel
  have hreordered : AreReordered (views [callers, hosts])
      [visits, view "people" [hosts, callers], calls] :=
    ⟨[visits, view "people" [callers, hosts], calls],
      (perm_append_comm : ([_, _] ++ [_]).Perm ([_] ++ [_, _])),
      .cons (reorders_view _ (List.Perm.refl _)) (.cons (reorders_view _ (List.Perm.swap ..))
        (.cons (reorders_view _ (List.Perm.refl _)) .nil))⟩
  obtain ⟨g, hg, hof, -⟩ := exists_graph (views [callers, hosts]) (by decide +kernel)
    (by decide +kernel) (by decide +kernel) (by decide +kernel) (by decide +kernel)
    (by decide +kernel)
  obtain ⟨hmeaning, -, -, -, g', hg', hsame⟩ := components_in_any_order hnamed hsplit hreordered hg
  have hpeople : "people" ∈ g.graph.nodes := (hof.nodes _).mpr (Or.inl (by decide +kernel))
  exact ⟨hnamed, hsplit, hreordered, g, g', hg, hg', hmeaning _ hpeople _, hsame "callers"⟩

open People in
/-- If people are joined under one other name by two identifiers, their order decides which of them
the copy has, and so from which components the copy can be joined. -/
theorem People.second_identifier_lost :
    Project.AreNamed (views [first, second]) ∧
      AreReordered (views [first, second]) (views [second, first]) ∧
      ∃ g g', graphOf setting (views [first, second]) = .ok g ∧
        graphOf setting (views [second, first]) = .ok g' ∧
        g.graph.hasArc "calls" "guests" = true ∧ g'.graph.hasArc "calls" "guests" = false ∧
        ¬ ∀ v, g'.componentOf v = g.componentOf v ∧ g'.joinableFrom v = g.joinableFrom v := by
  obtain ⟨g, hg, hof, hbuild⟩ := exists_graph (views [first, second]) (by decide +kernel)
    (by decide +kernel) (by decide +kernel) (by decide +kernel) (by decide +kernel)
    (by decide +kernel)
  obtain ⟨g', hg', hof', hbuild'⟩ := exists_graph (views [second, first])
    (by decide +kernel) (by decide +kernel) (by decide +kernel) (by decide +kernel)
    (by decide +kernel) (by decide +kernel)
  have harc : g.graph.hasArc "calls" "guests" = true := by
    refine (hof.arcs _ _).mpr ⟨by decide +kernel, .manyToOne, _, Or.inr ⟨by decide,
      identifier "caller" "foreign" [], identifier "caller" "primary" [], ?_, ?_, rfl, rfl, rfl, rfl,
      (fun hfanout => by cases hfanout), _, _, rfl, rfl, rfl⟩⟩
    · rw [owned_first]
      exact mem_cons_self ..
    · rw [owned_first]
      exact mem_cons_of_mem _ (mem_cons_of_mem _ (mem_cons_self ..))
  have hnone : ∀ v, g'.graph.hasArc "calls" v = false := by
    intro v
    have hjoin : ∀ e ∈ owned (listed (views [second, first])),
        (e.2.get "type").isTextOf "join" = false := by decide +kernel
    have hname : ∀ e ∈ owned (listed (views [second, first])),
        e.1 = "calls" ↔ (e.2.get "name").plain = "caller" := by decide +kernel
    rw [← Bool.not_eq_true, hof'.arcs]
    rintro ⟨-, r, on, hwritten | ⟨hne, i, j, hi, hj, hfit⟩⟩
    · cases hwritten with
      | forwards hi hrefers => simpa [hjoin _ hi] using hrefers.kind
      | backwards hi hrefers _ => simpa [hjoin _ hi] using hrefers.kind
    · exact hne ((hname _ hj).mpr (hfit.name ▸ (hname _ hi).mp rfl)).symm
  refine ⟨by decide +kernel, ?_, g, g', hg, hg', harc, hnone _, fun hsame => ?_⟩
  · exact ⟨_, List.Perm.refl _, .cons (reorders_view _ (List.Perm.swap ..))
      (.cons (reorders_view _ (List.Perm.refl _)) (.cons (reorders_view _ (List.Perm.refl _)) .nil))⟩
  · -- calls would have to reach the copy in both orders
    obtain ⟨name, hname⟩ := exists_componentOf hbuild
      ((build_isWhole hbuild).closed.mem_of_hasArc harc).1
    have hmem := (mem_joinableFrom_iff hbuild hname).mpr (Digraph.Reaches.of_hasArc harc)
    rw [← (hsame "guests").2] at hmem
    rw [← (hsame "calls").1] at hname
    obtain ⟨v, hv⟩ := ((mem_joinableFrom_iff hbuild' hname).mp hmem).exists_hasArc (by decide)
    rw [hnone v] at hv
    cases hv

end SemanticLayer.JoinGraph
