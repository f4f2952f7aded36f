import SemanticLayer.Proofs.Query.ParallelCompile

/-!
# Memory that can be relied on

On workspaces that are abreast (`Workspace.Abreast`) every request has the same outcome
(`Request.compile_abreast`): what a request changes in its project is not what a join graph is made
of (`Store.built_outline`).
-/

namespace SemanticLayer

open SemanticLayer.Action List Result

namespace Project

/-- The join graph that is built of the views that the user sees. -/
def built (p : Project) : Result JoinGraph.Built := do JoinGraph.Built.ofViews (← p.listViews none)

/-- The join graph of the views that the user sees. -/
def graph (p : Project) : Result JoinGraph := p.built.map Subtype.val

end Project

namespace Workspace

variable {w w' : Workspace}

/-- A graph of joins that is kept is that of the project. -/
def HoldsGraph (w : Workspace) : Prop := ∀ g, w.joinGraph = some g → w.project.seen.built = .ok g

theorem HoldsGraph.of_eq (h : w.HoldsGraph) (hpr : w'.project.seen.built = w.project.seen.built)
    (hgph : w'.joinGraph = w.joinGraph) : w'.HoldsGraph := by
  unfold HoldsGraph
  rwa [hgph, hpr]

end Workspace

namespace Action

variable {w : Workspace}

theorem joinGraph_of_holdsGraph (hw : w.HoldsGraph) : (joinGraph w).1 = w.project.seen.graph ∧
      (joinGraph w).2 = { w with joinGraph := (joinGraph w).2.joinGraph } ∧
      (joinGraph w).2.HoldsGraph := by
  unfold joinGraph Project.graph
  rw [get_bind]
  cases hgph : w.joinGraph with
  | some g =>
    rw [hw g hgph]
    exact ⟨rfl, rfl, hw⟩
  | none =>
    have hlookup : w.project.seen.built
        = (w.project.listViews none >>= JoinGraph.Built.ofViews) := rfl
    rcases hvs : w.project.listViews none with e | views
    · dsimp only
      rw [hlookup, hvs]
      exact ⟨rfl, rfl, hw⟩
    rcases hg : JoinGraph.Built.ofViews views with e | g
    · dsimp only
      rw [bind_of_eq_ok (lift_apply _ _), hg, hlookup, hvs,
        Result.ok_bind, hg]
      exact ⟨rfl, rfl, hw⟩
    · have hblt : w.project.seen.built = .ok g := by rw [hlookup, hvs, Result.ok_bind, hg]
      dsimp only
      rw [bind_of_eq_ok (lift_apply _ _), hg, bind_of_eq_ok (lift_apply _ _), modify_bind, hblt]
      refine ⟨rfl, rfl, fun g' hg' => ?_⟩
      cases hg'
      exact hblt

end Action

/-! ### What a join graph is made of -/

namespace JoinGraph

variable {views views' : List View}

/-- A view of which only the definition is known. -/
def plain (d : Definition) : View := ⟨d, 0, .null, none, false⟩

theorem offer_plain (views : List View) (v : View) (identifier : Definition) (other : String) :
    offer ((views.map View.definition).map plain) (plain v.definition) identifier other
      = offer views v identifier other := by
  have hfind : ((views.map View.definition).map plain).find? (·.name == other)
      = (views.find? (·.name == other)).map fun v => plain v.definition := by
    rw [map_map, find?_map]
    rfl
  unfold offer
  rw [hfind]
  cases views.find? (·.name == other) <;> rfl

theorem viewStep_plain (names : Names) (table : References) :
    (fun state v => viewStep ((views.map View.definition).map plain) names table state
      (plain v.definition)) = viewStep views names table := by
  funext state v
  unfold viewStep matchStep
  simp only [offer_plain]
  rfl

theorem build_plain (views : List View) :
    build ((views.map View.definition).map plain) = build views := by
  have hnames : names ((views.map View.definition).map plain) = names views := by
    unfold names
    rw [map_map, mapM_map]
    rfl
  have hbridges : bridgesOf ((views.map View.definition).map plain) = bridgesOf views := by
    funext names
    unfold bridgesOf
    rw [map_map, mapM_map]
    rfl
  have hreferences : references ((views.map View.definition).map plain) = references views := by
    unfold references
    rw [map_map, List.foldlM_map]
    rfl
  have hsteps : ∀ names table state,
      ((views.map View.definition).map plain).foldlM
        (viewStep ((views.map View.definition).map plain) names table) state
        = views.foldlM (viewStep views names table) state := by
    intro names table state
    rw [← @viewStep_plain views, map_map, List.foldlM_map]
    rfl
  unfold build
  simp only [hnames, hbridges, hreferences, hsteps]

theorem ofViews_congr (h : views'.map View.definition = views.map View.definition) :
    Built.ofViews views' = Built.ofViews views := by
  have hbuild : build views' = build views := by rw [← build_plain views', h, build_plain]
  unfold Built.ofViews
  split <;> split <;> simp_all

end JoinGraph

namespace Store

variable {p q : Store}

/-- What a join graph is made of: the setting apart from the schema, and the definitions of the
views, with or without fields. -/
def outline (p : Store) : Setting × List (Definition × Bool) :=
  ({ p.toSetting with schema := .null }, p.views.map fun e => (e.definition, e.shelf.isSome))

section

variable (h : q.outline = p.outline)
include h

theorem userKey_outline : q.userKey = p.userKey := by
  have hsm := congrArg (fun d => d.1.userKey) h
  exact hsm

theorem canAccessView_outline {v v' : View} (hv : v'.definition = v.definition) :
    q.canAccessView v' = p.canAccessView v := by
  have hsm := congrArg (fun d => d.1.canAccessView v) h
  unfold Setting.canAccessView View.property at hsm ⊢
  rw [hv]
  exact hsm

omit h in
theorem open_outline {e e' : ViewEntry} (hdef : e'.definition = e.definition)
    (hshelf : e'.shelf.isSome = e.shelf.isSome) :
    Related (fun v v' => v'.definition = v.definition) (p.open_ none e) (q.open_ none e') := by
  unfold open_
  rw [hdef]
  refine (Related.of_eq rfl).bind fun _ _ _ => ?_
  cases hi : e.shelf with
  | none =>
    rw [hi, Option.isSome_none, Option.isSome_eq_false_iff, Option.isNone_iff_eq_none] at hshelf
    rw [hshelf]
    exact .error _
  | some i =>
    rw [hi, Option.isSome_some, Option.isSome_iff_exists] at hshelf
    obtain ⟨j, hj⟩ := hshelf
    rw [hj]
    exact .ok rfl

theorem listViews_outline :
    Related (Forall₂ fun v v' => v'.definition = v.definition) (p.listViews none)
      (q.listViews none) := by
  have hviews := map_eq_map_iff_rel.mp (congrArg Prod.snd h).symm
  refine listViews_related (hviews.imp fun e e' he => ?_) fun _ _ hv => canAccessView_outline h hv
  obtain ⟨hdef, hshelf⟩ := Prod.mk.inj he
  exact open_outline hdef.symm hshelf.symm

theorem built_outline : q.seen.built = p.seen.built := by
  change (q.listViews none >>= JoinGraph.Built.ofViews)
    = (p.listViews none >>= JoinGraph.Built.ofViews)
  have hviews := listViews_outline h
  generalize p.listViews none = seen at hviews ⊢
  generalize q.listViews none = seen' at hviews ⊢
  cases hviews with
  | error e => rfl
  | ok hviews => exact JoinGraph.ofViews_congr (map_eq_map_iff_rel.mpr hviews.flip)

end

theorem addField_outline {d : Definition} {view : String} (h : p.addField d view = .ok q) :
    q.outline = p.outline := by
  obtain rfl | ⟨k, e, i, -, -, rfl⟩ := addField_cases h <;> rfl

theorem removeField_outline {name view : String} (h : p.removeField name view = .ok q) :
    q.outline = p.outline := by
  obtain ⟨k, e, i, he, hi, rfl⟩ := removeField_eq_ok h
  let written (e : ViewEntry) : Definition × Bool := (e.definition, e.shelf.isSome)
  have hat : (p.views.map written)[k]?
      = some (written { e with shelf := some p.shelves.length }) := by
    rw [getElem?_map, (entryOf?_eq_some he).1, Option.map_some]
    simp only [written, hi, Option.isSome_some]
  obtain ⟨hk, hke⟩ := List.getElem?_eq_some_iff.mp hat
  have hviews : (p.views.set k { e with shelf := some p.shelves.length }).map written
      = p.views.map written := by
    rw [map_set, ← hke]
    exact set_getElem_self hk
  exact congrArg ({ p.toSetting with schema := .null }, ·) hviews

end Store

/-! ### Workspaces side by side -/

namespace Workspace

/-- Workspaces of one project that hold the same conditions, keep the same of merged results and
remember the same for their user. -/
structure Abreast (w w' : Workspace) : Prop where
  project : w'.project = w.project
  graph : w.HoldsGraph
  graph' : w'.HoldsGraph
  merged : w'.merged = w.merged
  known : ∀ id, w'.known (w.project.userKey, id) = w.known (w.project.userKey, id)
  rows : w'.rows = w.rows
  groups : w'.groups = w.groups
  dimensions : w'.request.dimensions = w.request.dimensions

namespace Abreast

variable {w w' v v' : Workspace}

/-- A change that touches neither the project nor the graph of joins leaves workspaces abreast. -/
theorem change (h : w.Abreast w') (hpr : v.project = w.project ∧ v'.project = w'.project)
    (hgph : v.joinGraph = w.joinGraph ∧ v'.joinGraph = w'.joinGraph) (hmg : v'.merged = v.merged)
    (hkn : ∀ id, v'.known (w.project.userKey, id) = v.known (w.project.userKey, id))
    (hrs : v'.rows = v.rows) (hgs : v'.groups = v.groups)
    (hds : v'.request.dimensions = v.request.dimensions) : v.Abreast v' :=
  ⟨hpr.2.trans (h.project.trans hpr.1.symm), h.graph.of_eq (by rw [hpr.1]) hgph.1,
    h.graph'.of_eq (by rw [hpr.2]) hgph.2, hmg, by rw [hpr.1]; exact hkn, hrs, hgs, hds⟩

theorem setProject (h : w.Abreast w') {p : Store} (hp : p.outline = w.project.outline) :
    Abreast { w with project := p } { w' with project := p } :=
  ⟨rfl, h.graph.of_eq (Store.built_outline hp) rfl,
    h.graph'.of_eq (by rw [h.project]; exact Store.built_outline hp) rfl, h.merged,
    by
      change ∀ id, w'.known (p.userKey, id) = w.known (p.userKey, id)
      rw [Store.userKey_outline hp]
      exact h.known,
    h.rows, h.groups, h.dimensions⟩

instance : Pane Abreast where
  seen h := by rw [h.project]
  tells w w' h := by
    obtain ⟨heq, hkp, hholds⟩ := joinGraph_of_holdsGraph h.graph
    obtain ⟨heq', hkp', hholds'⟩ := joinGraph_of_holdsGraph h.graph'
    refine ⟨?_, ?_, fun _ _ => by rw [hkp]⟩
    · rw [heq, heq', h.project]
    · rw [hkp] at hholds ⊢
      rw [hkp'] at hholds' ⊢
      exact ⟨h.project, hholds, hholds', h.merged, h.known, h.rows, h.groups, h.dimensions⟩

instance : Holds Abreast where
  writeRequest hf h := h.change ⟨rfl, rfl⟩ ⟨rfl, rfl⟩ h.merged h.known h.rows h.groups
    (hf _ _ h.dimensions)
  rows h := h.rows
  groups h := h.groups
  writeRows _ h := h.change ⟨rfl, rfl⟩ ⟨rfl, rfl⟩ h.merged h.known rfl h.groups h.dimensions
  writeGroups _ h _ _ :=
    h.change ⟨rfl, rfl⟩ ⟨rfl, rfl⟩ h.merged h.known h.rows rfl h.dimensions

instance : Remembers Abreast where
  mergedGraph _ _ _ _ := mergedGraph_follows (fun h => h.merged) (fun _ _ h =>
    h.change ⟨rfl, rfl⟩ ⟨rfl, rfl⟩ rfl h.known h.rows h.groups h.dimensions) _
  sameMemory id h := by
    rw [h.project]
    exact h.known id
  remember e h := h.change ⟨rfl, rfl⟩ ⟨rfl, rfl⟩ h.merged
    (fun id => by
      have hkn := h.known id
      unfold Workspace.known at hkn ⊢
      rw [find?_cons, find?_cons]
      cases e.1 == (_, id) with
      | true => rfl
      | false => exact hkn) h.rows h.groups h.dimensions

instance : Veil Abreast where
  tellsOf := Glass.tellsOf

theorem edit_follows {change : Store → Result Store}
    (hkeep : ∀ {p q}, change p = .ok q → q.outline = p.outline) :
    Follows Abreast Store.Any (edit change) := by
  intro w w' h
  rw [edit_apply, edit_apply, h.project]
  cases hp : change w.project with
  | error e => exact ⟨rfl, h, fun _ h => nomatch h⟩
  | ok p => exact ⟨rfl, h.setProject (hkeep hp), fun _ _ => trivial⟩

theorem windowed : Windowed Abreast Store.Any where
  collect _ _ _ _ := edit_follows fun h => by cases h; rfl
  loan _ _ _ ha := (edit_follows Store.addField_outline).bind fun _ => ha.bind fun _ =>
    (edit_follows Store.removeField_outline).bind fun _ => .of_pure _

instance : Responsive Abreast Store.Any where
  setAlways _ _ := edit_follows fun h => by cases h; rfl
  schema schema := .of_modify (fun w w' h => by
    rw [h.project]
    exact h.setProject (p := { w.project with schema := schema }) rfl) fun _ => trivial
  takeGroups _ h := h.change ⟨rfl, rfl⟩ ⟨rfl, rfl⟩ h.merged h.known h.rows rfl h.dimensions

end Abreast

end Workspace

namespace Request

variable {w w' : Workspace}

theorem compile_of_held (cs : List Connection) (q : Request) (w : Workspace) :
    q.compile cs w = q.compile cs { w with request := q, rows := [], groups := [] } := by
  unfold compile Resolution.ofRequest
  rfl

theorem compile_abreast (cs : List Connection) (q : Request) :
    Follows Workspace.Abreast Store.Any (q.compile cs) :=
  compile_follows Workspace.Abreast.windowed (fun _ _ h => h.dimensions)
    (fun _ _ h => h.change ⟨rfl, rfl⟩ ⟨rfl, rfl⟩ h.merged h.known h.rows h.groups rfl) cs

end Request

end SemanticLayer
