import SemanticLayer.Proofs.Query.Parallel
import SemanticLayer.Query.Compile

/-!
# Requests side by side

Merged results and resolved requests are compiled in the same way from related workspaces
(`MergedQuery.compile_follows`, `Resolution.compile_follows`), and requests resolved in the same way
(`Resolution.ofRequest_follows`).
-/

namespace SemanticLayer

open SemanticLayer.Action List Follows

variable {f : Field} {q : MergedQuery} {w w' : Workspace} {parts : Parts}

variable {V : Workspace → Workspace → Prop} {S : Store → Store → Prop} {p : Store}

/-! ### Merged results -/

section

variable [Veil V] [IsPreorder Store S]

namespace MergedQuery

/-! The metrics of sub-queries are involved in the query. -/

def AllListed (P : Field → Prop) (t : Grouping Field) : Prop := ∀ k, ∀ f ∈ t.get k, P f

theorem layout_involved {l : Layout} (h : q.layout w = (.ok l, w')) :
    AllListed (w.project.seen.Involves q.model q.metrics) l.metrics := by
  intro k g hg
  obtain ⟨n, hn, f, v, hf, hv, hg⟩ := (layout_filed h).wanted hg
  have hinvolved : w.project.seen.Involves q.model q.metrics f := .named hn (.inl rfl) hf
  split_ifs at hg with htru
  · obtain ⟨rs, hrs, hg⟩ := hg
    exact .part hinvolved (.mentioned (.inl ⟨v, hv, htru⟩) hrs hg)
  · rwa [hg]

theorem parts_involved (h : q.parts w = (.ok parts, w')) :
    AllListed (w.project.seen.Involves q.model q.metrics) parts.metrics := by
  obtain ⟨l, w1, hlay, -, hms⟩ := parts_metrics h
  intro k f hf
  by_cases htk : q.IsTaken w.project l w' k
  · rw [(hms k).1 htk] at hf
    cases hf
  · rw [(hms k).2 htk] at hf
    exact layout_involved hlay k f hf

theorem compilePart_follows (hp : Shows V p)
    (hadd : Spared V S fun p => p.seen.AllAdditive q.model q.metrics)
    (hpts : AllListed (p.seen.Involves q.model q.metrics) parts.metrics) (key : String) :
    Follows V S (q.compilePart parts key) := by
  refine SingleQuery.compile_follows (hadd.imp_of_shows hp fun hadd => hadd.of_ids fun n hn => ?_)
  obtain ⟨f, hf, rfl⟩ : ∃ f ∈ parts.metrics.get key, f.id = n := by
    simpa [Conditions.names, Conditions.items] using hn
  exact ⟨f, hpts key f hf, rfl⟩

theorem compile_follows (hadd : Spared V S fun p => p.seen.AllAdditive q.model q.metrics)
    (funnel : Value) : Follows V S (q.compile funnel) := by
  refine .guard (.of_throw _) fun _ => .result_bind fun _ => .result_bind fun _ => ?_
  refine (parts_follows q).bind_of fun parts w w' w1 hw hrun => ?_
  have hcp : ∀ names, Follows V S (q.compileParts parts names) := fun names =>
    .mapM fun k _ => (compilePart_follows ⟨w, w', hw, rfl⟩ hadd (parts_involved hrun) k).bind
      fun _ => .of_pure _
  exact (hcp _).bind fun _ => .result_bind fun _ => .result_bind fun _ => .result_bind fun _ =>
    .result_bind fun _ => .result_bind fun _ => .result_bind fun _ => .project_bind fun _ _ =>
    .result_bind fun _ => .result_bind fun _ => .result_bind fun _ => .of_pure _

end MergedQuery

end

/-! ### Resolving -/

namespace Resolution

section

variable [IsPreorder Store S]

theorem addAlways_follows [Holds V] (given : Value) (always : List Definition) :
    Follows V S (addAlways given always) := by
  refine .ite (.of_pure _) ?_
  cases given with
  | list items =>
    refine .ite ?_ (.of_pure _)
    have hadds : Request.IsRewriting fun r => { r with
        wheres := .list (items ++ always.map .map) } :=
      fun _ _ h => h
    exact (of_request hadds).bind fun _ => .of_pure _
  | _ => exact .of_result _

theorem heldBy_follows [Carries V] (hw : V w w') (side : Side) (shape : Conditions) :
    heldBy w' side shape = heldBy w side shape := by
  unfold heldBy
  rw [Carries.rows hw, Carries.groups hw]

theorem current_follows [Carries V] (side : Side) (shape : Conditions) :
    Follows V S (current side shape) :=
  .get_bind (fun _ _ hw => by rw [heldBy_follows hw]) fun _ _ _ => .of_pure _

theorem replaceSide_follows [Holds V] (side : Side) (old new : String) (shape : Conditions) :
    Follows V S (replaceSide side old new shape) := by
  cases shape with
  | text s => exact .of_pure _
  | absent => exact .of_pure _
  | listed items =>
    refine .get_bind (fun w w' hw => by rw [Carries.rows hw, Carries.groups hw]) fun w w' hw => ?_
    cases side
    · exact (Follows.mapM fun _ _ => .of_result _).bind fun entries =>
        (of_modify (fun _ _ h => Holds.writeRows entries h) fun _ => refl_of S _).bind
          fun _ => .of_pure _
    · refine (Follows.mapM fun _ _ => .of_result _).bind_of fun entries _ _ _ _ hrun => ?_
      have hlen : entries.length = w.groups.length := by
        simpa using congrArg List.length
          (map_of_mapM (g := fun _ => ()) (k := fun _ => ()) (fun _ _ _ _ _ => rfl) hrun)
      exact (of_modify (fun _ _ h => Holds.writeGroups entries h hw hlen)
        fun _ => refl_of S _).bind fun _ => .of_pure _

theorem step_follows [Glass V] (m : Model) (mappings : Result Definition) (names : Names)
    (name : String) :
    Follows V S (names.step m mappings name) := by
  refine .result_bind fun d => .result_bind fun mapped => ?_
  cases mapped with
  | some d => exact .of_pure _
  | none =>
    exact .project_bind fun p hp => .result_bind_of fun f hf =>
      (Glass.joinGraphs hp (.named hf)).bind fun _ => .of_pure _

theorem fitting_follows [Glass V] (d : Definition) (graphs : List String) :
    Follows V S (fitting d graphs) := by
  refine .project_bind fun p hp => .result_bind fun names => ?_
  refine (Follows.mapM fun n _ => ?_).bind fun found => ?_
  · exact .result_bind_of fun f hf => (Glass.joinGraphs hp (.named hf)).bind fun _ => .of_pure _
  · dsimp only
    split
    · exact .of_pure _
    · split
      · exact .of_pure _
      · exact .of_throw _

variable (r : Resolution) (names : Names)

theorem replacement_follows [Glass V] (graphs : List String) (d : Definition) :
    Follows V S (r.replacement names graphs d) := by
  refine .project_bind fun p _ => .ite ?_ ((fitting_follows d graphs).bind fun _ => .of_pure _)
  split
  · exact .result_bind fun f => .result_bind fun date => .result_bind fun g =>
      (anyM (fun n => .result_bind fun f => .result_bind fun _ => .of_pure _) _).bind
        fun _ => .of_pure _
  · refine (filterMapM (fun f => .result_bind fun _ => .of_pure _) _).bind fun dates => ?_
    refine .result_bind fun date => ?_
    cases date with
    | some date => exact .result_bind fun _ => .of_pure _
    | none => exact (fitting_follows d graphs).bind fun _ => .of_pure _

theorem replaceUsed_follows [Holds V] (side : Side) (used : List String) (old new : String)
    (shape : Conditions) : Follows V S (replaceUsed side used old new shape) :=
  .ite (replaceSide_follows side old new shape) (.of_pure _)

theorem isRewriting_replace (old : String) (f : Field) :
    Request.IsRewriting fun q => { q with
      metrics := replaceFirst r.metrics old f.id
      dimensions := replaceFirst r.dimensions old f.id } :=
  fun _ _ _ => rfl

theorem replace_follows [Holds V] (old : String) (f : Field) :
    Follows V S (r.replace names old f) :=
  (of_request (isRewriting_replace r old f)).bind fun _ =>
    (replaceUsed_follows .rows names.rows old f.id r.wheres).bind fun _ =>
      (replaceUsed_follows .groups names.groups old f.id r.havings).bind fun _ =>
        .result_bind fun _ => .of_pure _

section

variable [Glass V] (hreplace : ∀ (r : Resolution) names old f, Follows V S (r.replace names old f))
include hreplace

theorem replaceAmong_follows : Follows V S (r.replaceAmong names) := by
  refine .result_bind fun graphs => .foldlM (fun r ⟨name, d⟩ _ => ?_) r
  exact (replacement_follows r names graphs d).bind fun ⟨f, isMerged⟩ => hreplace _ names name f

theorem replaceAlone_follows : Follows V S (r.replaceAlone names) := by
  unfold replaceAlone
  split
  · exact .of_pure _
  · refine .result_bind fun first => .project_bind fun p hp => .result_bind_of fun f hf => ?_
    refine (Glass.joinGraphs hp (.named hf)).bind fun graphs => ?_
    refine (hreplace r names _ f).bind fun r => ?_
    refine .foldlM (fun r ⟨other, d⟩ _ => .result_bind fun graphs => ?_) r
    exact (fitting_follows d graphs).bind fun g => hreplace r names other g

theorem resolveNames_follows_of [Carries V] : Follows V S r.resolveNames := by
  refine (current_follows .rows r.wheres).bind fun wheres => .result_bind fun rows => ?_
  refine (current_follows .groups r.havings).bind fun havings => .result_bind fun groups => ?_
  refine .result_bind fun orders => .project_bind fun p _ => ?_
  refine (Follows.foldlM (fun names n _ => step_follows _ _ names n) _).bind fun names => ?_
  exact .ite (.of_pure _)
    (.ite (replaceAlone_follows r names hreplace) (replaceAmong_follows r names hreplace))

end

theorem resolveNames_follows [Glass V] [Holds V] : Follows V S r.resolveNames :=
  resolveNames_follows_of r fun _ _ => replace_follows _ _

end

/-! ### Compiling -/

theorem current_apply (side : Side) (shape : Conditions) (w : Workspace) :
    current side shape w = (.ok (heldBy w side shape), w) := rfl

theorem compileSingle_apply (r : Resolution) (w : Workspace) :
    r.compileSingle w = (do
      let query := r.single (heldBy w .rows r.wheres) (heldBy w .groups r.havings)
      return ← (← query.compile).statementOf.render : Action String) w := by
  exact (bind_of_eq_ok (current_apply ..)).trans (bind_of_eq_ok (current_apply ..))

theorem compileMerged_apply (r : Resolution) (w : Workspace) :
    r.compileMerged w = (do
      let query : MergedQuery :=
        { metrics := r.metrics, dimensions := r.dimensions, wheres := heldBy w .rows r.wheres,
          havings := heldBy w .groups r.havings, model := some r.model, warehouse := r.warehouse,
          options := r.options }
      return ← (← query.compile r.funnel).render : Action String) w := by
  exact (bind_of_eq_ok (current_apply ..)).trans (bind_of_eq_ok (current_apply ..))

/-- All fields that a resolved request looks at are additive. -/
def IsAdditive (w : Workspace) (r : Resolution) : Prop :=
  w.project.seen.AllAdditive (some r.model)
    (r.metrics ++ w.groups.map fun e => (e.definition.get "field").plain)

theorem names_heldBy (w : Workspace) (shape : Conditions) :
    (heldBy w .groups shape).names ⊆ w.groups.map fun e => (e.definition.get "field").plain := by
  cases shape with
  | listed items =>
    intro n hn
    obtain ⟨c, hc, rfl⟩ := mem_map.mp hn
    obtain ⟨⟨e, i⟩, he, rfl⟩ := mem_map.mp hc
    exact mem_map.mpr ⟨e, (mem_zipIdx' he).2 ▸ getElem_mem _, rfl⟩
  | absent => simp [heldBy, Conditions.names, Conditions.items]
  | text s => simp [heldBy, Conditions.names, Conditions.items]

theorem compileBy_congr (r : Resolution) {a b : Action String} (h : a w = b w) :
    r.compileBy a w = r.compileBy b w := by
  refine bind_congr rfl fun p w1 hp => ?_
  obtain ⟨rfl, rfl⟩ := project_eq_ok.mp hp
  refine bind_congr rfl fun isMerged w1 hmg => ?_
  obtain ⟨-, rfl⟩ := lift_eq_ok.mp hmg
  cases isMerged with
  | true => rfl
  | false =>
    refine bind_congr rfl fun given w1 hget => ?_
    cases hget
    refine bind_congr ?_ fun _ _ _ => rfl
    unfold outcome
    rw [h]

section

variable {r : Resolution}

theorem compileMergedAfter_follows (hmg : Follows V Store.Any r.compileMerged)
    (attempted : Bool) : Follows V Store.Any (r.compileMergedAfter attempted) :=
  hmg.tryCatch_any fun _ => .ite (.of_throw _) (.of_throw _)

theorem compileBy_follows [Frame V]
    (hgv : ∀ w w', V w w' → w'.request.dimensions = w.request.dimensions)
    (hmg : ∀ dimensions,
      Follows V Store.Any ({ r with dimensions := dimensions } : Resolution).compileMerged)
    {attempt : Action String} (hatt : Follows V Store.Any attempt) :
    Follows V Store.Any (r.compileBy attempt) := by
  refine .project_bind fun p' _ => .result_bind fun isMerged =>
    .ite ((compileMergedAfter_follows (hmg r.dimensions) false).bind fun _ => .of_pure _) ?_
  refine .get_bind (fun w w' hw => by rw [hgv w w' hw]) fun w _ _ => ?_
  refine hatt.outcome_any.bind fun found => ?_
  cases found with
  | ok sql => exact .of_pure _
  | error e =>
    refine .ite (bind ?_ fun _ => .of_pure _) (.of_throw e)
    exact .get_bind (fun w w' hw => by rw [hgv w w' hw]) fun w _ _ =>
      compileMergedAfter_follows (hmg _) true

variable [Veil V] [IsPreorder Store S]

theorem compileMerged_follows
    (hadd : Spared V S fun p => p.seen.AllAdditive (some r.model) r.metrics) :
    Follows V S r.compileMerged :=
  (current_follows .rows r.wheres).bind fun _ => (current_follows .groups r.havings).bind fun _ =>
    (MergedQuery.compile_follows hadd r.funnel).bind
      fun _ => .of_result _

theorem compileSingle_follows
    (hadd : ∀ names, Spared V S fun p => p.seen.AllAdditive (some r.model) names) :
    Follows V S r.compileSingle :=
  (current_follows .rows r.wheres).bind fun _ => (current_follows .groups r.havings).bind fun _ =>
    (SingleQuery.compile_follows (hadd _)).bind fun _ => .of_result _

omit [IsPreorder Store S] in
theorem compile_follows
    (hadd : ∀ names, Spared V Store.Any fun p => p.seen.AllAdditive (some r.model) names)
    (hgv : ∀ w w', V w w' → w'.request.dimensions = w.request.dimensions) :
    Follows V Store.Any r.compile :=
  compileBy_follows hgv (fun _ => compileMerged_follows (hadd _)) (compileSingle_follows hadd)

end

end Resolution

/-! ### Requests -/

/-- Related workspaces stay related through what a request changes in its project. -/
class Action.Steady (V : Workspace → Workspace → Prop) (S : Store → Store → Prop) : Prop
    extends Holds V where
  setAlways : ∀ i always, Follows V S (edit fun p => .ok (p.setAlways i always))
  schema : ∀ schema : Value,
    Follows V S (modify fun w => { w with project := { w.project with schema := schema } })

/-- Related workspaces stay related when any conditions on groups are taken up. -/
class Action.Responsive (V : Workspace → Workspace → Prop) (S : Store → Store → Prop) : Prop
    extends Steady V S where
  takeGroups : ∀ {w w'} (groups : List Entry), V w w' →
    V { w with groups := groups } { w' with groups := groups }

namespace Resolution

section

variable [Steady V S] [IsPreorder Store S]

theorem alwaysFor_follows (more : Definition) (name : String) :
    Follows V S (alwaysFor more name) := by
  refine .project_bind fun p _ => ?_
  cases p.seen.getField name with
  | error e => exact .of_pure _
  | ok f =>
    dsimp only
    split
    · exact (Steady.setAlways _ _).bind fun _ => .of_pure _
    · exact .of_pure _

theorem always_follows (m : Model) (names : List String) : Follows V S (always m names) :=
  .project_bind fun _ _ => .result_bind fun _ =>
    (Follows.mapM fun n _ => alwaysFor_follows _ n).bind fun _ => .of_result _

end

theorem takeUp_follows [IsPreorder Store S] {side :
    Side} {v : Value} (hwrite : ∀ {w w'} (entries : List Entry), V w w' →
    V (match side with
        | .rows => { w with rows := entries }
        | .groups => { w with groups := entries })
      (match side with
        | .rows => { w' with rows := entries }
        | .groups => { w' with groups := entries })) : Follows V S (takeUp side v) := by
  unfold takeUp
  split
  · exact .of_pure _
  · exact .of_pure _
  · refine .result_bind fun entries => (of_modify (fun w w' hw => hwrite entries hw)
      fun _ => ?_).bind fun _ => .of_pure _
    cases side <;> exact refl_of S _

theorem takeRows_follows [Holds V] [IsPreorder Store S] (v : Value) :
    Follows V S (takeUp .rows v) :=
  takeUp_follows fun entries hw => Holds.writeRows entries hw

/-- The request with its model, its connection and its conditions; its names are still to be
resolved. -/
def taken (connections : List Connection) (r : Request) : Action Resolution := do
  modify fun w => { w with request := r, rows := [], groups := [] }
  let m ← modelFor (← Action.project) r
  let given := if r.wheres.truthy then r.wheres else .list []
  let given ← addAlways given (← always m (r.metrics ++ r.dimensions))
  let connection := connections.find? fun c => c.name.same (m.definition.get "connection")
  let warehouse ← warehouseFor connection r.options
  let schema := (connection.map Connection.schema).getD .null
  modify fun w => { w with project := { w.project with schema := schema } }
  let wheres ← takeUp .rows given
  let havings ← takeUp .groups r.havings
  let orders ← SingleQuery.orderItems r.orders
  return { model := m, connection := connection, warehouse := warehouse, metrics := r.metrics,
           dimensions := r.dimensions, funnel := r.funnel, wheres := wheres, havings := havings,
           orders := orders, options := r.options }

theorem ofRequest_eq (connections : List Connection) (r : Request) :
    ofRequest connections r = taken connections r >>= resolveNames := by
  unfold ofRequest taken
  simp only [bind_assoc, pure_bind]

section

variable [Responsive V S] [IsPreorder Store S] {r : Request}
  (htake : ∀ w w', V w w' → V { w with request := r } { w' with request := r })
  (connections : List Connection)
include htake

theorem taken_follows : Follows V S (taken connections r) := by
  refine bind (.of_modify (fun w w' hw => ?_) fun _ => refl_of S _) fun _ =>
    .project_bind fun p _ => ?_
  · exact Responsive.takeGroups (S := S) [] (Holds.writeRows [] (htake w w' hw))
  refine .result_bind fun m => (always_follows m _).bind fun always => ?_
  refine (addAlways_follows _ always).bind fun given => .result_bind fun warehouse => ?_
  refine (Steady.schema _).bind fun _ => ?_
  exact (takeRows_follows given).bind fun _ =>
    (takeUp_follows fun groups hw => Responsive.takeGroups (S := S) groups hw).bind fun _ =>
      .result_bind fun _ => .of_pure _

theorem ofRequest_follows [Glass V] : Follows V S (ofRequest connections r) := by
  rw [ofRequest_eq]
  exact (taken_follows htake connections).bind fun r => resolveNames_follows r

end

end Resolution

theorem Request.compile_follows [Veil V] [Responsive V Store.Any] {r : Request}
    (hV : Windowed V Store.Any)
    (hgv : ∀ w w', V w w' → w'.request.dimensions = w.request.dimensions)
    (htake : ∀ w w', V w w' → V { w with request := r } { w' with request := r })
    (connections : List Connection) : Follows V Store.Any (r.compile connections) :=
  (Resolution.ofRequest_follows htake connections).bind fun _ =>
    (Resolution.compile_follows (fun _ => .inl hV) hgv).bind fun _ => .of_pure _

end SemanticLayer
