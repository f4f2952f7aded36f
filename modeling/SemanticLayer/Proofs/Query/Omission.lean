import SemanticLayer.Proofs.Filter.Shared
import SemanticLayer.Proofs.Query.ParallelCompile

/-!
# Conditions that are left out

A request may give no conditions on groups and no order, or empty lists of them.  As long as no
condition asks for a funnel, a selection is compiled in the same way (`Selection.Alike.compile_eq`),
and so are merged results.  A query of cumulative metrics fails without the list
(`SingleQuery.compile_bare`).
-/

namespace SemanticLayer

open SemanticLayer.Action List Result

variable {found : List Definition} {w w' : Workspace}

/-! ### Selections -/

namespace Selection

/-- Two selections of the same columns under the same conditions on rows.  No condition asks for a
funnel, and neither selection has conditions on groups or an order. -/
structure Alike (q q' : Selection) : Prop where
  eq : q' = { q with havings := q'.havings, orders := q'.orders, events := q'.events }
  funnelFree : q.wheres.IsFunnelFree
  havings : q.havings.isGiven = false ∧ q'.havings.isGiven = false
  orders : q.orders.truthy = false ∧ q'.orders.truthy = false

variable {q q' : Selection} {d : Design}

theorem Alike.exists_eq (h : q.Alike q') : ∃ havings orders events,
    q' = { q with havings := havings, orders := orders, events := events } :=
  ⟨_, _, _, h.eq⟩

theorem Alike.read_eq (h : q.Alike q') (d : Design) : q'.read d = q.read d := by
  have hhav : q'.readHavings d = q.readHavings d := by
    unfold readHavings
    rw [h.havings.1, h.havings.2]
    rfl
  have horder : q'.readOrder d = q.readOrder d := by
    unfold readOrder
    rw [h.orders.1, h.orders.2]
    rfl
  unfold read
  rw [hhav, horder]
  obtain ⟨_, _, _, rfl⟩ := h.exists_eq
  rfl

theorem Alike.build_eq (h : q.Alike q') {compilers : Compilers}
    (hc : ∀ {q q' : Selection} (d : Design), q.Alike q' →
      compilers.select q' d = compilers.select q d)
    {r : Reading} (hr : r.funnels = []) (d : Design) :
    q'.build compilers d r = q.build compilers d r := by
  have hfn : funnelTables compilers q' d r = funnelTables compilers q d r := by
    unfold funnelTables
    rw [hr]
  obtain ⟨havings, orders, events, rfl⟩ := h.exists_eq
  -- the table of a window is a selection of its own, with the conditions on rows
  have hwindow : windowPart compilers { q with havings, orders, events } = windowPart compilers q := by
    funext d x
    unfold windowPart windowTable
    have hselect : ∀ metrics dimensions, compilers.select
          { metrics, dimensions, wheres := q.wheres, havings := .listed [], events := events }
        = compilers.select
          { metrics, dimensions, wheres := q.wheres, havings := .listed [], events := q.events } :=
      fun metrics dimensions => funext fun d => hc d ⟨rfl, h.funnelFree, ⟨rfl, rfl⟩, rfl, rfl⟩
    simp only [hselect]
  unfold build
  rw [hfn, hwindow]
  rfl

theorem Alike.compileWithin_eq (depth : Nat) (h : q.Alike q') (d : Design) :
    compileWithin depth q' d = compileWithin depth q d := by
  induction depth generalizing q q' d with
  | zero => rfl
  | succ depth ih =>
    funext w
    refine bind_congr (congrFun (h.read_eq d) w) fun r w1 hrun => ?_
    rw [h.read_eq] at hrun
    exact congrFun (h.build_eq (fun d h => ih h d) (funnels_read hrun h.funnelFree) d) w1

theorem Alike.compile_eq (h : q.Alike q') (d : Design) : q'.compile d = q.compile d :=
  h.compileWithin_eq nestingLimit d

end Selection

/-! ### Single queries and merged results -/

namespace SingleQuery

/-- The query without conditions on groups and without an order. -/
def bare (q : SingleQuery) : SingleQuery := { q with havings := .absent, orders := .absent }

/-- The conditions on groups and the order are empty lists, the query is no funnel, and none of its
conditions asks for one. -/
structure IsUnasked (q : SingleQuery) : Prop where
  havings : q.havings = .listed []
  orders : q.orders = .listed []
  funnel : q.funnel = .map []
  funnelFree : q.wheres.IsFunnelFree

/-- The design of the query, whether its rows stand by themselves and whether it has cumulative
metrics. -/
def opening (p : Project) (q : SingleQuery) : Result (Design × Bool × Bool) := do
  let names ← namesOf q.wheres
  let warehouse ← q.needWarehouse
  let (fields, isUngrouped, isCumulative) ← q.fields p names
  return (q.design warehouse fields, isUngrouped, isCumulative)

def IsCumulative (p : Project) (q : SingleQuery) : Prop :=
  ∃ d isUngrouped, q.opening p = .ok (d, isUngrouped, true)

variable {q : SingleQuery}

theorem IsUnasked.selection_alike (hq : q.IsUnasked) (isUngrouped : Bool) :
    (q.selection isUngrouped).Alike (q.bare.selection isUngrouped) where
  eq := rfl
  funnelFree := hq.funnelFree
  havings := by
    refine ⟨?_, rfl⟩
    change q.havings.isGiven = false
    rw [hq.havings]
    rfl
  orders := by
    refine ⟨?_, rfl⟩
    change (shownConditions q.orders).truthy = false
    rw [hq.orders]
    rfl

def compileOpened (q : SingleQuery) (o : Design × Bool × Bool) : Action Compiled :=
  if o.2.2 then do return .closed (← q.cumulative.compile o.1)
  else do return .statement (← (q.selection o.2.1).compile o.1)

/-- What is compiled of a query is decided when it is opened, unless its conditions on groups or its
order have names of their own. -/
theorem compile_apply (hfn : isFunnel q.funnel = .ok false)
    (hhav : namesOf q.havings = .ok []) (horders : namesOf q.orders = .ok []) (w : Workspace) :
    q.compile w = match q.opening w.project.seen with
      | .error e => (.error e, w)
      | .ok o => q.compileOpened o w := by
  unfold compile opening
  rw [hfn, hhav, horders, bind_of_eq_ok (lift_apply _ _)]
  cases namesOf q.wheres with
  | error e => rw [bind_of_eq_error (lift_apply _ _)]; rfl
  | ok names =>
    rw [bind_of_eq_ok (lift_apply _ _), bind_of_eq_ok (lift_apply _ _),
      bind_of_eq_ok (lift_apply _ _), ok_bind]
    cases q.needWarehouse with
    | error e => rw [bind_of_eq_error (lift_apply _ _)]; rfl
    | ok warehouse =>
      rw [bind_of_eq_ok (lift_apply _ _), project_bind_apply, append_nil, append_nil,
        ok_bind]
      cases q.fields w.project.seen names with
      | error e => rw [bind_of_eq_error (lift_apply _ _)]; rfl
      | ok found =>
        obtain ⟨fields, isUngrouped, isCumulative⟩ := found
        rw [bind_of_eq_ok (lift_apply _ _), ok_bind]
        cases isCumulative with
        | false => simp [compileOpened, pure, Except.pure]
        | true => simp [compileOpened, pure, Except.pure]

theorem compile_cumulative_absent {q : CumulativeQuery} (hq : q.havings = .absent) (d : Design)
    (w : Workspace) : q.compile d w = (malformed .wrongType, w) := by
  have hfs : q.metricFields w.project.seen d = malformed .wrongType := by
    unfold CumulativeQuery.metricFields CumulativeQuery.allNames
    rw [hq]
    rfl
  unfold CumulativeQuery.compile
  rw [project_bind_apply, hfs]
  exact bind_of_eq_error (lift_apply _ _)

/-- **Where conditions on groups and an order are left out, a query of cumulative metrics fails and
every other one is compiled as if empty lists had been given.** -/
theorem IsUnasked.compile_bare (hq : q.IsUnasked) (w : Workspace) :
    (¬ q.IsCumulative w.project.seen → q.bare.compile w = q.compile w) ∧
    (q.IsCumulative w.project.seen → q.bare.compile w = (malformed .wrongType, w)) := by
  have hfn : isFunnel q.funnel = .ok false := by
    rw [hq.funnel]
    rfl
  have hopening : q.bare.opening w.project.seen = q.opening w.project.seen := rfl
  rw [compile_apply hfn (by rw [hq.havings]; rfl) (by rw [hq.orders]; rfl),
    compile_apply (q := q.bare) hfn rfl rfl, hopening]
  unfold IsCumulative
  rcases q.opening w.project.seen with e | ⟨d, isUngrouped, _ | _⟩
  · exact ⟨fun _ => rfl, fun ⟨_, _, h⟩ => nomatch h⟩
  · refine ⟨fun _ => ?_, fun ⟨_, _, h⟩ => nomatch h⟩
    change q.bare.compileOpened (d, isUngrouped, false) w
      = q.compileOpened (d, isUngrouped, false) w
    have hcp := (hq.selection_alike isUngrouped).compile_eq d
    simp only [compileOpened, Bool.false_eq_true, if_false, hcp]
  · exact ⟨fun h => absurd ⟨d, isUngrouped, rfl⟩ h,
      fun _ => bind_of_eq_error (compile_cumulative_absent rfl d w)⟩

end SingleQuery

namespace MergedQuery

theorem compile_bare {q : MergedQuery} (hq : q.havings = .listed []) (funnel : Value) :
    ({ q with havings := .absent } : MergedQuery).compile funnel = q.compile funnel := by
  unfold compile
  rw [hq]
  rfl

end MergedQuery

/-! ### Workspaces with different requests -/

/-- The workspaces differ in nothing but the request at hand, of the same dimensions, and work on no
conditions on groups. -/
structure Workspace.Besides (w w' : Workspace) : Prop where
  eq : w' = { w with request := w'.request }
  dimensions : w'.request.dimensions = w.request.dimensions
  groups : w.groups = []

namespace Action

instance : Kept Workspace.Besides where
  seen h := by rw [h.eq]
  rows h := by rw [h.eq]
  groups h := by rw [h.eq]
  writeRows _ h := ⟨by rw [h.eq], h.dimensions, h.groups⟩
  writeGroups _ h hv hlen :=
    ⟨by rw [h.eq], h.dimensions, eq_nil_of_length_eq_zero (by rw [hlen, hv.groups]; rfl)⟩
  writeRequest hf h := ⟨by rw [h.eq], hf _ _ h.dimensions, h.groups⟩
  sameGraph h := by rw [h.eq]
  sameMerged h := by rw [h.eq]
  sameMemory h := by rw [h.eq]
  keepGraph _ h := ⟨by rw [h.eq], h.dimensions, h.groups⟩
  keepMerged _ _ h := ⟨by rw [h.eq], h.dimensions, h.groups⟩
  remember _ h := ⟨by rw [h.eq], h.dimensions, h.groups⟩

theorem edit_besides (change : Store → Result Store) :
    Follows Workspace.Besides Store.Any (edit change) := by
  intro w w' h
  rw [edit_apply, edit_apply, show w'.project = w.project by rw [h.eq]]
  cases change w.project with
  | error e => exact ⟨rfl, h, fun _ h => nomatch h⟩
  | ok p => exact ⟨rfl, ⟨by rw [h.eq], h.dimensions, h.groups⟩, fun _ _ => trivial⟩

theorem besides_windowed : Windowed Workspace.Besides Store.Any :=
  .of_edit edit_besides

instance : Steady Workspace.Besides Store.Any where
  setAlways _ _ := edit_besides _
  schema _ := .of_modify (fun _ _ h => ⟨by rw [h.eq], h.dimensions, h.groups⟩) fun _ => trivial

end Action

/-! ### Resolved requests -/

namespace Resolution

/-- The request without conditions on groups and without an order. -/
def bare (r : Resolution) : Resolution := { r with havings := .absent, orders := .absent }

/-- The conditions on groups and the order are empty lists, and no funnel is asked for. -/
structure IsUnasked (r : Resolution) : Prop where
  havings : r.havings = .listed []
  orders : r.orders = .listed []
  funnel : r.funnel = .map []

/-- The request is tried as a single query, and that has cumulative metrics. -/
def IsCumulative (w : Workspace) (r : Resolution) : Prop :=
  r.asksForMerged w.project.seen = .ok false ∧
    (r.single (heldBy w .rows r.wheres) (heldBy w .groups r.havings)).IsCumulative w.project.seen

/-- No condition on rows that is worked on asks for a funnel. -/
def IsFunnelFree (w : Workspace) : Prop := ∀ e ∈ w.rows, e.definition.asksFunnel = false

theorem IsFunnelFree.heldBy (hw : IsFunnelFree w) (shape : Conditions) :
    (heldBy w .rows shape).IsFunnelFree := by
  cases shape with
  | absent => exact fun _ hc => nomatch hc
  | text s => exact fun _ hc => nomatch hc
  | listed items =>
    intro c hc
    obtain ⟨⟨e, i⟩, he, rfl⟩ := mem_map.mp hc
    exact hw e ((mem_zipIdx' he).2 ▸ getElem_mem _)

variable {r : Resolution} {w : Workspace}

section

variable (hr : r.IsUnasked) (hgroups : w.groups = [])
include hr hgroups

theorem IsUnasked.heldBy_eq : heldBy w .groups r.havings = .listed [] := by
  rw [hr.havings]
  unfold heldBy
  rw [hgroups]
  rfl

theorem IsUnasked.compileMerged_bare : r.bare.compileMerged w = r.compileMerged w := by
  rw [compileMerged_apply, compileMerged_apply]
  rw [hr.heldBy_eq hgroups]
  have hcp := MergedQuery.compile_bare (q :=
    { metrics := r.metrics, dimensions := r.dimensions, wheres := heldBy w .rows r.wheres,
      havings := .listed [], model := some r.model, warehouse := r.warehouse,
      options := r.options }) rfl r.funnel
  exact congrArg (fun a : Action Sql.Statement => (do return ← (← a).render : Action String) w)
    hcp

theorem IsUnasked.compileMergedAfter_bare (attempted : Bool) :
    r.bare.compileMergedAfter attempted w = r.compileMergedAfter attempted w := by
  unfold compileMergedAfter
  rw [tryCatch_apply, tryCatch_apply, hr.compileMerged_bare hgroups]

theorem IsUnasked.compileFallback_bare (given : List String) :
    r.bare.compileFallback given w = r.compileFallback given w := by
  unfold compileFallback
  rw [get_bind, get_bind]
  let added := w.request.dimensions.drop given.length
  have hr' : { r with dimensions := r.dimensions ++ added }.IsUnasked :=
    ⟨hr.havings, hr.orders, hr.funnel⟩
  exact hr'.compileMergedAfter_bare hgroups true

theorem IsUnasked.single_unasked (hrs : IsFunnelFree w) :
    (r.single (heldBy w .rows r.wheres) (heldBy w .groups r.havings)).IsUnasked where
  havings := hr.heldBy_eq hgroups
  orders := hr.orders
  funnel := hr.funnel
  funnelFree := hrs.heldBy r.wheres

theorem IsUnasked.compileSingle_bare (hrs : IsFunnelFree w)
    (hnot : ¬ (r.single (heldBy w .rows r.wheres) (heldBy w .groups r.havings)).IsCumulative
      w.project.seen) : r.bare.compileSingle w = r.compileSingle w := by
  have hcp := ((hr.single_unasked hgroups hrs).compile_bare w).1 hnot
  rw [compileSingle_apply, compileSingle_apply]
  exact bind_congr hcp fun _ _ _ => rfl

theorem IsUnasked.compileSingle_cumulative (hrs : IsFunnelFree w)
    (h : (r.single (heldBy w .rows r.wheres) (heldBy w .groups r.havings)).IsCumulative
      w.project.seen) : r.bare.compileSingle w = (malformed .wrongType, w) := by
  have hcp := ((hr.single_unasked hgroups hrs).compile_bare w).2 h
  rw [compileSingle_apply]
  exact bind_of_eq_error hcp

/-- **The same of a resolved request.** -/
theorem IsUnasked.compile_bare (hrs : IsFunnelFree w) :
    (¬ r.IsCumulative w → r.bare.compile w = r.compile w) ∧
    (r.IsCumulative w → r.bare.compile w = (malformed .wrongType, w)) := by
  have hasks : r.bare.asksForMerged w.project.seen = r.asksForMerged w.project.seen := rfl
  unfold compile compileBy IsCumulative
  rw [project_bind_apply, project_bind_apply, hasks]
  cases r.asksForMerged w.project.seen with
  | error e =>
    rw [bind_of_eq_error (lift_apply _ _)]
    exact ⟨fun _ => rfl, fun h => nomatch h.1⟩
  | ok isMerged =>
    rw [bind_of_eq_ok (lift_apply _ _), bind_of_eq_ok (lift_apply _ _)]
    cases isMerged with
    | true =>
      exact ⟨fun _ => bind_congr (hr.compileMergedAfter_bare hgroups false) fun _ _ _ => rfl,
        fun h => nomatch h.1⟩
    | false =>
      refine ⟨fun hnot => ?_, fun ⟨_, hcum⟩ => ?_⟩
      · have hsg := hr.compileSingle_bare hgroups hrs fun h => hnot ⟨rfl, h⟩
        -- the attempt leaves no conditions on groups for the merged results either
        have hleft : (r.compileSingle w).2.groups = [] :=
          ((r.compileSingle_follows fun _ => .inl besides_windowed) w w
            ⟨rfl, rfl, hgroups⟩).2.1.groups
        rw [if_neg (by decide), if_neg (by decide), get_bind, get_bind]
        refine bind_congr (by rw [outcome_apply, outcome_apply, hsg]) fun found w1 hrun => ?_
        rw [outcome_apply, hsg] at hrun
        rw [(Prod.mk.inj hrun).2] at hleft
        cases found with
        | ok sql => rfl
        | error e =>
          dsimp only
          by_cases hj : (e.kind == .join && !(r.options.get "single_query").truthy) = true
          · rw [if_pos hj]
            exact (congrArg (fun a : Action (String × QueryKind) => a w1) (if_pos hj)).trans <|
              bind_congr (hr.compileFallback_bare hleft _) fun _ _ _ => rfl
          · rw [if_neg hj]
            exact congrArg (fun a : Action (String × QueryKind) => a w1) (if_neg hj)
      · have hsg := hr.compileSingle_cumulative hgroups hrs hcum
        rw [if_neg (by decide), get_bind]
        refine (bind_of_eq_ok (outcome_apply _ _)).trans ?_
        rw [hsg]
        rfl

end

/-! ### Resolving without conditions on groups -/

/-- A resolved request, and the same one without conditions on groups and without an order. -/
def Stripped (r r' : Resolution) : Prop := r' = r.bare ∧ r.IsUnasked

theorem step_sides {m : Model} {mappings : Result Definition} {names names' : Names} {n : String}
    (h : names.step m mappings n w = (.ok names', w')) :
    names'.groups = names.groups ∧ names'.orders = names.orders := by
  obtain ⟨d, w1, -, h⟩ := of_bind h
  obtain ⟨mapped, w2, -, h⟩ := of_bind h
  cases mapped with
  | some d =>
    obtain ⟨rfl, -⟩ := pure_eq_ok.mp h
    split_ifs <;> exact ⟨rfl, rfl⟩
  | none =>
    obtain ⟨p, w3, -, h⟩ := of_bind h
    obtain ⟨f, w4, -, h⟩ := of_bind h
    obtain ⟨graphs, -, rfl⟩ := of_bind_pure h
    split_ifs <;> exact ⟨rfl, rfl⟩

section

variable {names : Names} (hgroups : names.groups = []) (horders : names.orders = [])
  {r' : Resolution}
include hgroups horders

theorem Stripped.replace (h : Stripped r r') (old : String) (f : Field) :
    Parallel Workspace.Besides Stripped (r.replace names old f) (r'.replace names old f) := by
  obtain ⟨rfl, hr⟩ := h
  have hunused : ∀ shape, replaceUsed .groups names.groups old f.id shape = pure shape := by
    intro shape
    unfold replaceUsed
    rw [hgroups]
    rfl
  have hunordered : ∀ shape, replaceOrdered names.orders old f.id shape = .ok shape := by
    intro shape
    unfold replaceOrdered
    rw [horders]
    rfl
  unfold Resolution.replace
  simp only [hunused, hunordered]
  refine (Follows.of_request (isRewriting_replace r old f)).bind_parallel fun _ => ?_
  refine (replaceUsed_follows .rows names.rows old f.id r.wheres).bind_parallel fun wheres => ?_
  exact .of_pure ⟨rfl, hr.havings, hr.orders, hr.funnel⟩

theorem Stripped.replaceAmong (h : Stripped r r') :
    Parallel Workspace.Besides Stripped (r.replaceAmong names) (r'.replaceAmong names) := by
  refine (Follows.of_result _).bind_parallel fun graphs => .foldlM (fun s t x _ hs => ?_) h
  obtain ⟨rfl, hs⟩ := hs
  refine (replacement_follows s names graphs x.2).bind_parallel fun ⟨f, isMerged⟩ => ?_
  exact Stripped.replace (r := { s with isMerged := s.isMerged || isMerged }) hgroups horders
    ⟨rfl, hs.havings, hs.orders, hs.funnel⟩ x.1 f

theorem Stripped.replaceAlone (h : Stripped r r') :
    Parallel Workspace.Besides Stripped (r.replaceAlone names) (r'.replaceAlone names) := by
  unfold Resolution.replaceAlone
  split
  · exact .of_pure h
  · refine (Follows.of_result _).bind_parallel fun first => ?_
    refine .project_bind fun p hp => (Follows.of_result _).bind_parallel_of fun f w w1 hrun => ?_
    have hf := Project.Finds.named (lift_eq_ok.mp hrun).1
    refine (Glass.joinGraphs hp hf).bind_parallel fun graphs => ?_
    refine (Stripped.replace hgroups horders h _ f).bind fun s t hst => ?_
    refine .foldlM (fun s t x _ hst => (Follows.of_result _).bind_parallel fun graphs => ?_) hst
    exact (fitting_follows x.2 graphs).bind_parallel fun g =>
      Stripped.replace hgroups horders hst x.1 g

end

theorem Stripped.resolveNames {r' : Resolution} (h : Stripped r r') :
    Parallel Workspace.Besides Stripped r.resolveNames r'.resolveNames := by
  have hgroups : Parallel Workspace.Besides
      (fun c c' => SingleQuery.namesOf c = .ok [] ∧ SingleQuery.namesOf c' = .ok [])
      (current .groups r.havings) (current .groups r'.havings) := by
    intro w w' hw
    obtain ⟨rfl, hr⟩ := h
    refine ⟨.ok ⟨?_, rfl⟩, hw⟩
    rw [hr.heldBy_eq hw.groups]
    rfl
  have horders : SingleQuery.namesOf r.orders = .ok [] ∧
      SingleQuery.namesOf r'.orders = .ok [] := by
    obtain ⟨rfl, hr⟩ := h
    rw [hr.orders]
    exact ⟨rfl, rfl⟩
  have hwh : r'.wheres = r.wheres := by rw [h.1]; rfl
  have hmd : r'.model = r.model := by rw [h.1]; rfl
  have hns : r'.metrics ++ r'.dimensions = r.metrics ++ r.dimensions := by rw [h.1]; rfl
  unfold Resolution.resolveNames
  rw [hwh, hmd, horders.1, horders.2, hns]
  refine (current_follows .rows r.wheres).bind_parallel fun wheres => ?_
  refine (Follows.of_result _).bind_parallel fun rows => hgroups.bind fun c c' hc => ?_
  rw [hc.1, hc.2]
  refine (Follows.of_result _).bind_parallel_of fun groups w w1 hrun => ?_
  obtain rfl : [] = groups := Except.ok.inj (lift_eq_ok.mp hrun).1
  refine (Follows.of_result _).bind_parallel_of fun orders w w1 hrun => ?_
  obtain rfl : [] = orders := Except.ok.inj (lift_eq_ok.mp hrun).1
  refine Follows.of_project.bind_parallel fun p => ?_
  refine (Follows.foldlM (fun names n _ => step_follows _ _ names n) _).bind_parallel_of
    fun names w w1 hrun => ?_
  have hsides : names.groups = [] ∧ names.orders = [] :=
    foldlM_induct (P := fun names : Names => names.groups = [] ∧ names.orders = []) _ hrun
      ⟨rfl, rfl⟩ fun s n s' w w' hs hrun =>
        ⟨(step_sides hrun).1.trans hs.1, (step_sides hrun).2.trans hs.2⟩
  refine .ite (.of_pure h) (.ite ?_ ?_)
  · exact h.replaceAlone hsides.1 hsides.2
  · exact h.replaceAmong hsides.1 hsides.2

/-! ### What views always ask for -/

theorem conditions_funnelFree {almanac : Almanac} {d : Definition}
    (h : Filter.conditions almanac d = .ok found) : ∀ x ∈ found, x.asksFunnel = false := by
  have hn : ∀ e : Expression, e.name ≠ "converted" ∧ e.name ≠ "dropped_off" := by
    intro e
    cases e <;> decide
  rw [Filter.conditions, Filter.conditionsOn] at h
  split at h
  · cases h
  rw [(Filter.readOn_forgets _ _ _ _).alone_bind fun _ => .of_pure _] at h
  obtain ⟨pairs, -, h⟩ := of_bind h
  cases h
  intro x hx
  obtain ⟨⟨e, v⟩, -, rfl⟩ := mem_map.mp hx
  simp [Definition.asksFunnel, Value.isTextOf, hn e]

theorem alwaysOf_funnelFree {p : Project} {view : String} {more : Definition} {items : List Value}
    (h : (alwaysOf p view more items).2 = some found) :
    ∀ x ∈ found, x.asksFunnel = false := by
  induction items generalizing found with
  | nil =>
    cases h
    exact fun _ hx => nomatch hx
  | cons v rest ih =>
    unfold alwaysOf at h
    split at h
    · cases h
    · cases h
    · rename_i v' own hs
      obtain ⟨others, hoth, rfl⟩ := Option.map_eq_some_iff.mp h
      intro x hx
      obtain hx | hx := mem_append.mp hx
      · obtain ⟨d, -, hs⟩ := of_bind hs
        obtain ⟨value, -, hs⟩ := of_bind hs
        obtain ⟨field, -, hs⟩ := of_bind hs
        exact conditions_funnelFree (Prod.mk.inj (Except.ok.inj hs)).2 x hx
      · exact ih hoth x hx

theorem distinct_subset {kept : List Definition} (h : distinct found = .ok kept) :
    kept ⊆ found := by
  have hfold : ∀ (l acc : List Definition),
      l.foldl (fun acc d => if acc.any (sameCondition d) then acc else acc ++ [d]) acc
        ⊆ acc ++ l := by
    intro l
    induction l with
    | nil => exact fun acc => by simp
    | cons d l ih =>
      intro acc x hx
      have hx := ih _ hx
      dsimp only at hx
      split_ifs at hx
      · simp only [mem_append] at hx ⊢
        tauto
      · simp only [mem_append, mem_cons] at hx ⊢
        tauto
  unfold distinct at h
  split_ifs at h
  · cases h
    exact fun x hx => by simpa using hfold found [] hx
  · cases h

theorem always_funnelFree {m : Model} {names : List String}
    (h : always m names w = (.ok found, w')) :
    ∀ x ∈ found, x.asksFunnel = false := by
  obtain ⟨p, w1, -, h⟩ := of_bind h
  obtain ⟨zone, w2, -, h⟩ := of_bind h
  obtain ⟨lists, w3, hli, h⟩ := of_bind h
  intro x hx
  obtain ⟨l, hl, hx⟩ := mem_flatten.mp (distinct_subset (lift_eq_ok.mp h).1 hx)
  obtain ⟨n, -, w4, w5, hrun⟩ := exists_of_mem_mapM hli hl
  obtain ⟨p, w6, -, hrun⟩ := of_bind hrun
  cases hfld : p.getField n with
  | error e =>
    rw [hfld] at hrun
    obtain ⟨rfl, -⟩ := pure_eq_ok.mp hrun
    cases hx
  | ok f =>
    rw [hfld] at hrun
    dsimp only at hrun
    cases halways : f.view.always with
    | list items =>
      rw [halways] at hrun
      obtain ⟨u, -, rfl⟩ := of_bind_pure hrun
      cases hfd : (alwaysOf p f.view.name
        [("week_start_day", m.definition.get "week_start_day"), ("timezone", zone)] items).2 with
      | none =>
        rw [hfd] at hx
        cases hx
      | some found =>
        rw [hfd] at hx
        exact alwaysOf_funnelFree hfd x hx
    | _ =>
      rw [halways] at hrun
      obtain ⟨rfl, -⟩ := pure_eq_ok.mp hrun
      cases hx

/-! ### Resolving keeps conditions free of funnels -/

/-- Where no condition on rows asks for a funnel, none does afterwards. -/
def FreeStep (w w' : Workspace) : Prop := IsFunnelFree w → IsFunnelFree w'

instance : IsPreorder Workspace FreeStep where
  refl _ := id
  trans _ _ _ h h' hw := h' (h hw)

theorem FreeStep.of_rows (h : w'.rows = w.rows) : FreeStep w w' := by
  intro hw
  unfold IsFunnelFree
  rw [h]
  exact hw

theorem joinGraphs_free (f : Field) : Moves FreeStep (joinGraphs f) := by
  intro w
  obtain ⟨found, -, h⟩ | ⟨-, w', hbuilds, ⟨e, h⟩ | ⟨found, h⟩⟩ := joinGraphs_cases f w
  · rw [h]
    exact refl_of _ w
  all_goals
    rw [h]
    exact .of_rows (by rw [hbuilds])

instance : Grows FreeStep where
  joinGraph w := .of_rows (by rw [joinGraph_builds w])
  joinGraphs := joinGraphs_free

theorem replaceSide_free (side : Side) (old new : String) (shape : Conditions) :
    Follows (Workspace.From FreeStep w) Store.Any (replaceSide side old new shape) := by
  cases shape with
  | text s => exact .of_pure _
  | absent => exact .of_pure _
  | listed items =>
    refine .get_bind (fun w1 w2 hw => by rw [hw.1]) fun w1 w2 hw => ?_
    cases side with
    | groups =>
      refine (Follows.mapM fun _ _ => .of_result _).bind fun _ =>
        Follows.bind (.of_moves fun w => ?_) fun _ => .of_pure _
      exact .of_rows rfl
    | rows =>
      refine (Follows.mapM fun _ _ => .of_result _).bind_of fun entries _ _ _ _ hrun =>
        (Follows.of_modify (fun w3 w4 h => ⟨by rw [h.1], fun hfree e he => ?_⟩)
          fun _ => trivial).bind fun _ => .of_pure _
      -- a condition with another field asks for a funnel no more than before
      obtain ⟨e0, he0, w5, w6, hrun⟩ := exists_of_mem_mapM hrun he
      obtain ⟨field, -, hrun⟩ := of_bind (lift_eq_ok.mp hrun).1
      cases hrun
      split_ifs
      · rw [Definition.asksFunnel_set (by decide), hw.2 hfree e0 he0]
      · exact hw.2 hfree e0 he0

theorem replace_free (r : Resolution) (names : Names) (old : String) (f : Field) :
    Follows (Workspace.From FreeStep w) Store.Any (r.replace names old f) := by
  have hused : ∀ side used shape, Follows (Workspace.From FreeStep w) Store.Any
      (replaceUsed side used old f.id shape) := fun side used shape =>
    .ite (replaceSide_free side old f.id shape) (.of_pure _)
  refine Follows.bind (.of_moves fun w => ?_) fun _ => (hused _ _ _).bind fun _ =>
    (hused _ _ _).bind fun _ => .result_bind fun _ => .of_pure _
  exact .of_rows rfl

end Resolution

/-! ### Requests -/

namespace Request

/-- The request without any conditions and without an order. -/
def bare (q : Request) : Request := { q with wheres := .null, havings := .null, orders := .null }

/-- Conditions and order are empty lists, and no funnel is asked for. -/
structure IsUnasked (q : Request) : Prop where
  wheres : q.wheres = .list []
  havings : q.havings = .list []
  orders : q.orders = .list []
  funnel : q.funnel = .map []

/-- The request is resolved, and tried as a single query with cumulative metrics. -/
def IsCumulative (connections : List Connection) (w : Workspace) (q : Request) : Prop :=
  ∃ r w', Resolution.ofRequest connections q w = (.ok r, w') ∧ r.IsCumulative w'

theorem IsUnasked.given {q : Request} (hq : q.IsUnasked) :
    (if q.wheres.truthy then q.wheres else .list []) = .list [] := by
  rw [hq.wheres]
  rfl

end Request

namespace Resolution

variable {q : Request}

theorem takeUp_bare : Parallel Workspace.Besides (fun c c' => c = .listed [] ∧ c' = .absent)
    (takeUp .groups (.list [])) (takeUp .groups .null) := by
  intro w w' h
  have hset : { w with groups := [] } = w := by rw [← h.groups]
  exact ⟨.ok ⟨rfl, rfl⟩, show Workspace.Besides { w with groups := [] } w' from hset.symm ▸ h⟩

theorem ofRequest_bare (hq : q.IsUnasked) (connections : List Connection) (w : Workspace) :
    Result.Related Stripped (ofRequest connections q w).1 (ofRequest connections q.bare w).1 ∧
      Workspace.Besides (ofRequest connections q w).2 (ofRequest connections q.bare w).2 := by
  unfold ofRequest
  rw [modify_bind, modify_bind, hq.given]
  refine Follows.bind_parallel (V := Workspace.Besides) .of_project (fun p => ?_) _ _
    ⟨rfl, rfl, rfl⟩
  refine (Follows.of_result _).bind_parallel fun m => ?_
  refine (always_follows m _).bind_parallel fun always => ?_
  refine (addAlways_follows _ always).bind_parallel fun given => ?_
  refine (Follows.of_result _).bind_parallel fun warehouse => ?_
  refine (Steady.schema _).bind_parallel fun _ => ?_
  refine (takeRows_follows given).bind_parallel fun wheres => ?_
  rw [hq.havings, hq.orders]
  refine takeUp_bare.bind fun c c' hc => ?_
  refine Parallel.bind (R := fun o o' => o = .listed [] ∧ o' = .absent) ?_ fun o o' ho => ?_
  · exact .of_result (.ok ⟨rfl, rfl⟩)
  obtain ⟨rfl, rfl⟩ := hc
  obtain ⟨rfl, rfl⟩ := ho
  exact Stripped.resolveNames ⟨rfl, rfl, rfl, hq.funnel⟩

theorem addAlways_nil {always : List Definition} {given : Value}
    (h : addAlways (.list []) always w = (.ok given, w')) : given = .list (always.map .map) := by
  unfold addAlways at h
  cases always with
  | nil => exact (pure_eq_ok.mp h).1.symm
  | cons d ds => exact (pure_eq_ok.mp h).1.symm

theorem takeUp_rows {items : List Value} {c : Conditions}
    (h : takeUp .rows (.list items) w = (.ok c, w')) :
    ∀ e ∈ w'.rows, .map e.definition ∈ items := by
  obtain ⟨entries, w1, hens, h⟩ := of_bind h
  have hrd := (lift_eq_ok.mp hens).1
  unfold entriesOf at hrd
  dsimp only [Value.iterate] at hrd
  rw [ok_bind] at hrd
  obtain ⟨ds, hds, hrd⟩ := of_bind hrd
  cases hrd
  obtain ⟨-, rfl⟩ := pure_eq_ok.mp h
  intro e he
  obtain ⟨⟨d, i⟩, hd, rfl⟩ := mem_map.mp he
  have hmem : d ∈ ds := (mem_zipIdx' hd).2 ▸ getElem_mem _
  obtain ⟨v, hv, hneed⟩ := exists_of_mem_mapM hds hmem
  cases v with
  | map d' =>
    cases hneed
    exact hv
  | _ => cases hneed

theorem ofRequest_funnelFree (hq : q.IsUnasked) {connections : List Connection}
    {r : Resolution} (h : ofRequest connections q w = (.ok r, w')) : IsFunnelFree w' := by
  unfold ofRequest at h
  rw [modify_bind, hq.given] at h
  obtain ⟨p, w1, -, h⟩ := of_bind h
  obtain ⟨m, w2, -, h⟩ := of_bind h
  obtain ⟨always, w3, halways, h⟩ := of_bind h
  obtain ⟨given, w4, hadd, h⟩ := of_bind h
  obtain ⟨warehouse, w5, -, h⟩ := of_bind h
  obtain ⟨u, w6, -, h⟩ := of_bind h
  obtain ⟨wheres, w7, hrs, h⟩ := of_bind h
  obtain ⟨havings, w8, hhav, h⟩ := of_bind h
  obtain ⟨orders, -, h⟩ := of_lift_bind h
  refine (resolveNames_follows_of _ replace_free).way h ?_
  have hgroups : w8.rows = w7.rows := by
    rw [hq.havings] at hhav
    have hw8 : w8 = { w7 with groups := [] } := (congrArg Prod.snd hhav).symm
    rw [hw8]
  intro e he
  rw [hgroups] at he
  rw [addAlways_nil hadd] at hrs
  obtain ⟨d, hd, heq⟩ := mem_map.mp (takeUp_rows hrs e he)
  cases heq
  exact always_funnelFree halways _ hd

end Resolution

theorem Resolution.outcome_eq (s : Resolution) (w : Workspace) : ((do
      let (sql, kind) ← s.compile
      return { sql := sql, kind := kind, warehouse := s.warehouse,
               connection := s.connection } : Action CompiledQuery) w).1
    = (s.compile w).1.map fun c => ⟨c.1, c.2, s.warehouse, s.connection⟩ :=
  fst_bind_pure (fun _ => rfl) _

/-- **A request for cumulative metrics fails where empty conditions are left out; every other one
ends as if they had been given.** -/
theorem Request.IsUnasked.compile_bare {q : Request} (hq : q.IsUnasked)
    (connections : List Connection) (w : Workspace) :
    (¬ q.IsCumulative connections w →
      (q.bare.compile connections w).1 = (q.compile connections w).1) ∧
    (q.IsCumulative connections w → (q.bare.compile connections w).1 = malformed .wrongType) := by
  obtain ⟨hrel, hbesides⟩ := Resolution.ofRequest_bare hq connections w
  unfold Request.compile IsCumulative
  rcases hrun : Resolution.ofRequest connections q w with ⟨x, w1⟩
  rcases hrun' : Resolution.ofRequest connections q.bare w with ⟨x', w1'⟩
  rw [hrun, hrun'] at hrel hbesides
  cases hrel with
  | error e =>
    rw [bind_of_eq_error hrun, bind_of_eq_error hrun']
    refine ⟨fun _ => rfl, ?_⟩
    rintro ⟨_, _, ⟨⟩, -⟩
  | ok hr =>
    obtain ⟨rfl, hr⟩ := hr
    rename_i r
    rw [bind_of_eq_ok hrun, bind_of_eq_ok hrun']
    have hfollows := (Resolution.compile_follows (r := r.bare) (fun _ => .inl besides_windowed)
      fun _ _ hw => hw.dimensions) w1 w1' hbesides
    have hcp := hr.compile_bare hbesides.groups (Resolution.ofRequest_funnelFree hq hrun)
    rw [Resolution.outcome_eq, Resolution.outcome_eq, hfollows.1]
    refine ⟨fun hnot => ?_, ?_⟩
    · rw [hcp.1 fun h => hnot ⟨r, w1, rfl, h⟩]
      rfl
    · rintro ⟨_, _, ⟨⟩, hcum⟩
      rw [hcp.2 hcum]
      rfl

end SemanticLayer
