import SemanticLayer.Proofs.Query.MergedWhere

/-!
# Conditions on the dates of merged results

A condition on the date of a metric should stand, in the sub-query of another date, on that other
date at the same timeframe (`IsDue`).  This is so unless the condition counts as belonging there,
which is decided by the keys: one has to contain the other (`TellsDate`).
-/

namespace SemanticLayer

open SemanticLayer.Action List

variable {c : Condition} {date k name other : String} {f g : Field} {p : Project}
  {xs : List Condition} {l : Layout}

variable {all : Grouping Counterpart} {components : String} {metrics : Grouping Field}

variable {ds : List String} {m : Counterpart}

theorem Name.qualify_ne_empty (view name : String) : Name.qualify view name ≠ "" := by
  unfold Name.qualify
  split_ifs with hdot
  · rintro rfl
    revert hdot
    decide
  · intro hem
    have hlen := congrArg String.length hem
    simp at hlen

theorem Field.canonDate_ne_empty (h : f.canonDate = .ok (some date)) : date ≠ "" := by
  unfold Field.canonDate at h
  dsimp only at h
  split_ifs at h
  · obtain ⟨own, -, h⟩ := Result.of_bind h
    rw [← Option.some.inj (Except.ok.inj h)]
    exact Name.qualify_ne_empty _ _
  · obtain ⟨default_, -, h⟩ := Result.of_bind h
    rw [← Option.some.inj (Except.ok.inj h)]
    exact Name.qualify_ne_empty _ _
  · cases h

namespace MergedQuery

/-! ### The dates of a query -/

variable {q : MergedQuery} {parts : Parts} {w w' : Workspace}

theorem dateOf_eq_ok : dateOf f = .ok date ↔ f.canonDate = .ok (some date) := by
  unfold dateOf
  rcases hdt : f.canonDate with e | _ | d
  · simp [bind, Except.bind]
  · simp [bind, Except.bind]
  · simp [bind, Except.bind, pure, Except.pure]

theorem dateStep_spec {hasMetrics : Bool} {s s' : List (Option String) × List (List String)}
    (h : dateStep hasMetrics s f w = (.ok s', w')) : (∀ d ∈ s.1, d ∈ s'.1) ∧
      (f.isMeasure = true → ∀ date, f.canonDate = .ok (some date) → some date ∈ s'.1) := by
  unfold dateStep at h
  obtain ⟨graphs, w1, -, h⟩ := of_bind h
  obtain ⟨date, hdt, h⟩ := of_lift_bind h
  dsimp only at h
  split_ifs at h with hnew
  · obtain ⟨rfl, -⟩ := pure_eq_ok.mp h
    refine ⟨fun d hd => mem_append_left _ hd, fun _ own hown => ?_⟩
    have heq : date = some own := Except.ok.inj (hdt.symm.trans hown)
    simp [heq]
  · obtain ⟨rfl, -⟩ := pure_eq_ok.mp h
    refine ⟨fun d hd => hd, fun hme own hown => ?_⟩
    have heq : date = some own := Except.ok.inj (hdt.symm.trans hown)
    subst heq
    -- a date that is missing would have come in
    by_contra hmis
    have hem := Field.canonDate_ne_empty hown
    exact hnew (by simp [hme, hmis, hem])

theorem dates_spec {merged secondary dimensions : List Field}
    (h : dates p merged secondary dimensions w = (.ok ds, w')) (hdt : g.canonDate = .ok (some date))
    (hg : (∃ f ∈ merged, Measures p f g) ∨ g ∈ secondary ∧ g.isMeasure = true) : date ∈ ds := by
  unfold dates at h
  obtain ⟨first, w1, hfst, h⟩ := of_bind h
  obtain ⟨⟨all, sets⟩, w2, hall, h⟩ := of_bind h
  obtain ⟨names, hns, rfl⟩ := of_bind_pure h
  obtain ⟨hkp, hbrought⟩ := foldlM_track
    (P := fun done s _ => (∀ d ∈ first.flatten, d ∈ s.1) ∧ ∀ f ∈ done, f.isMeasure = true →
      ∀ date, f.canonDate = .ok (some date) → some date ∈ s.1) hall (by simp)
    fun done s f s' w w' ⟨hkp, hbrought⟩ hs => by
      obtain ⟨hmono, hnew⟩ := dateStep_spec hs
      refine ⟨fun d hd => hmono d (hkp d hd), fun g hg hme date hdt => ?_⟩
      rcases mem_append.mp hg with hg | hg
      · exact hmono _ (hbrought g hg hme date hdt)
      · rw [mem_singleton] at hg
        subst hg
        exact hnew hme date hdt
  have hmem : some date ∈ all := by
    rcases hg with ⟨f, hf, rs, hrs, hg⟩ | ⟨hg, hme⟩
    · obtain ⟨ds, hds, w4, w5, hrun⟩ := exists_of_mapM hfst hf
      obtain ⟨rs', w6, hrd, hrun⟩ := of_bind hrun
      cases hrs.symm.trans (lift_eq_ok.mp hrd).1
      obtain ⟨d, hd, w7, w8, hrun⟩ := exists_of_mapM hrun hg
      obtain ⟨g', w9, hrd, hrun⟩ := of_bind hrun
      cases (lift_eq_ok.mp hrd).1
      have heq : some date = d := Except.ok.inj (hdt.symm.trans (lift_eq_ok.mp hrun).1)
      rw [heq]
      exact hkp d (mem_flatten.mpr ⟨ds, hds, hd⟩)
    · exact hbrought g (mem_append_left _ hg) hme date hdt
  obtain ⟨name, hn, w4, w5, hrun⟩ :=
    exists_of_mapM hns (mem_eraseDups.mpr hmem)
  obtain ⟨rfl, -⟩ := pure_eq_ok.mp hrun
  exact mem_mergeSort.mpr hn

theorem layout_dates (h : q.layout w = (.ok l, w')) (hg : g ∈ l.metrics.get k)
    (hme : g.isMeasure = true) (hdt : g.canonDate = .ok (some date)) :
    date ∈ l.dates := by
  obtain ⟨secondary, dimensions, w1, w2, hasks, hfiled, hdts, -⟩ := layout_eq_ok h
  exact dates_spec hdts hdt (((hasks g).mpr (hfiled.wanted hg)).imp_right fun hg => ⟨hg, hme⟩)

/-! ### Dates that stand for each other -/

theorem dateCounterparts_spec {t : Grouping Counterpart} (h : dateCounterparts ds w = (.ok t, w'))
    {d : String} (hd : d ∈ ds) (hot : other ∈ ds) (hne : d ≠ other) :
    ∃ e components, w.project.seen.getFieldByName other = .ok e ∧
      componentKey e w' = (.ok components, w') ∧
      ⟨other, partKey other components, none⟩ ∈ t.get d := by
  unfold dateCounterparts at h
  have hprs : (d, other) ∈ ds.flatMap fun d => (ds.filter (· != d)).map fun o => (d, o) := by
    refine mem_flatMap.mpr ⟨d, hd, mem_map.mpr ⟨other, ?_, rfl⟩⟩
    exact mem_filter.mpr ⟨hot, by simpa using hne.symm⟩
  have hrun := foldlM_track (P := fun done t w' => ∀ e ∈ done, ∃ f components,
      w.project.seen.getFieldByName e.2 = .ok f ∧ componentKey f w' = (.ok components, w') ∧
      ⟨e.2, partKey e.2 components, none⟩ ∈ t.get e.1) h (by simp) ?_
  · exact hrun (d, other) hprs
  · rintro done t ⟨d1, d2⟩ t' w1 w2 hdone hs
    obtain ⟨f, hf, hs⟩ := of_lift_bind hs
    obtain ⟨components, w4, hcom, hs⟩ := of_bind hs
    obtain ⟨rfl, rfl⟩ := pure_eq_ok.mp hs
    have hw := (componentKey_settles f).moves.of_eq hcom
    intro e he
    rcases mem_append.mp he with he | he
    · obtain ⟨f', components', hf', hcom', hmem⟩ := hdone e he
      exact ⟨f', components', hf', (componentKey_settles f').again hcom' hw,
        Grouping.mem_get_add.mpr (.inl hmem)⟩
    · rw [mem_singleton] at he
      subst he
      exact ⟨f, components, hf, (componentKey_settles f).again hcom (refl_of _ w4),
        Grouping.mem_get_add.mpr (.inr ⟨rfl, rfl⟩)⟩

theorem mem_mappingStep {keys : List String} {s : Grouping Counterpart × Grouping Counterpart}
    {entry : String × Mapping} (hm : m ∈ s.2.get k) : m ∈ (mappingStep keys s entry).2.get k := by
  unfold mappingStep
  refine List.foldlRecOn
    (motive := fun r : Grouping Counterpart × Grouping Counterpart × String => m ∈ r.2.1.get k)
    keys _ hm fun r hr part _ => ?_
  exact Grouping.mem_get_add.mpr (.inl hr)

theorem Layout.mem_counterparts {mappings : List (String × Mapping)} (hm : m ∈ l.byDate.get k) :
    m ∈ (l.counterparts mappings).get k :=
  List.foldlRecOn
    (motive := fun r : Grouping Counterpart × Grouping Counterpart => m ∈ r.2.get k)
    mappings _ hm fun _ hr _ _ => mem_mappingStep hr

theorem componentKey_of_measure {e : Field} (hme : g.isMeasure = true)
    (hdt : g.canonDate = .ok (some date)) (he : w.project.seen.getFieldByName date = .ok e)
    (hpl : e.isMeasure = false) : componentKey g w = componentKey e w := by
  have hpr : Action.project w = (.ok w.project.seen, w) := rfl
  unfold componentKey
  rw [bind_of_eq_ok hpr]
  simp only [hme, hpl]
  rw [hdt]
  change (liftM (w.project.seen.getFieldByName date) >>= _ : Action String) w = _
  rw [he]
  rfl

namespace Steps

variable (s : q.Steps w parts w')

include s in
theorem extends_all : w.Extends w' :=
  trans_of _ s.extends_laid
    (trans_of _ s.extends_mapped (trans_of _ s.extends_placed s.extends_last))

theorem mem_layout (hg : g ∈ parts.metrics.get k) : g ∈ s.layout.metrics.get k := by
  obtain ⟨htk, hfree⟩ := dimensions_metrics s.arePlaced s.extends_last k
  by_cases htakes : ∃ name ∈ q.dimensions, ∃ f, s.mapped.project.seen.getField name = .ok f ∧
      s.layout.Takes w' f k
  · rw [htk htakes] at hg
    cases hg
  · rwa [hfree htakes] at hg

theorem mem_dates (h : LooksAlong parts.metrics k date) : date ∈ s.layout.dates := by
  obtain ⟨g, hg, hme, hdt⟩ := h
  exact layout_dates s.isLaid (s.mem_layout hg) hme hdt

theorem counterpart_of_date (h : LooksAlong parts.metrics k date)
    (hpl : ∀ e, w.project.seen.getFieldByName date = .ok e → e.isMeasure = false)
    (hot : other ∈ s.layout.dates) (hne : other ≠ date) :
    ⟨date, k, none⟩ ∈ s.counterparts.get other := by
  obtain ⟨_, _, _, w1, -, -, -, hbyDate, hpr⟩ := layout_eq_ok s.isLaid
  obtain ⟨e, components, he, hcom, hmem⟩ :=
    dateCounterparts_spec hbyDate hot (s.mem_dates h) hne
  rw [hpr] at he
  have hw := trans_of _ s.extends_mapped (trans_of _ s.extends_placed s.extends_last)
  have hset := (componentKey_settles e).again hcom hw
  obtain ⟨g, hg, hme, hdt⟩ := h
  obtain ⟨date', components', hdt', hcom', rfl⟩ :=
    ((layout_filed s.isLaid).of_extends hw).home (s.mem_layout hg)
  cases hdt.symm.trans (dateOf_eq_ok.mp hdt')
  -- the metric and the field of its date have the same components
  rw [componentKey_of_measure hme hdt (s.extends_all.project ▸ he) (hpl e he)]
    at hcom'
  cases hset.symm.trans hcom'
  exact Layout.mem_counterparts hmem

end Steps

/-! ### Conditions that follow the date -/

def StandsOn (xs : List Condition) (field : String) : Prop :=
  ∀ x ∈ xs, x.definition.get "field" = .text field

/-- All counterparts of a field in a sub-query mean one field, at the timeframe of the first. -/
def AllMean (p : Project) (all : Grouping Counterpart) (f : Field) (part id : String) : Prop :=
  ∀ m ∈ counterpartsIn all f part, ∃ g, p.getField (framed m.field f) = .ok g ∧ g.id = id

theorem get_field_on (c : Condition) (field : String) :
    (c.on field).definition.get "field" = .text field := Definition.get_set ..

theorem get_field_of_means (h : c.Means p name f) : c.definition.get "field" = .text name := by
  simp [Definition.get, h.written]

theorem standsOn_self
    (h : c.Means p name f) (field : String) : StandsOn [c] field ↔ field = name := by
  unfold StandsOn
  simp [get_field_of_means h, eq_comm]

theorem standsOn_copies {ms : List Counterpart}
    (h : (ms.mapM fun m => do return c.on (← p.getField (framed m.field f)).id) = Except.ok xs)
    (field : String) : StandsOn xs field ↔
      ∀ m ∈ ms, ∃ g, p.getField (framed m.field f) = .ok g ∧ g.id = field := by
  have hcpy := Result.mapM_eq_ok h
  clear h
  unfold StandsOn
  induction hcpy with
  | nil => simp
  | cons hcopy _ ih =>
    obtain ⟨g, hg, hcopy⟩ := Result.of_bind hcopy
    cases hcopy
    rw [forall_mem_cons, forall_mem_cons, get_field_on, hg]
    exact and_congr (by simp) ih

theorem Becomes.eq_self (h : Becomes metrics all w k c xs) (hmeans : c.Means w.project name f)
    (hcom : componentKey f w = (.ok components, w)) (hdt : IsMetricDate metrics f.key)
    (hbel : Text.contains k (ownKey f components) = true) : xs = [c] := by
  obtain ⟨name', f', components', isDate, ys, hmeans', hcom', hisDate, hys, rfl⟩ := h
  obtain ⟨rfl, rfl⟩ := hmeans.unique hmeans'
  cases hcom.symm.trans hcom'
  have htrue : isDate = true := hisDate.mpr hdt
  unfold brought belongs at hys
  rw [htrue, if_pos rfl, if_pos hbel] at hys
  cases hys
  simp [orItself]

/-- Where a condition on a date belongs or has no counterpart it stays on its field; elsewhere it is
on what its counterparts mean. -/
theorem Becomes.standsOn_iff (h : Becomes metrics all w k c xs) (hk : k ∈ metrics.keys)
    (hmeans : c.Means w.project name f) (hcom : componentKey f w = (.ok components, w))
    (hdt : IsMetricDate metrics f.key) (field : String) :
    StandsOn xs field ↔
      if Text.contains k (ownKey f components) = true ∨ counterpartsIn all f k = [] then
        field = name
      else AllMean w.project all f k field := by
  by_cases hbel : Text.contains k (ownKey f components) = true
  · rw [h.eq_self hmeans hcom hdt hbel, standsOn_self hmeans]
    simp [hbel]
  · obtain ⟨name', f', components', isDate, ys, hmeans', hcom', hisDate, hys, rfl⟩ := h
    obtain ⟨rfl, rfl⟩ := hmeans.unique hmeans'
    cases hcom.symm.trans hcom'
    have htrue : isDate = true := hisDate.mpr hdt
    have hhas := (Grouping.has_iff metrics k).mpr hk
    unfold brought belongs at hys
    rw [htrue, if_pos rfl, if_neg hbel] at hys
    unfold orItself
    rw [hhas, Bool.and_true]
    by_cases hno : counterpartsIn all f' k = []
    · rw [hno] at hys
      cases hys
      simp [hno, standsOn_self hmeans']
    · have hlen := (Result.mapM_eq_ok hys).length_eq
      have hys' : ys ≠ [] := by
        rintro rfl
        exact hno (length_eq_zero_iff.mp hlen)
      simp only [hbel, hno, List.isEmpty_iff, hys']
      exact standsOn_copies hys field

/-- The field that a condition on a date is to be on in the sub-query of a date: its own there, and
elsewhere the date of the sub-query at the same timeframe. -/
def IsDue (p : Project) (name : String) (f : Field) (date field : String) : Prop :=
  if date = f.key then field = name
  else ∃ e, p.getField (framed date f) = .ok e ∧ field = e.id

/-- The keys tell whether a condition is to stay on its field: one that belongs stays, and what
stands for it elsewhere means the field that is due. -/
def TellsDate (p : Project) (all : Grouping Counterpart) (f : Field) (components part : String)
    (name field : String) : Prop :=
  if Text.contains part (ownKey f components) then field = name else AllMean p all f part field

/-- **A condition on a date follows the dates of the sub-queries if and only if their keys tell the
dates apart.** -/
theorem parts_follow_dates_iff (h : q.parts w = (.ok parts, w')) {cs : List Condition}
    (hcs : q.wheres = .listed cs) :
    ∃ s : q.Steps w parts w', ∀ k date, LooksAlong parts.metrics k date →
      (∀ e, w.project.seen.getFieldByName date = .ok e → e.isMeasure = false) →
      ∃ xss, parts.wheres.get k = distinctConditions xss.flatten ∧
        List.Forall₂ (fun c xs => xs ≠ [] ∧
          (∀ x ∈ xs, x = c ∨ IsCopy w.project s.counterparts k c x) ∧
          ∀ name f components field, c.Means w.project name f →
            (∃ k', LooksAlong parts.metrics k' f.key) →
            componentKey f w' = (.ok components, w') → IsDue w.project name f date field →
              (StandsOn xs field ↔
                TellsDate w.project s.counterparts f components k name field)) cs xss := by
  obtain ⟨s⟩ := parts_eq_ok h
  have hproject : w'.project = w.project := s.extends_all.project
  refine ⟨s, fun k date hk hplain => ?_⟩
  have hkey : k ∈ parts.metrics.keys := hk.mem_keys
  obtain ⟨xss, hxss, hget⟩ := s.wheres_eq (mem_append_left _ hkey)
  rw [s.conditions_eq hcs] at hxss
  refine ⟨xss, hget, hxss.imp fun c xs hbecomes => ⟨hbecomes.ne_nil hkey, fun x hx => ?_, ?_⟩⟩
  · have hcopy := hbecomes.isCopy hx
    rwa [hproject] at hcopy
  intro name f components field hmeans hother hcomponents hdue
  obtain ⟨k', hk'⟩ := hother
  rw [← hproject] at hmeans
  rw [hbecomes.standsOn_iff hkey hmeans hcomponents hk'.isMetricDate, hproject]
  unfold TellsDate
  by_cases hbelongs : Text.contains k (ownKey f components) = true
  · simp [hbelongs]
  · by_cases hsame : date = f.key
    · -- a condition on the date of the sub-query, that nothing stands for there
      rw [IsDue, if_pos hsame] at hdue
      by_cases hnone : counterpartsIn s.counterparts f k = []
      · simp [hbelongs, hnone, hdue, AllMean]
      · simp [hbelongs, hnone]
    · have hmem := s.counterpart_of_date hk hplain (s.mem_dates hk') (Ne.symm hsame)
      have hne : counterpartsIn s.counterparts f k ≠ [] :=
        ne_nil_of_mem (mem_filter.mpr ⟨hmem, by simp⟩)
      simp [hbelongs, hne]

/-! ### Calls and sales, sales and presales

The key of the sub-query of sales is not part of that of calls, but it is part of that of presales:
there a condition on the date of sales stays as it is. -/

theorem componentKey_of_known {graphs : List String} (hpl : f.isMeasure = false)
    (hkn : w.known (w.project.userKey, f.id) = some graphs) : componentKey f w
      = (.ok (Text.join "_" (graphs.filter fun g => !Text.contains g "merged_result")), w) := by
  have hgraphs : Action.joinGraphs f w = (.ok graphs, w) := by
    obtain ⟨found, hfd, h⟩ | ⟨hno, -⟩ := joinGraphs_cases f w
    · cases hfd.symm.trans hkn
      exact h
    · cases hno.symm.trans hkn
  have hpr : Action.project w = (.ok w.project.seen, w) := rfl
  unfold componentKey Action.components
  rw [bind_of_eq_ok hpr]
  simp only [hpl, Bool.false_eq_true, if_false, pure_bind, bind_assoc]
  rw [bind_of_eq_ok hgraphs]
  rfl

namespace Shops

def means (first second name date due : String) : Bool :=
  ((project first second).seen.getField name).toOption.any fun f =>
    !f.isMeasure && f.id == name && f.view.name ++ "." ++ f.name == first ++ ".made"
      && ownKey f "subquery_0" == first ++ "_made__subquery_0"
      && ((project first second).seen.getField (framed date f)).toOption.any (·.id == due)

theorem exists_means (first second name date due : String)
    (h : means first second name date due = true) :
    ∃ f, (project first second).seen.getField name = .ok f ∧ f.isMeasure = false ∧ f.id = name ∧
      f.key = first ++ ".made" ∧ ownKey f "subquery_0" = first ++ "_made__subquery_0" ∧
      ∃ e, (project first second).seen.getField (framed date f) = .ok e ∧ e.id = due := by
  unfold means at h
  rcases hf : (project first second).seen.getField name with e | f
  · rw [hf] at h
    cases h
  · rw [hf] at h
    simp only [Except.toOption, Option.any_some, Bool.and_eq_true, Bool.not_eq_true',
      beq_iff_eq] at h
    obtain ⟨⟨⟨⟨hpl, hid⟩, hkey⟩, hown⟩, hdue⟩ := h
    refine ⟨f, rfl, hpl, hid, hkey, hown, ?_⟩
    rcases he : (project first second).seen.getField (framed date f) with e | e
    · rw [he] at hdue
      cases hdue
    · rw [he] at hdue
      exact ⟨e, rfl, by simpa using hdue⟩

theorem parts_sales_presales : ∃ parts w',
    (query "sales" "presales").parts (workspace "sales" "presales") = (.ok parts, w') ∧
      (looksAlong parts "sales_made__subquery_0" "sales.made" &&
        looksAlong parts "presales_made__subquery_0" "presales.made") = true := by
  apply exists_of_any
  unfold MergedQuery.parts layout dates Layout.keys partsOf Action.fieldMappings
    Model.fieldMappings Model.mappings Mapping.mostCommon
  simp only [mergeSort_by_text, mergeSort_by_count]
  decide +kernel

end Shops

theorem parts_follow_dates_iff_shops : ∃ parts w',
    (Shops.query "calls" "sales").parts (Shops.workspace "calls" "sales") = (.ok parts, w') ∧
    (LooksAlong parts.metrics "calls_made__subquery_0" "calls.made" ∧
      LooksAlong parts.metrics "sales_made__subquery_0" "sales.made") ∧
    ∃ s : (Shops.query "calls" "sales").Steps (Shops.workspace "calls" "sales") parts w',
      ∀ k date, LooksAlong parts.metrics k date →
        (∀ e, (Shops.project "calls" "sales").seen.getFieldByName date = .ok e →
          e.isMeasure = false) →
        ∃ xss, parts.wheres.get k = distinctConditions xss.flatten ∧
          List.Forall₂ (fun c xs => xs ≠ [] ∧
            (∀ x ∈ xs, x = c ∨ IsCopy (Shops.project "calls" "sales").seen s.counterparts k c x) ∧
            ∀ name f components field, c.Means (Shops.project "calls" "sales").seen name f →
              (∃ k', LooksAlong parts.metrics k' f.key) →
              componentKey f w' = (.ok components, w') →
              IsDue (Shops.project "calls" "sales").seen name f date field →
                (StandsOn xs field ↔ TellsDate (Shops.project "calls" "sales").seen s.counterparts f
                  components k name field)) [Shops.isMade "calls"] xss := by
  obtain ⟨parts, w', h, hdates⟩ := Shops.parts_calls_sales
  rw [Bool.and_eq_true, Shops.looksAlong_iff, Shops.looksAlong_iff] at hdates
  exact ⟨parts, w', h, hdates, parts_follow_dates_iff h rfl⟩

/-- In the sub-query of presales the condition on the date of sales should be on the date of
presales, and is on that of sales. -/
theorem presales_condition_on_sales : ∃ parts w' f,
    (Shops.query "sales" "presales").parts (Shops.workspace "sales" "presales") = (.ok parts, w') ∧
    LooksAlong parts.metrics "presales_made__subquery_0" "presales.made" ∧
    (Shops.isMade "sales").Means (Shops.project "sales" "presales").seen "sales.made_raw" f ∧
    (∃ k, LooksAlong parts.metrics k f.key) ∧
    IsDue (Shops.project "sales" "presales").seen "sales.made_raw" f "presales.made"
      "presales.made_raw" ∧
    parts.wheres.get "presales_made__subquery_0" = [Shops.isMade "sales"] := by
  obtain ⟨parts, w', h, hdates⟩ := Shops.parts_sales_presales
  rw [Bool.and_eq_true, Shops.looksAlong_iff, Shops.looksAlong_iff] at hdates
  obtain ⟨hsales, hpresales⟩ := hdates
  obtain ⟨f, hf, hplain, hid, hkey, hown, e, he, hdue⟩ := Shops.exists_means
    "sales" "presales" "sales.made_raw" "presales.made" "presales.made_raw" (by decide +kernel)
  have hmeans : (Shops.isMade "sales").Means (Shops.project "sales" "presales").seen
      "sales.made_raw" f := ⟨rfl, hf⟩
  have hkey' : f.key = "sales.made" := hkey
  have hother : LooksAlong parts.metrics "sales_made__subquery_0" f.key := by
    rw [hkey']
    exact hsales
  refine ⟨parts, w', f, h, hpresales, hmeans, ⟨_, hother⟩, ?_, ?_⟩
  · rw [IsDue, hkey', if_neg (by decide)]
    exact ⟨e, he, hdue.symm⟩
  · obtain ⟨s⟩ := parts_eq_ok h
    obtain ⟨xss, hxss, hget⟩ := s.wheres_eq (mem_append_left _ hpresales.mem_keys)
    rw [s.conditions_eq rfl] at hxss
    cases hxss with
    | cons hbecomes hrest =>
      cases hrest
      have hknown := s.extends_all.known ((Shops.project "sales" "presales").userKey, f.id)
        ["subquery_0"] (by rw [hid]; decide +kernel)
      have hproject : w'.project = Shops.project "sales" "presales" := s.extends_all.project
      rw [← hproject] at hknown hmeans
      have hcomponents : componentKey f w' = (.ok "subquery_0", w') :=
        (componentKey_of_known hplain hknown).trans (by rfl)
      have hxs := hbecomes.eq_self hmeans hcomponents hother.isMetricDate
        (by rw [hown]; decide)
      rw [hget, hxs]
      simp [distinctConditions, eraseDups_cons]

end MergedQuery

end SemanticLayer
