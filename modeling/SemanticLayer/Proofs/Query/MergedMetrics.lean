import SemanticLayer.Proofs.Query.MergedRows
import SemanticLayer.Proofs.Query.ParallelParts

/-!
# The metrics of merged results

Every metric is put into the sub-query of its date (`layout_filed`).  A dimension that no sub-query
has makes one of its own; where its key is that of a sub-query with metrics, these are lost
(`parts_lists_iff`).
-/

namespace SemanticLayer

open SemanticLayer.Action List Grouping

variable {all : Grouping Counterpart} {f : Field} {graphs parts : List String}
  {key components name part : String} {l : Layout} {metrics t t' : Grouping Field} {p : Project}
  {q : MergedQuery} {w w' w'' : Workspace}

variable {asked : Field → Prop}

namespace MergedQuery

/-! ### Metrics in the sub-queries of their dates -/

theorem join_components_settles (f : Field) :
    Action.Settles (do return Text.join "_" (← Action.components f) : Action String) :=
  (components_settles f).bind fun _ => .of_pure _

theorem componentKey_settles (f : Field) : Action.Settles (componentKey f) := by
  unfold componentKey
  refine Action.Settles.of_project.bind fun p => ?_
  split_ifs
  · refine (Action.Settles.of_result _).bind fun date => ?_
    cases date with
    | none => exact join_components_settles f
    | some date => exact (Action.Settles.of_result _).bind fun g => join_components_settles g
  · exact join_components_settles f

/-- The key of a metric: its date with the components that date can be joined from. -/
def IsHome (w : Workspace) (f : Field) (key : String) : Prop :=
  ∃ date components, dateOf f = .ok date ∧ componentKey f w = (.ok components, w) ∧
    key = partKey date components

theorem IsHome.of_extends (h : IsHome w f key) (hw : w.Extends w') : IsHome w' f key := by
  obtain ⟨date, components, hdt, hcom, rfl⟩ := h
  exact ⟨date, components, hdt, (componentKey_settles f).again hcom hw, rfl⟩

theorem IsHome.unique {key' : String} (h : IsHome w f key) (h' : IsHome w f key') : key' = key := by
  obtain ⟨date, components, hdt, hcom, rfl⟩ := h
  obtain ⟨date', components', hdt', hcom', rfl⟩ := h'
  cases hdt.symm.trans hdt'
  cases hcom.symm.trans hcom'
  rfl

/-- Every field is in the list of its key and asked for; those asked for are there up to their
names.  No key has two lists. -/
structure Filed (w : Workspace) (t : Grouping Field) (asked : Field → Prop) : Prop where
  home : ∀ {k f}, f ∈ t.get k → IsHome w f k
  wanted : ∀ {k f}, f ∈ t.get k → asked f
  listed : ∀ {g}, asked g → ∃ k, IsHome w g k ∧ ∃ f ∈ t.get k, f.id = g.id
  nodup : t.keys.Nodup

namespace Filed

variable {asked' : Field → Prop} {g : Field}

theorem nil : Filed w [] fun _ => False :=
  ⟨by simp [Grouping.get], by simp [Grouping.get], False.elim, nodup_nil⟩

variable (h : Filed w t asked)
include h

theorem of_extends (hw : w.Extends w') : Filed w' t asked where
  home hf := (h.home hf).of_extends hw
  wanted := h.wanted
  listed hg := by
    obtain ⟨k, hk, hf⟩ := h.listed hg
    exact ⟨k, hk.of_extends hw, hf⟩
  nodup := h.nodup

theorem congr (hiff : ∀ g, asked g ↔ asked' g) : Filed w t asked' := by
  rwa [← show asked = asked' from funext fun g => propext (hiff g)]

theorem keep (hg : IsHome w g key) (hmem : ∃ f ∈ t.get key, f.id = g.id) :
    Filed w t fun f => asked f ∨ f = g where
  home := h.home
  wanted hf := .inl (h.wanted hf)
  listed := by
    rintro f (hf | rfl)
    · exact h.listed hf
    · exact ⟨key, hg, hmem⟩
  nodup := h.nodup

theorem add (hg : IsHome w g key) :
    Filed w (t.add key g) fun f => asked f ∨ f = g where
  home hf := by
    rcases mem_get_add.mp hf with hf | ⟨rfl, rfl⟩
    · exact h.home hf
    · exact hg
  wanted hf := (mem_get_add.mp hf).imp h.wanted And.right
  listed := by
    rintro f (hf | rfl)
    · obtain ⟨k, hk, f, hf, hid⟩ := h.listed hf
      exact ⟨k, hk, f, mem_get_add.mpr (.inl hf), hid⟩
    · exact ⟨key, hg, f, mem_get_add.mpr (.inr ⟨rfl, rfl⟩), rfl⟩
  nodup := nodup_keys_put h.nodup _ _

theorem distinctAll : Filed w (distinctAll t) asked where
  home hf := h.home (mem_of_mem_distinctAll hf)
  wanted hf := h.wanted (mem_of_mem_distinctAll hf)
  listed hg := by
    obtain ⟨k, hk, f, hf, hid⟩ := h.listed hg
    obtain ⟨f', hf', hid'⟩ := Project.exists_mem_distinct hf
    exact ⟨k, hk, f', by rwa [get_distinctAll], hid'.trans hid⟩
  nodup := (keys_map t Project.distinct).symm ▸ h.nodup

end Filed

theorem isHome_of_run {date : String} (hdt : dateOf f = .ok date)
    (hrun : componentKey f w = (.ok components, w')) :
    IsHome w' f (partKey date components) :=
  ⟨date, components, hdt, (componentKey_settles f).again hrun (refl_of _ w'), rfl⟩

theorem metricStep_filed (ht : Filed w t asked) (h : metricStep t f w = (.ok t', w')) :
    Filed w' t' fun g => asked g ∨ g = f := by
  unfold metricStep at h
  obtain ⟨components, w1, hrun, h⟩ := of_bind h
  obtain ⟨date, hdt, h⟩ := of_lift_bind h
  obtain ⟨rfl, rfl⟩ := pure_eq_ok.mp h
  have ht' := ht.of_extends ((componentKey_settles f).moves.of_eq hrun)
  have hhome := isHome_of_run hdt hrun
  split_ifs with hany
  · exact ht'.keep hhome (by simpa using hany)
  · exact ht'.add hhome

def Measures (p : Project) (f g : Field) : Prop := ∃ rs, measuresOf p f = .ok rs ∧ .field g ∈ rs

theorem mergedStep_filed (ht : Filed w t asked) (h : mergedStep p t f w = (.ok t', w')) :
    Filed w' t' fun g => asked g ∨ Measures p f g := by
  unfold mergedStep at h
  obtain ⟨rs, hrs, h⟩ := of_lift_bind h
  have hfiled : Filed w' t' fun g => asked g ∨ .field g ∈ rs := by
    refine foldlM_track (P := fun done t w => Filed w t fun g => asked g ∨ .field g ∈ done)
      h (by simpa using ht) fun done t r t' w w' ht h => ?_
    cases r with
    | missing name => cases h
    | unwritten => cases h
    | field g =>
      obtain ⟨date, hdt, h⟩ := of_lift_bind h
      obtain ⟨components, hrun, rfl⟩ := of_bind_pure h
      refine ((ht.of_extends ((componentKey_settles g).moves.of_eq hrun)).add
        (isHome_of_run hdt hrun)).congr fun g' => ?_
      simp [or_assoc]
  exact hfiled.congr fun g => by simp [Measures, hrs]

/-! ### What a query asks for -/

/-- The metrics that a query asks for: those that it names or, in place of a merged one, its
measures. -/
def Asks (p : Project) (q : MergedQuery) (g : Field) : Prop :=
  ∃ name ∈ q.metrics, ∃ f isMerged, p.getField name = .ok f ∧ f.isMergedResult p = .ok isMerged ∧
    if isMerged.truthy then Measures p f g else g = f

theorem asks_iff {fields : List (Field × Bool)} (h : (q.metrics.mapM fun n => do
      let f ← p.getField n
      return (f, (← f.isMergedResult p).truthy) : Action _) w = (.ok fields, w')) (g : Field) :
    (∃ f ∈ (fields.filter (·.2)).map (·.1), Measures p f g) ∨
      g ∈ (fields.filter (!·.2)).map (·.1) ↔ q.Asks p g := by
  simp only [mem_map, mem_filter]
  constructor
  · intro hg
    obtain ⟨e, he, hg⟩ : ∃ e ∈ fields, if e.2 then Measures p e.1 g else g = e.1 := by
      rcases hg with ⟨-, ⟨e, ⟨he, htrue⟩, rfl⟩, hg⟩ | ⟨e, ⟨he, hfalse⟩, rfl⟩
      · exact ⟨e, he, by rwa [if_pos htrue]⟩
      · exact ⟨e, he, by simp_all⟩
    obtain ⟨name, hn, w1, w2, hrun⟩ := exists_of_mem_mapM h he
    obtain ⟨f, hf, hrun⟩ := of_lift_bind hrun
    obtain ⟨v, hv, rfl⟩ := of_bind_pure hrun
    exact ⟨name, hn, f, v, hf, (lift_eq_ok.mp hv).1, hg⟩
  · rintro ⟨name, hn, f, isMerged, hf, hisMerged, hg⟩
    obtain ⟨e, he, w1, w2, hrun⟩ := exists_of_mapM h hn
    obtain ⟨f', hf', hrun⟩ := of_lift_bind hrun
    obtain ⟨v, hv, rfl⟩ := of_bind_pure hrun
    cases hf.symm.trans hf'
    cases hisMerged.symm.trans (lift_eq_ok.mp hv).1
    split_ifs at hg with htru
    · exact .inl ⟨f, ⟨_, ⟨he, htru⟩, rfl⟩, hg⟩
    · exact .inr ⟨_, ⟨he, by simpa using htru⟩, hg.symm⟩

/-- The metrics of a layout are the measures of those that are merged and the rest, each in the
sub-query of its date, and its dates are those of the metrics and the dimensions. -/
theorem layout_eq_ok (h : q.layout w = (.ok l, w')) :
    ∃ secondary dimensions w1 w2,
      (∀ g, (∃ f ∈ l.merged, Measures w.project f g) ∨ g ∈ secondary ↔ q.Asks w.project g) ∧
      Filed w' l.metrics (q.Asks w.project) ∧
      dates w.project l.merged secondary dimensions w1 = (.ok l.dates, w2) ∧
      dateCounterparts l.dates w2 = (.ok l.byDate, w') ∧ w2.project = w.project := by
  have hall : w.Extends w' := (layout_follows q).way h
  unfold layout at h
  replace h := of_project_bind h
  obtain ⟨fields, w1, hfs, h⟩ := of_bind h
  obtain ⟨dimensions, w2, -, h⟩ := of_bind h
  obtain ⟨t1, w3, hmg, h⟩ := of_bind h
  obtain ⟨t2, w4, hsec, h⟩ := of_bind h
  obtain ⟨dates, w5, hdts, h⟩ := of_bind h
  obtain ⟨byDate, hbyDate, rfl⟩ := of_bind_pure h
  have h1 : Filed w3 t1 fun g =>
      ∃ f ∈ (fields.filter (·.2)).map (·.1), Measures w.project f g := by
    refine foldlM_track
      (P := fun done t w' => Filed w' t fun g => ∃ f ∈ done, Measures w.project f g)
      hmg (by simpa using Filed.nil) fun done t f t' w w' ht h => ?_
    exact (mergedStep_filed ht h).congr fun g => by simp [or_and_right, exists_or]
  have h2 : Filed w4 t2 fun g => (∃ f ∈ (fields.filter (·.2)).map (·.1), Measures w.project f g) ∨
      g ∈ (fields.filter (!·.2)).map (·.1) := by
    refine foldlM_track (P := fun done t w' => Filed w' t fun g =>
        (∃ f ∈ (fields.filter (·.2)).map (·.1), Measures w.project f g) ∨ g ∈ done)
      hsec (by simpa using h1) fun done t f t' w w' ht h => ?_
    exact (metricStep_filed ht h).congr fun g => by simp [or_assoc]
  have hw5 : w5.Extends w' := (dateCounterparts_follows _).way hbyDate
  have hw := trans_of Workspace.Extends
    ((dates_follows _ _ fun f _ => .of_moves (components_settles f).moves).way hdts) hw5
  have hasks := asks_iff hfs
  exact ⟨_, dimensions, w4, w5, hasks, (h2.congr hasks).distinctAll.of_extends hw, hdts, hbyDate,
    hw5.project.symm.trans hall.project⟩

theorem layout_filed (h : q.layout w = (.ok l, w')) : Filed w' l.metrics (q.Asks w.project) := by
  obtain ⟨_, _, _, _, -, hfiled, -⟩ := layout_eq_ok h
  exact hfiled

/-! ### Dimensions that take a sub-query -/

/-- A dimension that is no date of the query and that no sub-query has makes a sub-query of its own;
here its key. -/
structure Layout.Takes (l : Layout) (w : Workspace) (f : Field) (key : String) : Prop where
  isNoDate : f.key ∉ l.dates
  isApart : ∀ part ∈ l.keys, ∃ graphs, Action.joinGraphs f w = (.ok graphs, w) ∧
    containsAny part graphs = false
  own : ∃ date components, dateText f = .ok date ∧ componentKey f w = (.ok components, w) ∧
    key = date ++ "__" ++ components

theorem placeStep_found {s s' : Grouping Field × Bool}
    (h : placeStep p metrics parts all f graphs s part = .ok s') :
    s'.2 = (s.2 || containsAny part graphs) := by
  unfold placeStep at h
  split_ifs at h with hany
  · cases h
    simp [hany]
  · cases h
  · obtain ⟨t, -, h⟩ := Result.of_bind h
    cases h
    simp [hany]

theorem ownPart_metrics {dimensions : Grouping Field} {r : Grouping Field × Grouping Field}
    (h : ownPart p all f components metrics dimensions = .ok r) :
    ∃ date, dateText f = .ok date ∧ r.1 = metrics.put (date ++ "__" ++ components) [] := by
  unfold ownPart at h
  obtain ⟨date, hdt, h⟩ := Result.of_bind h
  obtain ⟨t, -, h⟩ := Result.of_bind h
  cases h
  exact ⟨date, hdt, rfl⟩

theorem joinGraphs_of_graphsFor (h : graphsFor parts f w = (.ok graphs, w')) (hw : w'.Extends w'')
    (hpt : part ∈ parts) : Action.joinGraphs f w'' = (.ok graphs, w'') := by
  have hne : ¬ parts.isEmpty = true := by
    rw [List.isEmpty_iff]
    exact ne_nil_of_mem hpt
  rw [graphsFor, if_neg hne] at h
  exact (joinGraphs_settles f).again h hw

theorem place_found {s : Grouping Field × Bool}
    (h : parts.foldlM (placeStep p metrics parts all f graphs) (t, false) = .ok s) :
    s.2 = parts.any (containsAny · graphs) := by
  refine Result.foldlM_track (P := fun done s => s.2 = done.any (containsAny · graphs)) h rfl
    fun done s k s' hs h => ?_
  rw [placeStep_found h, hs]
  simp

theorem dimensionStep_metrics {s s' : Grouping Field × Grouping Field}
    (h : dimensionStep l.dates l.keys all s name w = (.ok s', w')) (hw : w'.Extends w'')
    (k : String) : ∃ f, w.project.seen.getField name = .ok f ∧
      (l.Takes w'' f k → s'.1.get k = []) ∧ (¬ l.Takes w'' f k → s'.1.get k = s.1.get k) := by
  obtain ⟨f, components, w1, hf, hcom, ⟨hdt, hsame, -⟩ | ⟨hnot, graphs, r, hgraphs, hplace, hr⟩⟩ :=
    dimensionStep_eq_ok h
  · exact ⟨f, hf, fun htakes => absurd (by simpa using hdt) htakes.isNoDate, fun _ => by rw [hsame]⟩
  refine ⟨f, hf, ?_⟩
  rw [place_found hplace] at hr
  rcases hr with ⟨hfd, rfl⟩ | ⟨hfd, hown⟩
  · -- a sub-query has the dimension
    refine ⟨fun htakes => ?_, fun _ => rfl⟩
    obtain ⟨part, hpt, hany⟩ := any_eq_true.mp hfd
    obtain ⟨graphs', hgraphs', hnot⟩ := htakes.isApart part hpt
    cases hgraphs'.symm.trans (joinGraphs_of_graphsFor hgraphs hw hpt)
    rw [hnot] at hany
    cases hany
  · obtain ⟨date, hdateText, hs'⟩ := ownPart_metrics hown
    rw [hs', get_put]
    have hset : componentKey f w'' = (.ok components, w'') :=
      (componentKey_settles f).again hcom
        (trans_of _ ((graphsFor_follows _ (.of_moves (joinGraphs_settles f).moves)).way hgraphs) hw)
    constructor
    · rintro ⟨-, -, date', components', hdt', hcom', rfl⟩
      cases hdateText.symm.trans hdt'
      cases hset.symm.trans hcom'
      rw [if_pos rfl]
    · intro hfree
      refine if_neg fun hk => hfree ⟨by simpa using hnot, fun part hpt => ?_, ?_⟩
      · exact ⟨graphs, joinGraphs_of_graphsFor hgraphs hw hpt,
          by simpa using any_eq_false.mp hfd part hpt⟩
      · exact ⟨date, components, hdateText, hset, hk⟩

theorem dimensionStep_nodup_keys {s s' : Grouping Field × Grouping Field} {dates : List String}
    (ht : s.1.keys.Nodup) (h : dimensionStep dates parts all s name w = (.ok s', w')) :
    s'.1.keys.Nodup := by
  obtain ⟨f, components, w1, -, -, ⟨-, hsame, -⟩ | ⟨-, graphs, r, -, -, ⟨-, rfl⟩ | ⟨-, hown⟩⟩⟩ :=
    dimensionStep_eq_ok h
  · rwa [hsame]
  · exact ht
  · obtain ⟨date, -, hs'⟩ := ownPart_metrics hown
    rw [hs']
    exact nodup_keys_put ht _ _

def IsTaken (p : Project) (q : MergedQuery) (l : Layout) (w : Workspace) (key : String) : Prop :=
  ∃ name ∈ q.dimensions, ∃ f, p.getField name = .ok f ∧ l.Takes w f key

theorem dimensions_metrics {names : List String} {s s' : Grouping Field × Grouping Field}
    (h : names.foldlM (dimensionStep l.dates l.keys all) s w = (.ok s', w')) (hw : w'.Extends w'')
    (k : String) :
    ((∃ name ∈ names, ∃ f, w.project.seen.getField name = .ok f ∧ l.Takes w'' f k) →
      s'.1.get k = []) ∧
    ((¬ ∃ name ∈ names, ∃ f, w.project.seen.getField name = .ok f ∧ l.Takes w'' f k) →
      s'.1.get k = s.1.get k) := by
  have hrun := foldlM_track (P := fun done s' w' => w.Extends w' ∧ ∀ w'', w'.Extends w'' →
      ((∃ name ∈ done, ∃ f, w.project.seen.getField name = .ok f ∧ l.Takes w'' f k) →
        s'.1.get k = []) ∧
      ((¬ ∃ name ∈ done, ∃ f, w.project.seen.getField name = .ok f ∧ l.Takes w'' f k) →
        s'.1.get k = s.1.get k)) h ⟨refl_of _ w, by simp⟩ ?_
  · exact hrun.2 w'' hw
  intro done s1 name s2 w1 w2 ⟨hw1, hs1⟩ hs
  have hmoves : w1.Extends w2 := (dimensionStep_follows _ _ _ _ _).way hs
  refine ⟨trans_of _ hw1 hmoves, fun w'' hw'' => ?_⟩
  obtain ⟨htk, hfree⟩ := hs1 w'' (trans_of _ hmoves hw'')
  obtain ⟨f, hf, hemptied, hleft⟩ := dimensionStep_metrics hs hw'' k
  rw [hw1.project] at hf
  by_cases htakes : l.Takes w'' f k
  · refine ⟨fun _ => hemptied htakes, fun hnot => absurd ?_ hnot⟩
    exact ⟨name, by simp, f, hf, htakes⟩
  · rw [hleft htakes]
    have hiff : (∃ n ∈ done ++ [name], ∃ f, w.project.seen.getField n = .ok f ∧ l.Takes w'' f k) ↔
        ∃ n ∈ done, ∃ f, w.project.seen.getField n = .ok f ∧ l.Takes w'' f k := by
      simp [hf, htakes]
    rw [hiff]
    exact ⟨htk, hfree⟩

namespace Steps

variable {parts : Parts} (s : q.Steps w parts w')

/-- What stands for the fields of the query in its sub-queries. -/
def counterparts : Grouping Counterpart := s.layout.counterparts s.mappings

theorem extends_laid : w.Extends s.laid := (layout_follows q).way s.isLaid

theorem extends_mapped : s.laid.Extends s.mapped := (fieldMappings_follows _ _).way s.areMapped

theorem extends_placed : s.mapped.Extends s.placed :=
  (Action.Follows.foldlM (fun s n _ => dimensionStep_follows _ _ _ s n) _).way s.arePlaced

theorem extends_last : s.placed.Extends w' :=
  (Action.Follows.foldlM (fun t c _ => conditionStep_follows _ _ _ t c) _).way s.areBrought

theorem project_placed : s.placed.project = w.project := by
  rw [s.extends_placed.project, s.extends_mapped.project, s.extends_laid.project]

include s in
theorem nodup_keys : parts.metrics.keys.Nodup :=
  foldlM_induct (P := fun s => s.1.keys.Nodup) _ s.arePlaced (layout_filed s.isLaid).nodup
    fun _ _ _ _ _ ht h => dimensionStep_nodup_keys ht h

end Steps

theorem parts_metrics {parts : Parts}
    (h : q.parts w = (.ok parts, w')) : ∃ l w1, q.layout w = (.ok l, w1) ∧ w1.Extends w' ∧
      ∀ k, (q.IsTaken w.project l w' k → parts.metrics.get k = []) ∧
        (¬ q.IsTaken w.project l w' k → parts.metrics.get k = l.metrics.get k) := by
  obtain ⟨s⟩ := parts_eq_ok h
  refine ⟨s.layout, s.laid, s.isLaid,
    trans_of _ s.extends_mapped (trans_of _ s.extends_placed s.extends_last), fun k => ?_⟩
  have hms := dimensions_metrics s.arePlaced s.extends_last k
  rwa [s.extends_mapped.project, s.extends_laid.project] at hms

/-! ### Metrics that are lost -/

/-- A list has a metric: a field of its name and with the same key. -/
def Lists (w : Workspace) (t : Grouping Field) (k : String) (g : Field) : Prop :=
  ∃ f ∈ t.get k, f.id = g.id ∧ ∀ key, IsHome w f key ↔ IsHome w g key

/-- **Every metric that is asked for stands in exactly one list, that of its date, if and only if no
dimension takes the key of the list.** -/
theorem parts_lists_iff {q : MergedQuery} {parts : Parts} {w w' : Workspace}
    (h : q.parts w = (.ok parts, w')) : ∃ l w1, q.layout w = (.ok l, w1) ∧
      (∀ k, ∀ f ∈ parts.metrics.get k, IsHome w' f k) ∧
      ∀ g, q.Asks w.project g → ∃ key, IsHome w' g key ∧
        ((∀ k, Lists w' parts.metrics k g ↔ k = key) ↔ ¬ q.IsTaken w.project l w' key) := by
  obtain ⟨l, w1, hlayout, hw, hmetrics⟩ := parts_metrics h
  have hfiled := (layout_filed hlayout).of_extends hw
  have hhome : ∀ k, ∀ f ∈ parts.metrics.get k, IsHome w' f k := by
    intro k f hf
    by_cases htaken : q.IsTaken w.project l w' k
    · rw [(hmetrics k).1 htaken] at hf
      cases hf
    · rw [(hmetrics k).2 htaken] at hf
      exact hfiled.home hf
  refine ⟨l, w1, hlayout, hhome, fun g hg => ?_⟩
  obtain ⟨key, hkey, f, hf, hid⟩ := hfiled.listed hg
  refine ⟨key, hkey, fun hlists htaken => ?_, fun hfree k => ⟨?_, ?_⟩⟩
  · obtain ⟨f', hf', -⟩ := (hlists key).mpr rfl
    rw [(hmetrics key).1 htaken] at hf'
    cases hf'
  · rintro ⟨f', hf', -, hsame⟩
    exact hkey.unique ((hsame k).mp (hhome k f' hf'))
  · rintro rfl
    rw [Lists, (hmetrics k).2 hfree]
    refine ⟨f, hf, hid, fun key' => ⟨fun h' => ?_, fun h' => ?_⟩⟩
    · rw [(hfiled.home hf).unique h']
      exact hkey
    · rw [hkey.unique h']
      exact hfiled.home hf

/-! ### Calls and sales by their channel

The numbers of calls and of sales, by the dates of the calls and their channel, are each in one
list; the number of calls by the channel alone is in none. -/

namespace Calls

open Shops

def hasNumber (p : Project) (name : String) : Bool :=
  (p.getField name).toOption.any fun f =>
    f.id == name && (f.isMergedResult p).toOption.any (!·.truthy)

theorem exists_asks {name : String} (hq : name ∈ q.metrics)
    (h : hasNumber p name = true) : ∃ g, g.id = name ∧ q.Asks p g := by
  unfold hasNumber at h
  rcases hf : p.getField name with e | f
  · rw [hf] at h
    cases h
  rcases hv : f.isMergedResult p with e | v
  · simp [hf, hv, Except.toOption] at h
  · obtain ⟨hid, hff⟩ : f.id = name ∧ v.truthy = false := by
      simpa [hf, hv, Except.toOption] using h
    exact ⟨f, hid, name, hq, f, v, hf, hv, by simp [hff]⟩

def channel : Definition :=
  [("name", .text "channel"), ("field_type", .text "dimension"), ("type", .text "string"),
    ("sql", .text "channel")]

def query : MergedQuery := numbers ["calls", "sales"] ["calls.made_raw", "calls.channel"]

def workspace : Workspace := among ["calls", "sales"] (channel :: fields)

theorem parts_query : ∃ parts w', query.parts workspace = (.ok parts, w') ∧
    (parts.metrics.map (·.2.length) == [1, 1]) = true := by
  apply Action.exists_of_any
  unfold MergedQuery.parts layout dates Layout.keys partsOf Action.fieldMappings
    Model.fieldMappings Model.mappings Mapping.mostCommon
  simp only [mergeSort_by_text, mergeSort_by_count]
  decide +kernel

def queryByChannel : MergedQuery := numbers ["calls"] ["calls.channel"]

def workspaceByChannel : Workspace := among ["calls"] (channel :: fields)

theorem parts_queryByChannel : ∃ parts w',
    queryByChannel.parts workspaceByChannel = (.ok parts, w') ∧
      parts.metrics.all (·.2.isEmpty) = true := by
  exact Action.exists_of_any (by decide +kernel)

end Calls

theorem parts_lists_iff_calls :
    (∃ g, g.id = "calls.number" ∧ Calls.query.Asks Calls.workspace.project g) ∧
    (∃ g, g.id = "sales.number" ∧ Calls.query.Asks Calls.workspace.project g) ∧
    ∃ parts w', Calls.query.parts Calls.workspace = (.ok parts, w') ∧
      parts.metrics.map (·.2.length) = [1, 1] ∧
      ∃ l w1, Calls.query.layout Calls.workspace = (.ok l, w1) ∧
        (∀ k, ∀ f ∈ parts.metrics.get k, IsHome w' f k) ∧
        ∀ g, Calls.query.Asks Calls.workspace.project g → ∃ key, IsHome w' g key ∧
          ((∀ k, Lists w' parts.metrics k g ↔ k = key) ↔
            ¬ Calls.query.IsTaken Calls.workspace.project l w' key) := by
  obtain ⟨parts, w', h, hboth⟩ := Calls.parts_query
  exact ⟨Calls.exists_asks (by decide) (by decide +kernel),
    Calls.exists_asks (by decide) (by decide +kernel), parts, w', h,
    by simpa using hboth, parts_lists_iff h⟩

/-- The number of calls by channel is asked for, and no sub-query has it. -/
theorem calls_number_lost :
    ∃ g, Calls.queryByChannel.Asks Calls.workspaceByChannel.project g ∧
      ∃ parts w', Calls.queryByChannel.parts Calls.workspaceByChannel = (.ok parts, w') ∧
        ∀ k, parts.metrics.get k = [] := by
  obtain ⟨parts, w', h, hempty⟩ := Calls.parts_queryByChannel
  obtain ⟨g, -, hg⟩ : ∃ g, g.id = "calls.number" ∧
      Calls.queryByChannel.Asks Calls.workspaceByChannel.project g :=
    Calls.exists_asks (by decide) (by decide +kernel)
  refine ⟨g, hg, parts, w', h, fun k => ?_⟩
  unfold Grouping.get
  cases hfind : parts.metrics.find? (·.1 == k) with
  | none => rfl
  | some e => simpa using all_eq_true.mp hempty e (List.mem_of_find?_eq_some hfind)

end MergedQuery

end SemanticLayer
