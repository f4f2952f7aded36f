import SemanticLayer.Proofs.Query.MergedMetrics
import SemanticLayer.Proofs.Value.Json

/-!
# The conditions of merged results

A condition comes to a sub-query as it is, if it belongs there, or else on the counterparts of its
field; a sub-query with metrics that it did not come to has it as it is (`Becomes`).  The list of a
sub-query is what its conditions become, each once (`Steps.wheres_eq`), unless digests collide
(`alike_or_collide`).
-/

namespace SemanticLayer

open SemanticLayer.Action List Grouping

variable {all : Grouping Counterpart} {c x : Condition} {date k part : String}
  {metrics : Grouping Field} {s s' : Grouping Condition × List String} {w w' : Workspace}
  {xs cs : List Condition} {p : Project}

def Condition.on (c : Condition) (field : String) : Condition :=
  { definition := c.definition.set "field" (.text field) }

structure Condition.Means (p : Project) (c : Condition) (name : String) (f : Field) : Prop where
  written : c.definition.get? "field" = some (.text name)
  found : p.getField name = .ok f

theorem Condition.Means.unique {name name' : String} {f f' : Field} (h : c.Means p name f)
    (h' : c.Means p name' f') : name' = name ∧ f' = f := by
  have hn : name = name' := by simpa using h.written.symm.trans h'.written
  subst hn
  have hf := h.found.symm.trans h'.found
  simp only [Except.ok.injEq] at hf
  exact ⟨rfl, hf.symm⟩

namespace MergedQuery

/-! ### One condition in one sub-query -/

def counterpartsIn (all : Grouping Counterpart) (f : Field) (part : String) : List Counterpart :=
  (all.get f.key).filter (·.part == part)

/-- The key of a date's sub-query, from a field of that date and its components. -/
def ownKey (f : Field) (components : String) : String :=
  f.view.name ++ "_" ++ f.name ++ "__" ++ components

/-- Whether a condition belongs to a sub-query as it is: one on a date if the key of the sub-query
contains that of the date, any other if its components are those of the sub-query. -/
def belongs (f : Field) (components : String) (isDate : Bool) (part : String) : Bool :=
  if isDate then Text.contains part (ownKey f components)
  else (behindDate part).contains components

/-- What comes of a condition in a sub-query: itself, or the same condition on the counterparts of
its field. -/
def brought (p : Project) (all : Grouping Counterpart) (f : Field) (components : String)
    (isDate : Bool) (c : Condition) (part : String) : Result (List Condition) :=
  if belongs f components isDate part then .ok [c]
  else (counterpartsIn all f part).mapM fun m => do
    return c.on (← p.getField (framed m.field f)).id

section OneCondition

variable {p : Project} {f : Field} {components : String} {isDate : Bool}

/-- The condition on one counterpart, and its sub-query among those it got to. -/
def copyStep (p : Project) (f : Field) (c : Condition) (part : String)
    (s : Grouping Condition × List String) (m : Counterpart) :
    Result (Grouping Condition × List String) := do
  let g ← p.getField (framed m.field f)
  return (s.1.add part (c.on g.id), part :: s.2)

theorem whereStep_eq (s : Grouping Condition × List String) (part : String) :
    whereStep p all f components isDate c s part
      = if belongs f components isDate part then .ok (s.1.add part c, part :: s.2)
        else (counterpartsIn all f part).foldlM (copyStep p f c part) s := rfl

theorem copySteps_spec {ms : List Counterpart} (h : ms.foldlM (copyStep p f c part) s = .ok s') :
    ∃ xs, (ms.mapM fun m => do return c.on (← p.getField (framed m.field f)).id) = Except.ok xs ∧
      s'.1 = xs.foldl (fun t x => t.add part x) s.1 ∧
      ∀ k, k ∈ s'.2 ↔ k ∈ s.2 ∨ k = part ∧ xs ≠ [] := by
  induction ms generalizing s with
  | nil =>
    cases h
    exact ⟨[], rfl, rfl, by simp⟩
  | cons m ms ih =>
    obtain ⟨s1, h1, h⟩ := Result.of_bind h
    obtain ⟨g, hg, h1⟩ := Result.of_bind h1
    cases h1
    obtain ⟨xs, hxs, ht, had⟩ := ih h
    refine ⟨c.on g.id :: xs, ?_, ht, fun k => ?_⟩
    · rw [mapM_cons, hg, hxs]
      rfl
    · rw [had k]
      by_cases hk : k = part <;> simp [hk]

theorem whereStep_spec (h : whereStep p all f components isDate c s part = .ok s') :
    ∃ xs, brought p all f components isDate c part = .ok xs ∧
      (∀ k, s'.1.get k = s.1.get k ++ if k = part then xs else []) ∧
      ∀ k, k ∈ s'.2 ↔ k ∈ s.2 ∨ k = part ∧ xs ≠ [] := by
  rw [whereStep_eq] at h
  unfold brought
  by_cases hbel : belongs f components isDate part = true
  · rw [if_pos hbel] at h ⊢
    cases h
    refine ⟨[c], rfl, fun k => ?_, fun k => ?_⟩
    · rw [get_add]
      by_cases hk : k = part <;> simp [hk]
    · simp [or_comm]
  · rw [if_neg hbel] at h ⊢
    obtain ⟨xs, hxs, ht, had⟩ := copySteps_spec h
    refine ⟨xs, hxs, fun k => ?_, had⟩
    rw [ht, get_foldl_add]

/-- A condition brought to keys without repetition: the list of each key grows by what comes of the
condition there, and no other list changes. -/
theorem whereSteps_spec {keys : List String} (hnd : keys.Nodup)
    (h : (keys.foldlM (fun s k => do return (← whereStep p all f components isDate c s k)) s :
      Action (Grouping Condition × List String)) w = (.ok s', w')) :
    w = w' ∧ ∀ k, (k ∈ keys → ∃ xs, brought p all f components isDate c k = .ok xs ∧
        s'.1.get k = s.1.get k ++ xs ∧ (k ∈ s'.2 ↔ k ∈ s.2 ∨ xs ≠ [])) ∧
      (k ∉ keys → s'.1.get k = s.1.get k ∧ (k ∈ s'.2 ↔ k ∈ s.2)) := by
  induction keys generalizing s w with
  | nil =>
    obtain ⟨rfl, rfl⟩ := pure_eq_ok.mp h
    simp
  | cons key keys ih =>
    obtain ⟨s1, hwhere, h⟩ := of_lift_bind h
    obtain ⟨xs, hxs, hget, had⟩ := whereStep_spec hwhere
    obtain ⟨hkey, hr⟩ := nodup_cons.mp hnd
    obtain ⟨rfl, hks⟩ := ih hr h
    refine ⟨rfl, fun k => ?_⟩
    obtain ⟨hin, hout⟩ := hks k
    by_cases hk : k = key
    · subst hk
      obtain ⟨hget', had'⟩ := hout hkey
      refine ⟨fun _ => ⟨xs, hxs, ?_, ?_⟩, fun hnot => absurd (by simp) hnot⟩
      · rw [hget', hget, if_pos rfl]
      · rw [had', had]
        simp
    · have hsm : s1.1.get k = s.1.get k := by rw [hget, if_neg hk, append_nil]
      have hsm' : k ∈ s1.2 ↔ k ∈ s.2 := by
        rw [had]
        simp [hk]
      rw [hsm, hsm'] at hin hout
      refine ⟨fun hmem => hin (by simpa [hk] using hmem), fun hnot => hout fun hmem => hnot ?_⟩
      exact mem_cons_of_mem _ hmem

end OneCondition

/-! ### One condition in all sub-queries -/

def IsMetricDate (metrics : Grouping Field) (date : String) : Prop :=
  ∃ g ∈ metrics.flatMap (·.2), g.canonDate = .ok (some date)

def LooksAlong (metrics : Grouping Field) (k date : String) : Prop :=
  ∃ g ∈ metrics.get k, g.isMeasure = true ∧ g.canonDate = .ok (some date)

theorem LooksAlong.mem_keys (h : LooksAlong metrics k date) : k ∈ metrics.keys := by
  obtain ⟨g, hg, -⟩ := h
  exact mem_keys_of_mem_get hg

theorem LooksAlong.isMetricDate (h : LooksAlong metrics k date) : IsMetricDate metrics date := by
  obtain ⟨g, hg, -, hdt⟩ := h
  exact ⟨g, mem_flatMap.mpr ⟨_, entry_of_mem_get hg, hg⟩, hdt⟩

/-- The condition itself, where nothing came of it and there are metrics. -/
def orItself (hasMetrics : Bool) (c : Condition) (xs : List Condition) : List Condition :=
  if xs.isEmpty && hasMetrics then [c] else xs

/-- **What a condition becomes in a sub-query.** -/
def Becomes (metrics : Grouping Field) (all : Grouping Counterpart) (w : Workspace) (part : String)
    (c : Condition) (xs : List Condition) : Prop :=
  ∃ name f components isDate ys, c.Means w.project name f ∧ componentKey f w = (.ok components, w) ∧
    (isDate = true ↔ IsMetricDate metrics f.key) ∧
    brought w.project all f components isDate c part = .ok ys ∧
    xs = orItself (metrics.has part) c ys

theorem Becomes.of_extends (h : Becomes metrics all w part c xs) (hw : w.Extends w') :
    Becomes metrics all w' part c xs := by
  obtain ⟨name, f, components, isDate, ys, hmeans, hcom, hdt, hys, hxs⟩ := h
  refine ⟨name, f, components, isDate, ys, ?_, ?_, hdt, ?_, hxs⟩
  · rw [hw.project]
    exact hmeans
  · exact (componentKey_settles f).again hcom hw
  · rw [hw.project]
    exact hys

theorem get_foldl_orItself (keys added : List String) (hnd : keys.Nodup) (c : Condition)
    (t : Grouping Condition) (k : String) :
    (keys.foldl (fun t k => if added.contains k then t else t.add k c) t).get k
      = t.get k ++ if k ∈ keys ∧ k ∉ added then [c] else [] := by
  induction keys generalizing t with
  | nil => simp
  | cons key keys ih =>
    obtain ⟨hkey, hr⟩ := nodup_cons.mp hnd
    rw [foldl_cons, ih hr]
    by_cases hk : k = key
    · subst hk
      by_cases had : k ∈ added
      · simp [had]
      · simp [had, hkey, get_add]
    · by_cases had : key ∈ added
      · simp [had, hk]
      · simp [had, hk, get_add]

theorem canonDates_eq_ok {fs : List Field} {dates : List (Option String)}
    (h : (fs.mapM fun f => do return (← f.canonDate) : Action (List (Option String))) w
      = (.ok dates, w')) : w = w' ∧ ∀ d, d ∈ dates ↔ ∃ f ∈ fs, f.canonDate = .ok d := by
  induction fs generalizing dates w with
  | nil =>
    obtain ⟨rfl, rfl⟩ := pure_eq_ok.mp h
    simp
  | cons f fs ih =>
    rw [mapM_cons] at h
    obtain ⟨date, hdt, h⟩ := of_lift_bind h
    obtain ⟨rest, hr, rfl⟩ := of_bind_pure h
    obtain ⟨rfl, hmem⟩ := ih hr
    have hfst : f.canonDate = .ok date := hdt
    refine ⟨rfl, fun d => ?_⟩
    simp [hmem, hfst, eq_comm]

theorem conditionStep_spec {dimensions : Grouping Field}
    {t t' : Grouping Condition} (hnd : metrics.keys.Nodup)
    (h : conditionStep metrics dimensions all t c w = (.ok t', w'))
    (hk : k ∈ metrics.keys ++ dimensions.keys) :
    ∃ xs, Becomes metrics all w' k c xs ∧ t'.get k = t.get k ++ xs := by
  have hw : w.Extends w' := (conditionStep_follows metrics dimensions all t c).way h
  unfold conditionStep at h
  replace h := of_project_bind h
  obtain ⟨dates, w2, hdts, h⟩ := of_bind h
  obtain ⟨rfl, hmem⟩ := canonDates_eq_ok hdts
  obtain ⟨v, hv, h⟩ := of_lift_bind h
  obtain ⟨name, hn, h⟩ := of_lift_bind h
  obtain ⟨f, hf, h⟩ := of_lift_bind h
  obtain ⟨components, w6, hcom, h⟩ := of_bind h
  obtain ⟨⟨t1, added⟩, w7, hss, h⟩ := of_bind h
  obtain ⟨rfl, hks⟩ := whereSteps_spec (nodup_eraseDups _) hss
  obtain ⟨rfl, rfl⟩ := pure_eq_ok.mp h
  obtain ⟨ys, hys, hget, had⟩ := (hks k).1 (mem_eraseDups.mpr hk)
  have hmeans : c.Means w.project name f := by
    refine ⟨?_, hf⟩
    cases v <;> cases hn
    exact Definition.need_eq_ok.mp hv
  have hset := (componentKey_settles f).again hcom (refl_of _ w6)
  refine ⟨orItself (metrics.has k) c ys,
    ⟨name, f, components, dates.contains (some f.key), ys, ?_, hset, ?_, ?_, rfl⟩, ?_⟩
  · rw [hw.project]
    exact hmeans
  · rw [contains_iff_mem, hmem]
    rfl
  · rw [hw.project]
    exact hys
  · rw [get_foldl_orItself _ _ hnd, hget, append_assoc]
    have hem : k ∉ added ↔ ys = [] := by
      rw [had]
      simp
    unfold orItself
    by_cases hno : ys = []
    · simp [hem, hno, has_iff]
    · simp [hem, hno]

/-! ### Conditions of the same text -/

/-- What is written for a condition, to tell it from others. -/
def writtenFor (d : Definition) : String :=
  Json.render (Json.sortKeys (.map (d.map fun (k, v) => (k, .text v.plain))))

/-- All entries have the same text. -/
def Alike (d e : Definition) : Prop := ∀ k, (d.get? k).map Value.plain = (e.get? k).map Value.plain

theorem alike_of_writtenFor {d e : Definition} (h : writtenFor d = writtenFor e) : Alike d e := by
  have htx : ∀ d : Definition, writtenFor d =
      Json.render (.map (Json.texts (Json.byKey (d.map fun (k, v) => (k, v.plain))))) := by
    intro d
    rw [← Json.sortKeys_texts]
    unfold writtenFor Json.texts
    rw [map_map]
    rfl
  have hfi : ∀ (d : Definition) (k : String), (d.get? k).map Value.plain
        = ((d.map fun (k, v) => (k, v.plain)).find? (·.1 == k)).map (·.2) := by
    intro d k
    rw [List.find?_map, Definition.get?, Option.map_map, Option.map_map]
    rfl
  rw [htx, htx] at h
  intro k
  rw [hfi, hfi, Json.find?_eq_of_byKey_eq (Json.render_texts_inj h)]

end MergedQuery

/-- Two different texts with one digest. -/
def Sha256.Collide (s t : String) : Prop := s ≠ t ∧ Sha256.ofText s = Sha256.ofText t

namespace MergedQuery

/-- **Conditions with one digest have entries of the same text**, unless the digest collides. -/
theorem alike_or_collide {d e : Definition} (h : fingerprint d = fingerprint e) :
    Alike d e ∨ Sha256.Collide (writtenFor d) (writtenFor e) := by
  by_cases hwr : writtenFor d = writtenFor e
  · exact Or.inl (alike_of_writtenFor hwr)
  · exact Or.inr ⟨hwr, h⟩

theorem exists_mem_distinctConditions (hc : c ∈ cs) :
    ∃ c' ∈ distinctConditions cs, fingerprint c'.definition = fingerprint c.definition := by
  have hmarked : (fingerprint c.definition, c) ∈
      (cs.map fun c => (fingerprint c.definition, c)).reverse := by
    rw [mem_reverse]
    exact mem_map.mpr ⟨c, hc, rfl⟩
  have hsome : ((cs.map fun c => (fingerprint c.definition, c)).reverse.find?
      (·.1 == fingerprint c.definition)).isSome := by
    rw [List.find?_isSome]
    exact ⟨_, hmarked, by simp⟩
  obtain ⟨e, he⟩ := Option.isSome_iff_exists.mp hsome
  have hdigest : e.1 = fingerprint c.definition := by simpa using List.find?_some he
  obtain ⟨c', -, rfl⟩ := mem_map.mp (mem_reverse.mp (List.mem_of_find?_eq_some he))
  refine ⟨c', ?_, hdigest⟩
  unfold distinctConditions
  refine mem_filterMap.mpr ⟨fingerprint c.definition, ?_, by simp [he]⟩
  rw [mem_eraseDups]
  exact mem_map.mpr ⟨_, mem_map.mpr ⟨c, hc, rfl⟩, rfl⟩

/-! ### The conditions of a sub-query -/

variable {q : MergedQuery} {parts : Parts}

theorem Steps.wheres_eq (s : q.Steps w parts w')
    (hk : k ∈ parts.metrics.keys ++ parts.dimensions.keys) :
    ∃ xss, List.Forall₂ (Becomes parts.metrics s.counterparts w' k) s.conditions xss ∧
      parts.wheres.get k = distinctConditions xss.flatten := by
  have hrun := foldlM_track (P := fun done t w' => ∃ xss,
      List.Forall₂ (Becomes parts.metrics s.counterparts w' k) done xss ∧ t.get k = xss.flatten)
    s.areBrought ⟨[], .nil, rfl⟩ ?_
  · obtain ⟨xss, hxss, hget⟩ := hrun
    refine ⟨xss, hxss, ?_⟩
    rw [s.areClean, get_map _ rfl, hget]
  · rintro done t c t' w1 w2 ⟨xss, hxss, hget⟩ hs
    have hw : w1.Extends w2 := (conditionStep_follows _ _ _ _ _).way hs
    obtain ⟨xs, hxs, hget'⟩ := conditionStep_spec s.nodup_keys hs hk
    refine ⟨xss ++ [xs], ?_, by simp [hget', hget]⟩
    have hdone := hxss.imp fun c xs h => Becomes.of_extends h hw
    exact rel_append hdone (List.Forall₂.cons hxs .nil)

/-- A copy of a condition in a sub-query: it differs in its field only, which stands there for the
field of the condition. -/
def IsCopy (p : Project) (all : Grouping Counterpart) (part : String) (c x : Condition) : Prop :=
  ∃ name f, c.Means p name f ∧ ∃ m ∈ all.get f.key, m.part = part ∧
    ∃ g, p.getField (framed m.field f) = .ok g ∧ x = c.on g.id

theorem mem_brought {f : Field} {components : String} {isDate : Bool}
    (h : brought p all f components isDate c part = .ok xs) (hx : x ∈ xs) :
    x = c ∨ ∃ m ∈ all.get f.key, m.part = part ∧
      ∃ g, p.getField (framed m.field f) = .ok g ∧ x = c.on g.id := by
  unfold brought at h
  split_ifs at h with hbel
  · cases h
    exact Or.inl (mem_singleton.mp hx)
  · obtain ⟨m, hm, hrun⟩ := Result.exists_of_mem_mapM h hx
    obtain ⟨g, hg, hrun⟩ := Result.of_bind hrun
    cases hrun
    obtain ⟨hmem, hpt⟩ := mem_filter.mp hm
    exact Or.inr ⟨m, hmem, by simpa using hpt, g, hg, rfl⟩

theorem Becomes.isCopy (h : Becomes metrics all w part c xs) (hx : x ∈ xs) :
    x = c ∨ IsCopy w.project all part c x := by
  obtain ⟨name, f, components, isDate, ys, hmeans, -, -, hys, rfl⟩ := h
  unfold orItself at hx
  split_ifs at hx
  · exact Or.inl (mem_singleton.mp hx)
  · exact (mem_brought hys hx).imp_right fun hcopy => ⟨name, f, hmeans, hcopy⟩

theorem Becomes.ne_nil (h : Becomes metrics all w part c xs)
    (hpt : part ∈ metrics.keys) : xs ≠ [] := by
  obtain ⟨name, f, components, isDate, ys, -, -, -, -, rfl⟩ := h
  have hhas := (has_iff metrics part).mpr hpt
  unfold orItself
  by_cases hno : ys = [] <;> simp [hno, hhas]

theorem Steps.conditions_eq (s : q.Steps w parts w') (hcs : q.wheres = .listed cs) :
    s.conditions = cs := by
  have h := s.areConditions
  unfold needWheres at h
  rw [hcs] at h
  exact (Except.ok.inj h).symm

/-- **No condition is lost.**  Every sub-query with metrics has every condition, itself or a copy,
up to the texts of its entries; a condition that is not there was taken for another of the same
digest. -/
theorem parts_keep_conditions (h : q.parts w = (.ok parts, w')) {cs : List Condition}
    (hcs : q.wheres = .listed cs) :
    ∃ s : q.Steps w parts w', ∀ k ∈ parts.metrics.keys, ∀ c ∈ cs,
      ∃ x, (x = c ∨ IsCopy w.project s.counterparts k c x) ∧
        ∃ y ∈ parts.wheres.get k, Alike y.definition x.definition ∨
          Sha256.Collide (writtenFor y.definition) (writtenFor x.definition) := by
  obtain ⟨s⟩ := parts_eq_ok h
  refine ⟨s, fun k hk c hc => ?_⟩
  obtain ⟨xss, hxss, hget⟩ := s.wheres_eq (mem_append_left _ hk)
  rw [s.conditions_eq hcs] at hxss
  obtain ⟨i, hi, rfl⟩ := getElem_of_mem hc
  have hlength := hxss.length_eq
  have hbecomes := List.Forall₂.get hxss hi (hlength ▸ hi)
  obtain ⟨x, hx⟩ := exists_mem_of_ne_nil _ (hbecomes.ne_nil hk)
  have hproject : w'.project = w.project := by
    rw [s.extends_last.project, s.project_placed]
  have hcopy := hbecomes.isCopy hx
  rw [hproject] at hcopy
  refine ⟨x, hcopy, ?_⟩
  have hmem : x ∈ xss.flatten := mem_flatten.mpr ⟨_, get_mem _ _, hx⟩
  obtain ⟨y, hy, hdigest⟩ := exists_mem_distinctConditions hmem
  exact ⟨y, hget ▸ hy, alike_or_collide hdigest⟩

/-! ### Two shops

Two views of one component, with a date and a number each, and a condition on the first date. -/

namespace Shops

def project (first second : String) : Store := store [first, second] fields

def workspace (first second : String) : Workspace := among [first, second] fields

def isMade (view : String) : Condition where
  definition :=
    [("field", .text (view ++ ".made_raw")), ("expression", .text "is_not_null"), ("value", .null)]

def query (first second : String) : MergedQuery :=
  { numbers [first, second] [] with wheres := .listed [isMade first] }

def looksAlong (parts : Parts) (k date : String) : Bool :=
  (parts.metrics.get k).any fun g => g.isMeasure && g.canonDate.toOption == some (some date)

theorem looksAlong_iff :
    looksAlong parts k date = true ↔ LooksAlong parts.metrics k date := by
  have hdt : ∀ g : Field, g.canonDate.toOption = some (some date) ↔
      g.canonDate = .ok (some date) := by
    intro g
    cases g.canonDate <;> simp [Except.toOption]
  unfold looksAlong LooksAlong
  simp [hdt]

theorem parts_calls_sales : ∃ parts w',
    (query "calls" "sales").parts (workspace "calls" "sales") = (.ok parts, w') ∧
      (looksAlong parts "calls_made__subquery_0" "calls.made" &&
        looksAlong parts "sales_made__subquery_0" "sales.made") = true := by
  apply exists_of_any
  unfold MergedQuery.parts layout dates Layout.keys partsOf Action.fieldMappings
    Model.fieldMappings Model.mappings Mapping.mostCommon
  simp only [mergeSort_by_text, mergeSort_by_count]
  decide +kernel

end Shops

theorem parts_keep_conditions_shops : ∃ parts w',
    (Shops.query "calls" "sales").parts (Shops.workspace "calls" "sales") = (.ok parts, w') ∧
    (LooksAlong parts.metrics "calls_made__subquery_0" "calls.made" ∧
      LooksAlong parts.metrics "sales_made__subquery_0" "sales.made") ∧
    ∃ s : (Shops.query "calls" "sales").Steps (Shops.workspace "calls" "sales") parts w',
      ∀ k ∈ parts.metrics.keys, ∀ c ∈ [Shops.isMade "calls"],
        ∃ x, (x = c ∨ IsCopy (Shops.workspace "calls" "sales").project s.counterparts k c x) ∧
          ∃ y ∈ parts.wheres.get k, Alike y.definition x.definition ∨
            Sha256.Collide (writtenFor y.definition) (writtenFor x.definition) := by
  obtain ⟨parts, w', h, hdates⟩ := Shops.parts_calls_sales
  rw [Bool.and_eq_true, Shops.looksAlong_iff, Shops.looksAlong_iff] at hdates
  exact ⟨parts, w', h, hdates, parts_keep_conditions h rfl⟩

end MergedQuery

end SemanticLayer
