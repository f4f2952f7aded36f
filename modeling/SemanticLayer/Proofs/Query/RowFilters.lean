import SemanticLayer.Proofs.Query.Assembly
import SemanticLayer.Proofs.Query.RowKey
import SemanticLayer.Proofs.Query.Where

/-!
# Which views the access filters restrict

The access filters of a selection are collected from the views that its fields need
(`Design.accessFilter_eq_ok`), before the joins are planned, and stand in front of the conditions of
the request (`Selection.read_wheres`).  The plan can read more views: those on the way, those of the
fields in the filters themselves, and those that a funnel adds.
-/

namespace SemanticLayer

open Result List Design

variable {access : Option String} {d : Design} {found : List (List (List String × Field))}
  {js : List Join} {p : Project} {q : Selection} {r : Reading} {rs : List Restriction}
  {view : String} {views : List String} {w w' : Workspace} {warehouse : Warehouse} {a : Assembly}

variable {cs : List Sql.Criterion}

/-! ### Filters of a view -/

/-- The user has a value for the attribute of an access filter. -/
def Project.Restricts (p : Project) (filter : Value) : Prop :=
  ∃ entries key user, filter.needMap = .ok entries ∧
    entries.need "user_attribute" = .ok (.text key) ∧ p.user = some user ∧
    (user.get key).truthy = true

namespace Design

def Declares (p : Project) (d : Design) (view : String) (filter : Value) : Prop :=
  ∃ v items, d.view p view = .ok v ∧ (v.property "access_filters").truthy = true ∧
    (v.property "access_filters").iterate = .ok items ∧ filter ∈ items

def Needs (p : Project) (d : Design) (view : String) : Prop :=
  ∃ e ∈ d.fields, ∃ views, e.2.requiredViews p = .ok views ∧ view ∈ views

def viewConditions (p : Project) (d : Design) (view : String) :
    Result (List (List String × Field)) := do
  let v ← d.view p view
  let filters := v.property "access_filters"
  if filters.truthy then (← filters.iterate).filterMapM (accessCondition p d.warehouse)
  else return []

theorem accessCondition_of_restricts {filter : Value}
    {found : Option (List String × Field)} (hrst : p.Restricts filter)
    (h : accessCondition p warehouse filter = .ok found) : ∃ cs f, found = some (cs, f) := by
  obtain ⟨entries, key, user, hens, hkey, huser, hval⟩ := hrst
  unfold accessCondition at h
  obtain ⟨entries', hens', h⟩ := of_bind h
  cases hens.symm.trans hens'
  iterate 4 obtain ⟨_, -, h⟩ := of_bind h
  obtain ⟨key', hkey', h⟩ := of_bind h
  cases hkey.symm.trans hkey'
  simp only [huser, hval] at h
  obtain ⟨_, -, h⟩ := of_bind h
  obtain ⟨cs, -, h⟩ := of_bind h
  cases h
  exact ⟨cs, _, rfl⟩

theorem mem_viewConditions
    {found : List (List String × Field)} (h : d.viewConditions p view = .ok found)
    (c : List String × Field) : c ∈ found ↔ ∃ filter, d.Declares p view filter ∧
      accessCondition p d.warehouse filter = .ok (some c) := by
  unfold viewConditions at h
  obtain ⟨v, hv, h⟩ := of_bind h
  extract_lets filters at h
  by_cases hfilters : filters.truthy = true
  · rw [if_pos hfilters] at h
    obtain ⟨items, hits, h⟩ := of_bind h
    rw [(filterMapM_eq_ok h).2]
    constructor
    · rintro ⟨filter, hmem, hc⟩
      exact ⟨filter, ⟨v, items, hv, hfilters, hits, hmem⟩, hc⟩
    · rintro ⟨filter, ⟨v', items', hv', -, hits', hmem⟩, hc⟩
      cases hv.symm.trans hv'
      cases hits.symm.trans hits'
      exact ⟨filter, hmem, hc⟩
  · rw [if_neg hfilters] at h
    cases h
    refine iff_of_false (not_mem_nil) ?_
    rintro ⟨filter, ⟨v', _, hv', htru, -⟩, -⟩
    cases hv.symm.trans hv'
    exact hfilters htru

theorem exists_condition
    {found : List (List String × Field)} (h : d.viewConditions p view = .ok found) {filter : Value}
    (hdec : d.Declares p view filter) (hrst : p.Restricts filter) :
    ∃ cs f, accessCondition p d.warehouse filter = .ok (some (cs, f)) := by
  obtain ⟨v, items, hv, htru, hits, hmem⟩ := hdec
  unfold viewConditions at h
  obtain ⟨v', hv', h⟩ := of_bind h
  cases hv.symm.trans hv'
  extract_lets filters at h
  rw [if_pos htru] at h
  obtain ⟨items', hits', h⟩ := of_bind h
  cases hits.symm.trans hits'
  obtain ⟨o, ho⟩ := (filterMapM_eq_ok h).1 filter hmem
  obtain ⟨cs, f, rfl⟩ := accessCondition_of_restricts hrst ho
  exact ⟨cs, f, ho⟩

/-! ### Filters of a design -/

theorem mem_viewsOf {fields : List Field} (h : viewsOf p fields = .ok views) (v : String) :
    v ∈ views ↔ ∃ f ∈ fields, ∃ own, f.requiredViews p = .ok own ∧ v ∈ own := by
  obtain ⟨found, hfd, h⟩ := of_bind h
  cases h
  rw [mem_eraseDups, mem_flatten]
  constructor
  · rintro ⟨own, hown, hv⟩
    obtain ⟨f, hf, hrun⟩ := exists_of_mem_mapM hfd hown
    exact ⟨f, hf, own, hrun, hv⟩
  · rintro ⟨f, hf, own, hrun, hv⟩
    obtain ⟨own', hown', hrun'⟩ := exists_of_mapM hfd hf
    cases hrun.symm.trans hrun'
    exact ⟨own, hown', hv⟩

structure Collects (p : Project) (d : Design) (views : List String)
    (found : List (List (List String × Field))) : Prop where
  ofFields : viewsOf p (d.fields.map (·.2)) = .ok views
  ofViews : views.mapM (d.viewConditions p) = .ok found

def conjuncts (found : List (List (List String × Field))) : List String :=
  found.flatten.flatMap (·.1)

theorem accessFilter_eq_ok {used : List Field} (h : d.accessFilter p = .ok (access, used)) :
    ∃ views found, d.Collects p views found ∧ access = if conjuncts found = [] then none
        else some (Text.join " and " (conjuncts found)) := by
  obtain ⟨views, hvs, h⟩ := of_bind h
  obtain ⟨found, hfd, h⟩ := of_bind h
  refine ⟨views, found, ⟨hvs, hfd⟩, ?_⟩
  extract_lets conditions fields at h
  change access = if conditions = [] then none else some (Text.join " and " conditions)
  by_cases hno : conditions = []
  · rw [if_pos (by simp [hno])] at h
    cases h
    rw [if_pos hno]
  · have hfs : fields ≠ [] := by
      intro hfs
      rw [map_eq_nil_iff] at hfs
      exact hno (by simp [conditions, hfs])
    rw [if_neg (by simp [hno, hfs])] at h
    rw [if_neg hno]
    exact (congrArg Prod.fst (Except.ok.inj h)).symm

theorem Collects.mem_conjuncts (h : d.Collects p views found) (c : String) :
    c ∈ conjuncts found ↔ ∃ view filter cs f, d.Needs p view ∧ d.Declares p view filter ∧
      accessCondition p d.warehouse filter = .ok (some (cs, f)) ∧ c ∈ cs := by
  have hnee : ∀ v, v ∈ views ↔ d.Needs p v := by
    intro v
    rw [mem_viewsOf h.ofFields]
    simp only [Needs, mem_map, exists_exists_and_eq_and]
  unfold conjuncts
  simp only [mem_flatMap, mem_flatten]
  constructor
  · rintro ⟨⟨cs, f⟩, ⟨own, hown, hmem⟩, hc⟩
    obtain ⟨v, hv, hrun⟩ := exists_of_mem_mapM h.ofViews hown
    obtain ⟨filter, hdec, hcnd⟩ := (mem_viewConditions hrun _).mp hmem
    exact ⟨v, filter, cs, f, (hnee v).mp hv, hdec, hcnd, hc⟩
  · rintro ⟨v, filter, cs, f, hv, hdec, hcnd, hc⟩
    obtain ⟨own, hown, hrun⟩ := exists_of_mapM h.ofViews ((hnee v).mpr hv)
    exact ⟨(cs, f), ⟨own, hown, (mem_viewConditions hrun _).mpr ⟨filter, hdec, hcnd⟩⟩, hc⟩

theorem Collects.join_ne_empty (h : d.Collects p views found)
    (hsome : conjuncts found ≠ []) : Text.join " and " (conjuncts found) ≠ "" := by
  obtain ⟨first, rest, hcjs⟩ := exists_cons_of_ne_nil hsome
  have hfst : first ≠ "" := by
    obtain ⟨_, _, cs, f, -, -, hcnd, hmem⟩ :=
      (h.mem_conjuncts first).mp (hcjs ▸ mem_cons_self ..)
    exact ne_empty_of_accessCondition hcnd first hmem
  rw [hcjs]
  cases rest <;> simp [Text.join, hfst]

theorem Collects.condition (h : d.Collects p views found)
    (hnee : d.Needs p view) {filter : Value} (hdec : d.Declares p view filter)
    (hrst : p.Restricts filter) :
    ∃ cs f, accessCondition p d.warehouse filter = .ok (some (cs, f)) ∧ cs ⊆ conjuncts found := by
  obtain ⟨e, he, own, hown, hmem⟩ := hnee
  have hv : view ∈ views :=
    (mem_viewsOf h.ofFields view).mpr ⟨e.2, mem_map_of_mem he, own, hown, hmem⟩
  obtain ⟨_, -, hrun⟩ := exists_of_mapM h.ofViews hv
  obtain ⟨cs, f, hcnd⟩ := exists_condition hrun hdec hrst
  refine ⟨cs, f, hcnd, fun c hc => (h.mem_conjuncts c).mpr ?_⟩
  exact ⟨view, filter, cs, f, ⟨e, he, own, hown, hmem⟩, hdec, hcnd, hc⟩

/-! ### What is read -/

theorem reads_required {base : String} (hvs : d.requiredViews w.project = .ok views)
    (hjoins : d.joins w = (.ok js, w')) (hb : d.baseOf w.project js = .ok base) {v : String}
    (hv : v ∈ views) : base = v ∨ ∃ j ∈ js, j.target.plain = v := by
  obtain ⟨views', g, pairs, hvs', -, hpn, hjs⟩ := joins_eq_ok.mp hjoins
  cases hvs.symm.trans hvs'
  obtain ⟨-, hleads⟩ := JoinGraph.joins_eq_ok hjs
  by_cases hmany : 1 < views.length
  · obtain ⟨root, hspans⟩ := JoinGraph.plan_spans hmany hpn (requiredViews_nodup hvs)
    obtain ⟨e, hhead, rfl⟩ := Option.map_eq_some_iff.mp hspans.head
    obtain ⟨rest, rfl⟩ := List.head?_eq_some_iff.mp hhead
    -- the first pair is the first join
    have hroot : base = e.1 := by
      cases hleads with
      | cons hj _ =>
        rw [baseOf, hj.1] at hb
        cases hb
        rfl
    rcases hspans.covers v hv with rfl | htgt
    · exact Or.inl hroot
    · have hfst := (JoinGraph.mem_targets_firstTo [] (e :: rest) v).mpr ⟨htgt, by simp⟩
      rw [JoinGraph.targets, ← JoinGraph.map_ends_of_leads hleads, map_map] at hfst
      obtain ⟨j, hj, rfl⟩ := mem_map.mp hfst
      exact Or.inr ⟨j, hj, rfl⟩
  · obtain ⟨rfl⟩ : views = [v] := by
      cases views with
      | nil => cases hv
      | cons u rest =>
        cases rest with
        | nil => rw [mem_singleton.mp hv]
        | cons u' rest => simp at hmany
    cases hpn
    cases hleads
    left
    rw [baseOf, hvs] at hb
    cases hb
    rfl

end Design

/-! ### In front of the conditions of the request -/

def Conditions.each : Conditions → List Condition
  | .absent => []
  | .text sql => [{ definition := [("literal", .text sql)] }]
  | .listed items => items

/-- A conjunction of access filters, as a condition of the selection. -/
def Design.added (d : Design) (conjuncts : List String) : List Restriction :=
  if conjuncts = [] then [] else [.literal d (Text.join " and " conjuncts)]

namespace Selection

theorem readConditions_eq_ok {side : Side} {cs : Conditions}
    (h : readConditions d side access cs w = (.ok rs, w')) :
    (((access.filter fun s => !s.isEmpty).toList.map fun s =>
        ({ definition := [("literal", .text s)] } : Condition)) ++ cs.each).mapM
      (Restriction.read d side) w = (.ok rs, w') := by
  cases cs <;> exact h

theorem readWheres_eq_ok (hne : ∀ c ∈ access, c ≠ "") (h : q.readWheres d access w = (.ok rs, w')) :
    ∃ own, rs = access.toList.map (Restriction.literal d) ++ own ∧
      ∀ x ∈ own, ∃ c ∈ q.wheres.each, ∃ w1 w2, Restriction.read d .rows c w1 = (.ok x, w2) := by
  unfold readWheres at h
  by_cases hgv : (q.wheres.isGiven || access.any (!·.isEmpty)) = true
  · rw [if_pos hgv] at h
    have hrd := readConditions_eq_ok h
    cases access with
    | none => exact ⟨rs, rfl, fun x hx => Action.exists_of_mem_mapM hrd hx⟩
    | some c =>
      have hfr : (Option.filter (fun s : String => !s.isEmpty) (some c)).toList = [c] := by
        simp [hne c rfl]
      rw [hfr] at hrd
      simp only [map_cons, cons_append, mapM_cons] at hrd
      obtain ⟨first, w1, hfst, hrd⟩ := Action.of_bind hrd
      obtain ⟨rfl, rfl⟩ := Restriction.read_literal hfst
      obtain ⟨own, hown, rfl⟩ := Action.of_bind_pure hrd
      exact ⟨own, rfl, fun x hx => Action.exists_of_mem_mapM hown hx⟩
  · rw [if_neg hgv] at h
    obtain ⟨rfl, -⟩ := Action.pure_eq_ok.mp h
    cases access with
    | none => exact ⟨[], rfl, by simp⟩
    | some c => simp [hne c rfl] at hgv

/-- **The conditions on rows are those of the access filters, as one text, and behind it those of the
request.** -/
theorem read_wheres (h : q.read d w = (.ok r, w')) :
    ∃ views found own, d.Collects w.project views found ∧
      r.wheres = d.added (Design.conjuncts found) ++ own ∧
      ∀ x ∈ own, ∃ c ∈ q.wheres.each, ∃ w1 w2, Restriction.read d .rows c w1 = (.ok x, w2) := by
  unfold read at h
  replace h := Action.of_project_bind h
  obtain ⟨⟨access, used⟩, hacc, h⟩ := Action.of_lift_bind h
  obtain ⟨views, found, hcollects, hcjs⟩ := accessFilter_eq_ok hacc
  obtain ⟨rs, w2, hrs, h⟩ := Action.of_bind h
  have hne : ∀ c ∈ access, c ≠ "" := by
    rintro c rfl
    exact accessFilter_ne_empty hacc
  obtain ⟨own, rfl, hown⟩ := readWheres_eq_ok hne hrs
  have had : access.toList.map (Restriction.literal d) = d.added (conjuncts found) := by
    rw [hcjs, added]
    split_ifs <;> rfl
  rw [had] at h
  by_cases hfew : 1 < (List.filter Restriction.isFunnel
      (d.added (conjuncts found) ++ own)).length
  · rw [if_pos hfew] at h
    cases h
  rw [if_neg hfew] at h
  iterate 3 obtain ⟨_, _, -, h⟩ := Action.of_bind h
  obtain ⟨rfl, -⟩ := Action.pure_eq_ok.mp h
  refine ⟨views, found, own.filter fun r => !r.isGrouped && !r.isFunnel, hcollects, ?_,
    fun x hx => hown x (mem_of_mem_filter hx)⟩
  -- what is added is neither a condition on groups nor one on steps
  have hkp : (d.added (conjuncts found)).filter (fun r => !r.isGrouped && !r.isFunnel)
      = d.added (conjuncts found) := by
    unfold added
    split_ifs <;> rfl
  rw [filter_append, hkp]

end Selection

/-! ### The text of a condition -/

def Field.ofText (v : View) (text : String) : Field where
  view := v
  definition := [("sql", .text text), ("name", .null), ("field_type", .null)]

namespace Field

variable {v : View} {text : String}

theorem expression_ofText (hno : Reference.all text = []) :
    (ofText v text).expression p = .ok (some text) := by
  have hlow : lowerReferences text = text := by rw [lowerReferences, hno, foldl_nil]
  have hrd : (ofText v text).expression p = .ok (some (lowerReferences text)) := rfl
  rw [hrd, hlow]

theorem rawSql_ofText (hno : Reference.all text = [])
    (hpl : isTemplate text = false) (hne : text ≠ "") : (ofText v text).rawSql p warehouse false
      = .ok (.text (some (Text.collapseBlanks (Text.strip text)))) := by
  have hnonEmpty : nonEmpty (some text) = some text := by simp [nonEmpty, hne]
  have hall : ∀ table raw, (ofText v text).replaceAll p (some text) table false raw
      = .ok (some (Text.collapseBlanks (Text.strip text))) := by
    intro table raw
    rw [replaceAll, hnonEmpty]
    dsimp only
    rw [hpl, replaceReferences, hno]
    rfl
  change rawWithin p warehouse false View.name (30 * p.size + 29 + 1) (ofText v text) = _
  have hme : ((ofText v text).isMeasure && (ofText v text).hasType "number") = false := rfl
  have hgr : ((ofText v text).isGroup && (ofText v text).hasType "time") = false := rfl
  rw [rawWithin]
  simp only [hme, hgr, expression_ofText hno, hnonEmpty, hall, Bool.false_eq_true,
    if_false, bind, Except.bind, pure, Except.pure]

theorem sqlQuery_ofText {key : RowKey} (hno : Reference.all text = [])
    (hpl : isTemplate text = false) (hne : text ≠ "") :
    (ofText v text).sqlQuery p (some warehouse) key false
      = .ok (some (Text.collapseBlanks (Text.strip text))) := by
  change sqlWithin p false View.name (30 * p.size + 29 + 1) key warehouse (ofText v text) = _
  have hcum : ((ofText v text).hasType "cumulative" && false) = false := rfl
  have hme : (ofText v text).isMeasure = false := rfl
  rw [sqlWithin, rawSql_ofText hno hpl hne]
  simp only [hcum, hme, Bool.false_eq_true, if_false, Bool.not_false, if_true, bind,
    Except.bind, pure, Except.pure]

end Field

theorem Design.LiteralSql.eq_of_plain
    {text sql : String} (h : d.LiteralSql p js text sql) (hno : Reference.all text = [])
    (hpl : Field.isTemplate text = false) (hne : text ≠ "") :
    sql = Text.collapseBlanks (Text.strip text) := by
  have hlit : (Restriction.literal d text).isLiteral = true := rfl
  unfold Design.LiteralSql at h
  obtain ⟨base, -, h⟩ := of_bind h
  obtain ⟨v, -, h⟩ := of_bind h
  obtain ⟨f, hf, h⟩ := of_bind h
  obtain ⟨key, -, h⟩ := of_bind h
  have hfld : (Restriction.literal d text).literalField v = .ok (Field.ofText v text) := rfl
  obtain rfl : f = Field.ofText v text := Except.ok.inj (hf.symm.trans hfld)
  obtain ⟨found, hfd, h⟩ := of_bind h
  cases h
  rw [Except.ok.inj (hfd.symm.trans (Field.sqlQuery_ofText hno hpl hne))]
  rfl

namespace Selection

theorem warehouse_funnelTables {select inner : Selection → Design → Action Sql.Statement}
    {d' : Design} {front : List (String × Sql.Statement)} {link : Option (Restriction × Field)}
    (h : funnelTables ⟨select, Funnel.tables inner⟩ q d r w = (.ok (front, link, d'), w')) :
    d'.warehouse = d.warehouse := by
  refine funnelTables_induct (P := fun e => e.warehouse = d.warehouse) (fun e f _ he => ?_) rfl h
  unfold put
  split_ifs <;> exact he

namespace Assembly

/-- The selection reads a view: it starts from it, or joins it. -/
def Reads (a : Assembly) (view : String) : Prop :=
  a.design.baseOf a.joined.project a.joins = .ok view ∨ ∃ j ∈ a.joins, j.target.plain = view

/-- Criteria come from the conditions of a request. -/
def AskedFor (a : Assembly) (d : Design) (q : Selection) (cs : List Sql.Criterion) : Prop :=
  ∃ rs, criteria a.joined.project a.design a.joins rs = .ok cs ∧
    ∀ r ∈ rs, ∃ c ∈ q.wheres.each, ∃ w w', Restriction.read d .rows c w = (.ok r, w')

/-- Criteria are a conjunction: none if there is nothing to conjoin, and else one text, up to blanks
unless there is something to replace in it. -/
def Conjoins (a : Assembly) (conjuncts : List String) (cs : List Sql.Criterion) : Prop :=
  if conjuncts = [] then cs = []
  else ∃ sql, cs = [.raw sql] ∧
    a.design.LiteralSql a.joined.project a.joins (Text.join " and " conjuncts) sql ∧
    (Reference.all (Text.join " and " conjuncts) = [] →
      Field.isTemplate (Text.join " and " conjuncts) = false →
      sql = Text.collapseBlanks (Text.strip (Text.join " and " conjuncts)))

theorem Of.reads {compilers : Compilers} (h : a.Of compilers q d r w w')
    (hnee : a.design.Needs a.opened.project view) : a.Reads view := by
  obtain ⟨e, he, own, hown, hv⟩ := hnee
  obtain ⟨views, g, -, hvs, hg, -⟩ := joins_eq_ok.mp h.joins
  obtain ⟨_, hjoined⟩ := Action.joinGraph_eq_ok hg
  have hpr : a.joined.project = a.opened.project := by rw [hjoined]
  obtain ⟨base, hb, -⟩ := h.base
  have hmem : view ∈ views := by
    obtain ⟨⟨_, access⟩, -, hvs⟩ := of_bind hvs
    exact (mem_viewsOf hvs view).mpr
      ⟨e.2, mem_append_left _ (mem_map_of_mem he), own, hown, hv⟩
  rcases reads_required hvs h.joins (hpr ▸ hb) hmem with rfl | hj
  · exact Or.inl hb
  · exact Or.inr hj

theorem conjoins_of_criteria {conjuncts : List String} (hwar : a.design.warehouse = d.warehouse)
    (hne : conjuncts ≠ [] → Text.join " and " conjuncts ≠ "")
    (h : criteria a.joined.project a.design a.joins (d.added conjuncts) = .ok cs) :
    a.Conjoins conjuncts cs := by
  unfold Conjoins
  unfold added at h
  split_ifs at h ⊢ with hno
  · cases h
    rfl
  · have hsm : Restriction.literal d (Text.join " and " conjuncts)
        = Restriction.literal a.design (Text.join " and " conjuncts) := by
      rw [Restriction.literal, Restriction.literal, hwar]
    rw [hsm] at h
    obtain ⟨found, hfd, h⟩ := of_bind h
    cases h
    cases mapM_eq_ok hfd with
    | cons hrd hr =>
      cases hr
      obtain ⟨sql, rfl⟩ := Restriction.inDesign_literal hrd
      refine ⟨sql, rfl, hrd, fun hreferences htemplate => ?_⟩
      exact Design.LiteralSql.eq_of_plain hrd hreferences htemplate (hne hno)

end Assembly

theorem criteria_append {rs' : List Restriction} (h : criteria p d js (rs ++ rs') = .ok cs) :
    ∃ cs1 cs2, criteria p d js rs = .ok cs1 ∧ criteria p d js rs' = .ok cs2 ∧ cs = cs1 ++ cs2 := by
  unfold criteria at h ⊢
  rw [mapM_append] at h
  obtain ⟨found, hfd, h⟩ := of_bind h
  obtain ⟨first, hfst, hfd⟩ := of_bind hfd
  obtain ⟨second, hsnd, hfd⟩ := of_bind hfd
  cases hfd
  cases h
  exact ⟨first.flatten, second.flatten, by rw [hfst]; rfl, by rw [hsnd]; rfl, flatten_append⟩

/-- **Access filters reach the views that fields need, and no others.**  In every selection the
conditions on rows are a conjunction and behind it what the request asks for.  The conditions of the
access filters of views that a field needs are in the conjunction, and nothing else is.  So a view
that is read without being needed by a field is read in full. -/
theorem access_filters_reach_needed_views
    {select inner : Selection → Design → Action Sql.Statement} {q : Selection} {d : Design}
    {st : Sql.Statement} {w w' : Workspace}
    (h : q.compileWith ⟨select, Funnel.tables inner⟩ d w = (.ok st, w')) :
    ∃ (a : Assembly) (r : Reading) (w₁ : Workspace) (conjuncts : List String)
      (added own : List Sql.Criterion),
      a.Of ⟨select, Funnel.tables inner⟩ q d r w₁ w' ∧ st = .select a.tables (a.body q.limit) ∧
      a.wheres = added ++ own ∧ a.Conjoins conjuncts added ∧ a.AskedFor d q own ∧
      (∀ view, a.design.Needs a.opened.project view → a.Reads view) ∧
      (∀ view, d.Needs w.project view → ∀ filter, d.Declares w.project view filter →
        w.project.seen.Restricts filter →
        ∃ cs f, Design.accessCondition w.project d.warehouse filter = .ok (some (cs, f)) ∧
          cs ⊆ conjuncts) ∧
      ∀ c ∈ conjuncts, ∃ view filter cs f, d.Needs w.project view ∧
        d.Declares w.project view filter ∧
        Design.accessCondition w.project d.warehouse filter = .ok (some (cs, f)) ∧ c ∈ cs := by
  obtain ⟨r, w₁, hread, hbuild⟩ := Action.of_bind h
  obtain ⟨views, found, asked, hcollects, hwheres, hasked⟩ := read_wheres hread
  obtain ⟨a, ha, rfl⟩ := build_eq_ok hbuild
  have hcriteria := ha.wheres
  rw [hwheres] at hcriteria
  obtain ⟨added, own, hadded, hown, happend⟩ := criteria_append hcriteria
  refine ⟨a, r, w₁, Design.conjuncts found, added, own, ha, rfl, happend, ?_, ⟨asked, hown, hasked⟩,
    fun view => ha.reads, ?_, fun c hc => (hcollects.mem_conjuncts c).mp hc⟩
  · exact Assembly.conjoins_of_criteria (warehouse_funnelTables ha.front) hcollects.join_ne_empty
      hadded
  · intro view hneeds filter hdeclares hrestricts
    exact hcollects.condition hneeds hdeclares hrestricts

end Selection

/-! ### Sales of a region

The views of `Regions` are one, and its access filter stands in the `WHERE`. -/

namespace Regions

def filter : Value := .map [("field", .text "sales.region"), ("user_attribute", .text "region")]

theorem restricts_filter : project.seen.Restricts filter :=
  ⟨_, "region", [("region", .text "Europe")], rfl, rfl, rfl, rfl⟩

theorem declares_filter : design.Declares project "sales" filter :=
  ⟨_, _, rfl, rfl, rfl, mem_singleton_self _⟩

theorem needs_sales : design.Needs project "sales" :=
  ⟨_, mem_singleton_self _, ["sales"], by cbv, mem_singleton_self _⟩

end Regions

theorem Selection.access_filters_reach_sales : ∃ st w' conjuncts cs f,
    Regions.query.compile Regions.design Regions.workspace = (.ok st, w') ∧
    Regions.design.Needs Regions.project "sales" ∧
    Design.accessCondition Regions.project .snowflake Regions.filter = .ok (some (cs, f)) ∧
    cs ⊆ conjuncts ∧ ∃ (a : Assembly) (added own : List Sql.Criterion),
      st = .select a.tables (a.body Regions.query.limit) ∧ a.wheres = added ++ own ∧
      a.Conjoins conjuncts added := by
  obtain ⟨tables, body, w', hrun, -⟩ := Regions.compile_query
  obtain ⟨a, _, _, conjuncts, added, own, -, hst, happend, hconjoins, -, -, hreach, -⟩ :=
    access_filters_reach_needed_views hrun
  obtain ⟨cs, f, hcondition, hsubset⟩ :=
    hreach "sales" Regions.needs_sales Regions.filter Regions.declares_filter
      Regions.restricts_filter
  exact ⟨_, w', conjuncts, cs, f, hrun, Regions.needs_sales, hcondition, hsubset, a, added, own, hst,
    happend, hconjoins⟩

/-! ### Sales by region

A sale has a customer and a customer a region.  The user sees customers of one tier. -/

namespace Tiers

def dimension (name : String) : Definition :=
  [("name", .text name), ("field_type", .text "dimension"), ("type", .text "string"),
    ("sql", .text ("$\x7bTABLE\x7d." ++ name))]

def identifier (name type field : String) : Value :=
  .map [("name", .text name), ("type", .text type), ("sql", .text ("$\x7b" ++ field ++ "\x7d"))]

def filter : Value := .map [("field", .text "customers.tier"), ("user_attribute", .text "tier")]

def entry (name : String) (shelf : Nat) (identifiers : List Value) (more : Definition) :
    ViewEntry where
  definition := [("name", .text name), ("sql_table_name", .text name), ("model_name", .text "shop"),
    ("identifiers", .list identifiers)] ++ more
  shelf := some shelf

def project : Store :=
  { (default : Store) with
    models := [[("name", .text "shop"), ("connection", .text "c")]]
    views :=
      [entry "sales" 0 [identifier "customer" "foreign" "buyer"] [],
        entry "customers" 1
          [identifier "customer" "primary" "id", identifier "region" "foreign" "region"]
          [("access_filters", .list [filter])],
        entry "regions" 2 [identifier "region" "primary" "id"] []]
    shelves :=
      [⟨["buyer", "channel"].map dimension, .null⟩, ⟨["id", "region", "tier"].map dimension, .null⟩,
        ⟨["id", "name"].map dimension, .null⟩]
    user := some [("tier", .text "gold")] }

def workspace : Workspace where
  project := project

def field (view name : String) (shelf : Nat) : String × Field :=
  (view ++ "." ++ name,
    { view := { (default : View) with
        definition := (entry view shelf [] []).definition, shelf := shelf },
      definition := dimension name })

def design : Design where
  warehouse := .snowflake
  model := none
  fields := [field "sales" "channel" 0, field "regions" "name" 2]

def query : Selection where
  metrics := []
  dimensions := ["sales.channel", "regions.name"]

/-- The tables that a statement reads, and the number of its conditions on rows. -/
def reading : Sql.Statement → Option (List (Option String) × Nat)
  | .select _ body =>
    some (body.source.bind (·.name) :: body.joins.map (·.source.name), body.wheres.length)
  | _ => none

theorem declares_filter : design.Declares project "customers" filter :=
  ⟨_, _, rfl, rfl, rfl, mem_singleton_self _⟩

theorem restricts_filter : project.seen.Restricts filter :=
  ⟨_, "tier", [("tier", .text "gold")], rfl, rfl, rfl, rfl⟩

end Tiers

/-- The customers of all tiers are read on the way from sales to regions. -/
theorem Tiers.customers_read_in_full :
    design.Declares project "customers" filter ∧ project.seen.Restricts filter ∧
    ∃ tables body w', query.compile design workspace = (.ok (.select tables body), w') ∧
      (∃ join ∈ body.joins, join.source.name = some "customers") ∧ body.wheres = [] := by
  refine ⟨declares_filter, restricts_filter, ?_⟩
  have hreading : (query.compile design workspace).1.toOption.bind reading
      = some ([some "sales", some "customers", some "regions"], 0) := by
    decide +kernel
  rcases hrun : query.compile design workspace with ⟨e | st, w'⟩
  · rw [hrun] at hreading
    cases hreading
  · rw [hrun] at hreading
    cases st with
    | select tables body =>
      obtain ⟨htables, hwheres⟩ := Prod.mk.inj (Option.some.inj hreading)
      have hjoins := (List.cons.inj htables).2
      have hcustomers : some "customers" ∈ body.joins.map (·.source.name) := by simp [hjoins]
      obtain ⟨join, hjoin, hname⟩ := mem_map.mp hcustomers
      exact ⟨tables, body, w', rfl, ⟨join, hjoin, hname⟩, length_eq_zero_iff.mp hwheres⟩
    | _ => cases hreading

end SemanticLayer
