import SemanticLayer.Proofs.Query.Assembly
import SemanticLayer.Proofs.Query.Effect
import SemanticLayer.Proofs.Query.Noninterference

/-!
# Orders that are asked for

The `SELECT` of a selection ends with the columns to order by, in front of any limit
(`Selection.compile_orders`).  Cumulative metrics and funnels refuse an order
(`CumulativeQuery.compile_refuses`, `Funnel.compileWith_refuses`), and merged results have none at
all (`MergedQuery.compile_orders`).
-/

namespace SemanticLayer

open SemanticLayer.Action List Result Selection

variable {cs : List Condition} {d : Design} {ds : List Definition} {mapped : List String}
  {names : Names} {old new text : String} {q : Selection} {r s : Resolution} {st : Sql.Statement}
  {w w' : Workspace} {p : Project}

variable {keys : List OrderKey}

/-! ### The end of a statement -/

namespace Sql

/-- The end of a selection: its order, and behind it the limit of most warehouses. -/
def Select.ending (s : Select) : String :=
  Select.clause "ORDER BY" (s.orders.map fun (f, d) => f ++ " " ++ d.word)
    ++ (if s.dialect.limitsInFront || s.limit.isNull then "" else " LIMIT " ++ s.limit.plain)

theorem Select.render_eq_ok {s : Select} (h : s.render = .ok text) :
    ∃ front, text = front ++ s.ending := by
  obtain ⟨wheres, -, h⟩ := of_bind h
  obtain ⟨havings, -, h⟩ := of_bind h
  cases h
  exact ⟨_, String.append_assoc ..⟩

theorem Statement.render_select {tables : List (String × Statement)} {body : Select}
    (h : (Statement.select tables body).render = .ok text) :
    (body.columns = [] ∧ text = "") ∨ (body.columns ≠ [] ∧ ∃ front, text = front ++ body.ending) := by
  rw [Statement.render] at h
  split_ifs at h with hcol
  · cases h
    exact .inl ⟨List.isEmpty_iff.mp hcol, rfl⟩
  · obtain ⟨front, -, h⟩ := of_bind h
    obtain ⟨rest, hr, h⟩ := of_bind h
    cases h
    obtain ⟨own, rfl⟩ := Select.render_eq_ok hr
    refine .inr ⟨fun hnil => hcol (List.isEmpty_iff.mpr hnil), _, (String.append_assoc ..).symm⟩

end Sql

/-! ### Reading an order -/

namespace Selection

/-- A part of an order names a field; the statement has its column and the direction. -/
def OrdersBy (p : Project) (m : Option Model) (d : Definition) (o : String × Sql.Direction) :
    Prop :=
  ∃ name sort f, d.get? "field" = some (.text name) ∧
    ((d.get? "sort").getD (.text "asc")).asText = .ok sort ∧ p.getField name none m = .ok f ∧
    o = (f.column, if Text.lower sort = "desc" then .descending else .ascending)

theorem orderKey_eq_ok {d : Definition} {k : OrderKey} (h : orderKey (.map d) = .ok k) :
    ∃ sort, ((d.get? "sort").getD (.text "asc")).asText = .ok sort ∧
      k = ⟨some (d.get? "field"), .text (Text.lower sort)⟩ := by
  obtain ⟨d', hd', h⟩ := of_bind h
  cases hd'
  obtain ⟨sort, hsort, h⟩ := of_bind h
  cases h
  exact ⟨sort, hsort, rfl⟩

theorem orderColumns_listed {orders : List (String × Sql.Direction)}
    (hks : (ds.map Value.map).mapM orderKey = .ok keys) (hshifts : d.shifts = [])
    (h : q.orderColumns p d keys = .ok orders) : List.Forall₂ (OrdersBy p d.model) ds orders := by
  have hrd := forall₂_map_left_iff.mp (mapM_eq_ok hks)
  unfold orderColumns at h
  clear hks
  induction hrd generalizing orders with
  | nil =>
    cases h
    exact .nil
  | @cons e k ds keys hk hrd ih =>
    rw [filterMapM_cons] at h
    obtain ⟨o, ho, h⟩ := of_bind h
    obtain ⟨sort, hsort, rfl⟩ := orderKey_eq_ok hk
    cases hfld : e.get? "field" with
    | none =>
      rw [hfld] at ho
      cases ho
    | some v =>
      rw [hfld] at ho
      obtain ⟨name, hn, ho⟩ := of_bind ho
      obtain ⟨f, hf, ho⟩ := of_bind ho
      cases ho
      obtain ⟨rest, hr, h⟩ := of_bind h
      cases h
      obtain ⟨g, hg, -, -, heq⟩ := Design.field_eq_ok hf
      cases heq hshifts
      refine .cons ⟨name, sort, f, ?_, hsort, hg, ?_⟩ (ih hr)
      · rw [hfld, Value.eq_text_of_needText hn]
      · simp [Value.isTextOf]

theorem readOrder_eq_ok (hgv : q.orders.truthy = true) (h : q.readOrder d = .ok keys) :
    q.isUngrouped = false ∧ readOrders q.orders = .ok keys := by
  unfold readOrder at h
  rw [hgv] at h
  cases hungrouped : q.isUngrouped with
  | true =>
    rw [hungrouped] at h
    cases h
  | false =>
    rw [hungrouped] at h
    exact ⟨rfl, h⟩

theorem read_orders {r : Reading} (hgv : q.orders.truthy = true) (h : q.read d w = (.ok r, w')) :
    q.isUngrouped = false ∧ readOrders q.orders = .ok r.orders := by
  obtain ⟨p, w1, hp, h⟩ := of_bind h
  obtain ⟨⟨access, used⟩, w2, -, h⟩ := of_bind h
  obtain ⟨wheres, w3, -, h⟩ := of_bind h
  dsimp only at h
  split_ifs at h
  · cases h
  obtain ⟨havings, w4, -, h⟩ := of_bind h
  obtain ⟨keys, w5, hks, h⟩ := of_bind h
  obtain ⟨windows, -, rfl⟩ := of_bind_pure h
  exact readOrder_eq_ok hgv (lift_eq_ok.mp hks).1

theorem compile_ne_ok_of_ungrouped
    (hgv : q.orders.truthy = true) (hungrouped : q.isUngrouped = true) :
    q.compile d w ≠ (.ok st, w') := by
  intro h
  obtain ⟨r, w1, hrd, -⟩ := of_bind h
  rw [(read_orders hgv hrd).1] at hungrouped
  cases hungrouped

/-- The parts of an order as a selection is given them. -/
def listedOrders (ds : List Definition) : Value := .list (ds.map .map)

theorem length_le_columns {key : Result RowKey} {cs : List Sql.Column}
    (hgrouped : q.isUngrouped = false) (h : q.columns p d key = .ok cs) :
    (q.dimensions ++ q.metrics).length ≤ cs.length := by
  unfold columns at h
  rw [hgrouped] at h
  obtain ⟨own, hown, h⟩ := of_bind h
  have hlen := (mapM_eq_ok hown).length_eq
  split_ifs at h
  · obtain ⟨raw, -, h⟩ := of_bind h
    cases h
    rw [hlen, length_append]
    exact Nat.le_add_right _ _
  · cases h
    exact Nat.le_of_eq hlen

/-- **A selection honours the order it is given**: its columns, in the given order and directions,
by the project as it is when the selection is done. -/
theorem compile_orders (hord : q.orders = listedOrders ds) (hds : ds ≠ [])
    (hshifts : d.shifts = []) (h : q.compile d w = (.ok st, w')) :
    ∃ tables body, st = .select tables body ∧ body.limit = q.limit ∧
      (q.dimensions ++ q.metrics).length ≤ body.columns.length ∧
      List.Forall₂ (OrdersBy w'.project d.model) ds body.orders := by
  have hgv : q.orders.truthy = true := by
    rw [hord]
    simpa [listedOrders, Value.truthy] using hds
  obtain ⟨r, w1, hrd, hbd⟩ := of_bind h
  obtain ⟨hgrouped, hks⟩ := read_orders hgv hrd
  obtain ⟨a, ha, rfl⟩ := build_eq_ok hbd
  have hdsg : a.design.model = d.model ∧ a.design.shifts = d.shifts :=
    funnelTables_induct (P := fun e => e.model = d.model ∧ e.shifts = d.shifts)
      (fun e f _ he => ⟨(e.model_put _ _).trans he.1, (e.shifts_put _ _).trans he.2⟩) ⟨rfl, rfl⟩ ha.front
  have hcol := ha.orders
  rw [ifGrouped, hgrouped] at hcol
  rw [hord] at hks
  refine ⟨a.tables, a.body q.limit, rfl, rfl, length_le_columns hgrouped ha.columns, ?_⟩
  rw [← hdsg.1]
  exact orderColumns_listed hks (hdsg.2.trans hshifts) hcol

end Selection

/-! ### Where orders are refused -/

theorem Funnel.compileWith_refuses {f : Funnel} {limit : Value} (hgv : f.orders.truthy = true) :
    f.compileWith Selection.compile limit d w ≠ (.ok st, w') := by
  intro h
  obtain ⟨t, _, h, -⟩ := of_bind h
  obtain ⟨dialect, _, -, h⟩ := of_bind h
  obtain ⟨p, _, -, h⟩ := of_bind h
  obtain ⟨date, _, -, h⟩ := of_bind h
  obtain ⟨conditions, _, -, h⟩ := of_bind h
  obtain ⟨havings, _, -, h⟩ := of_bind h
  obtain ⟨wheres, _, -, h⟩ := of_bind h
  obtain ⟨link, _, -, h⟩ := of_bind h
  obtain ⟨_, _, -, h⟩ := of_bind h
  obtain ⟨⟨design, keys⟩, _, -, h⟩ := of_bind h
  -- the events of the base stand by themselves
  obtain ⟨base, _, hb, -⟩ := of_bind h
  exact compile_ne_ok_of_ungrouped hgv rfl hb

namespace CumulativeQuery

variable {q : CumulativeQuery} (hgv : q.orders.truthy = true)
include hgv

theorem inner_ne_ok {metrics : List Field} {dimensions : List String} {wheres : Conditions} :
    q.inner d metrics dimensions wheres true w ≠ (.ok st, w') := by
  intro h
  unfold inner at h
  split_ifs at h
  · cases h
  · exact compile_ne_ok_of_ungrouped hgv rfl h

theorem rows_ne_ok {keys : Result (List String)} {frame : Value} {r : Running} :
    q.rows d keys frame r w ≠ (.ok st, w') := by
  intro h
  obtain ⟨p, _, -, h⟩ := of_bind h
  obtain ⟨own, _, -, h⟩ := of_bind h
  obtain ⟨date, _, -, h⟩ := of_bind h
  by_cases hcnd : r.condition.truthy = true
  · rw [if_pos hcnd] at h
    iterate 3 obtain ⟨_, _, -, h⟩ := of_bind h
    exact inner_ne_ok hgv h
  · rw [if_neg hcnd] at h
    iterate 3 obtain ⟨_, _, -, h⟩ := of_bind h
    exact inner_ne_ok hgv h

theorem compile_refuses : q.compile d w ≠ (.ok st, w') := by
  intro h
  obtain ⟨p, _, -, h⟩ := of_bind h
  obtain ⟨⟨cumulative, others⟩, _, -, h⟩ := of_bind h
  obtain ⟨dialect, _, -, h⟩ := of_bind h
  obtain ⟨spineText, _, -, h⟩ := of_bind h
  obtain ⟨running, _, -, h⟩ := of_bind h
  obtain ⟨first, _, hfst, h⟩ := of_bind h
  obtain ⟨frame, _, -, h⟩ := of_bind h
  obtain ⟨state, _, hrun, -⟩ := of_bind h
  cases running with
  | nil => cases (lift_eq_ok.mp hfst).1
  | cons r rest =>
    obtain ⟨_, _, hs, -⟩ := of_bind hrun
    obtain ⟨rows, _, hrs, -⟩ := of_bind hs
    exact rows_ne_ok hgv hrs

end CumulativeQuery

/-! ### Single queries and merged results -/

theorem SingleQuery.compile_orders {q : SingleQuery} {c : Compiled}
    (hord : q.orders = .listed cs) (hcs : cs ≠ []) (h : q.compile w = (.ok c, w')) :
    ∃ tables body, c.statementOf = .select tables body ∧ body.limit = q.limit ∧
      (q.dimensions ++ q.metrics).length ≤ body.columns.length ∧
      List.Forall₂ (Selection.OrdersBy w'.project q.model) (cs.map (·.definition)) body.orders := by
  have hshown : shownConditions q.orders = listedOrders (cs.map (·.definition)) := by
    rw [hord, listedOrders, map_map]
    rfl
  have hgv : (shownConditions q.orders).truthy = true := by
    rw [hshown]
    simpa [listedOrders, Value.truthy] using hcs
  obtain ⟨isFunnel, _, -, h⟩ := of_bind h
  obtain ⟨whereNames, _, -, h⟩ := of_bind h
  obtain ⟨havingNames, _, -, h⟩ := of_bind h
  obtain ⟨orderNames, _, -, h⟩ := of_bind h
  obtain ⟨warehouse, _, -, h⟩ := of_bind h
  obtain ⟨p, _, -, h⟩ := of_bind h
  obtain ⟨⟨fields, isUngrouped, isCumulative⟩, _, -, h⟩ := of_bind h
  dsimp only at h
  by_cases hboth : (isCumulative && isFunnel) = true
  · rw [if_pos hboth] at h
    obtain ⟨_, _, hthrow, -⟩ := of_bind h
    cases hthrow
  rw [if_neg hboth] at h
  split_ifs at h with hcum hfn
  · obtain ⟨st, _, hst, -⟩ := of_bind h
    exact absurd hst (CumulativeQuery.compile_refuses hgv)
  · obtain ⟨st, _, hst, -⟩ := of_bind h
    exact absurd hst (Funnel.compileWith_refuses hgv)
  · obtain ⟨st, hst, rfl⟩ := of_bind_pure h
    obtain ⟨hmodel, hshifts⟩ := Design.foldl_put Prod.fst Prod.snd fields
      { warehouse := warehouse, model := q.model, fields := [] }
    have hall := Selection.compile_orders hshown (by simpa using hcs) hshifts hst
    rwa [hmodel] at hall

/-- **Merged results have no order**, whatever is asked for. -/
theorem MergedQuery.compile_orders {q : MergedQuery} {funnel : Value}
    (h : q.compile funnel w = (.ok st, w')) :
    ∃ tables body, st = .select tables body ∧ body.limit = q.options.get "limit" ∧
      body.orders = [] := by
  unfold compile at h
  split_ifs at h
  · obtain ⟨_, _, hthrow, -⟩ := of_bind h
    cases hthrow
  -- whatever the parts are, the order of the statement is not among them
  iterate 14 obtain ⟨_, _, -, h⟩ := of_bind h
  obtain ⟨rfl, -⟩ := pure_eq_ok.mp h
  exact ⟨_, _, rfl, rfl, rfl⟩

/-! ### Resolving an order -/

namespace Resolution

theorem compileMerged_of_compile {sql : String} (h : r.compile w = (.ok (sql, .merged), w')) :
    ∃ dimensions w1, { r with dimensions := dimensions }.compileMerged w1 = (.ok sql, w') := by
  have hk : ∀ {a : Action String} {w1}, (do return (← a, QueryKind.merged) : Action _) w1
      = (.ok (sql, .merged), w') → a w1 = (.ok sql, w') := by
    intro a w1 h
    obtain ⟨sql', w2, hrun, h⟩ := of_bind h
    obtain ⟨heq, rfl⟩ := pure_eq_ok.mp h
    cases heq
    exact hrun
  have haft : ∀ {r : Resolution} {attempted w1},
      r.compileMergedAfter attempted w1 = (.ok sql, w') → r.compileMerged w1 = (.ok sql, w') := by
    intro r attempted w1 hrun
    unfold compileMergedAfter at hrun
    rw [tryCatch_apply] at hrun
    rcases hmg : r.compileMerged w1 with ⟨e | sql', w2⟩
    · rw [hmg] at hrun
      dsimp only at hrun
      split_ifs at hrun <;> cases hrun
    · rw [hmg] at hrun
      exact hrun
  obtain ⟨p, w1, hp, h⟩ := of_bind h
  obtain ⟨isMerged, w2, -, h⟩ := of_bind h
  cases isMerged with
  | true => exact ⟨r.dimensions, _, haft (hk h)⟩
  | false =>
    obtain ⟨given, w3, -, h⟩ := of_bind h
    obtain ⟨found, w4, -, h⟩ := of_bind h
    cases found with
    | ok sql' => cases h
    | error e =>
      dsimp only at h
      split_ifs at h
      · have hrun := hk h
        unfold compileFallback at hrun
        rw [get_bind] at hrun
        exact ⟨_, _, haft hrun⟩
      · cases h

/-- A part of an order with its name resolved: only mapped names are replaced, and nothing else. -/
def PartOf (mapped : List String) (given : Definition) (c : Condition) : Prop :=
  c.definition.get? "sort" = given.get? "sort" ∧
    ((∀ n ∈ mapped, given.get? "field" ≠ some (.text n)) →
      c.definition.get? "field" = given.get? "field")

theorem PartOf.replace {given : Definition} {c : Condition} {e : Entry} (hold : old ∈ mapped)
    (hc : PartOf mapped given c) (h : replaceEntry old new ⟨c.definition, none⟩ = .ok e) :
    PartOf mapped given { c with definition := e.definition } := by
  obtain ⟨field, hfld, h⟩ := of_bind h
  rw [Definition.need_eq_ok] at hfld
  cases h
  by_cases hn : field.isTextOf old = true
  · rw [if_pos hn]
    refine ⟨?_, fun hnot => ?_⟩
    · rw [← hc.1, Definition.get?_set, if_neg (by decide)]
    · rw [hc.2 hnot, Value.isTextOf_iff.mp hn] at hfld
      exact absurd hfld (hnot old hold)
  · rw [if_neg hn]
    exact hc

theorem replaceOrder_listed {shape : Conditions} (hold : old ∈ mapped)
    (hcs : List.Forall₂ (PartOf mapped) ds cs) (h : replaceOrder old new (.listed cs) = .ok shape) :
    ∃ cs', shape = .listed cs' ∧ List.Forall₂ (PartOf mapped) ds cs' := by
  obtain ⟨cs', hcs', hshape⟩ := of_bind h
  cases hshape
  refine ⟨cs', rfl, ?_⟩
  have hss := mapM_eq_ok hcs'
  clear h hcs'
  induction hcs generalizing cs' with
  | nil =>
    cases hss
    exact .nil
  | cons hc _ ih =>
    cases hss with
    | cons hs hss =>
      obtain ⟨e, he, hs⟩ := of_bind hs
      cases hs
      exact .cons (hc.replace hold he) (ih _ hss)

/-- A request with names resolved: as many metrics and dimensions, and the order part by part. -/
structure Ordered (mapped : List String) (ds : List Definition) (r s : Resolution) : Prop where
  model : s.model = r.model
  options : s.options = r.options
  metrics : s.metrics.length = r.metrics.length
  dimensions : s.dimensions.length = r.dimensions.length
  orders : ∃ cs, s.orders = .listed cs ∧ List.Forall₂ (PartOf mapped) ds cs

theorem length_replaceFirst (names : List String) (old new : String) :
    (replaceFirst names old new).length = names.length := by
  unfold replaceFirst
  split
  · exact length_set
  · rfl

theorem Ordered.replace {s' : Resolution} {f : Field} (hold : old ∈ mapped)
    (hs : Ordered mapped ds r s) (h : s.replace names old f w = (.ok s', w')) :
    Ordered mapped ds r s' := by
  obtain ⟨_, _, -, h⟩ := of_bind h
  obtain ⟨wheres, _, -, h⟩ := of_bind h
  obtain ⟨havings, _, -, h⟩ := of_bind h
  obtain ⟨orders, hord, h⟩ := of_lift_bind h
  obtain ⟨rfl, -⟩ := pure_eq_ok.mp h
  obtain ⟨cs, hcs, hpts⟩ := hs.orders
  refine ⟨hs.model, hs.options, (length_replaceFirst _ _ _).trans hs.metrics,
    (length_replaceFirst _ _ _).trans hs.dimensions, ?_⟩
  unfold replaceOrdered at hord
  rw [hcs] at hord
  split_ifs at hord
  · exact replaceOrder_listed hold hpts hord
  · cases hord
    exact ⟨cs, rfl, hpts⟩

/-- What a change of a name keeps is kept when all mapped names are replaced, together or one that
stands alone first. -/
theorem replaced_induct {P : Resolution → Prop}
    (hmerged : ∀ {s : Resolution} {b : Bool}, P s → P { s with isMerged := b })
    (hreplace : ∀ {s s' : Resolution} {old : String} {f : Field} {w w' : Workspace},
      old ∈ names.mapped.map (·.1) → P s → s.replace names old f w = (.ok s', w') → P s')
    (hr : P r)
    (h : r.replaceAmong names w = (.ok s, w') ∨ r.replaceAlone names w = (.ok s, w')) : P s := by
  obtain h | h := h
  · obtain ⟨graphs, w1, -, h⟩ := of_bind h
    refine foldlM_induct_mem h hr ?_
    rintro s ⟨name, d⟩ s' w2 w3 hmem hs hstep
    obtain ⟨⟨f, isMerged⟩, w4, -, hstep⟩ := of_bind hstep
    exact hreplace (mem_map_of_mem (f := (·.1)) hmem) (hmerged hs) hstep
  · unfold replaceAlone at h
    cases hmap : names.mapped with
    | nil =>
      rw [hmap] at h
      obtain ⟨rfl, -⟩ := pure_eq_ok.mp h
      exact hr
    | cons e rest =>
      rw [hmap] at h hreplace
      obtain ⟨first, _, -, h⟩ := of_bind h
      obtain ⟨p, _, -, h⟩ := of_bind h
      obtain ⟨f, _, -, h⟩ := of_bind h
      obtain ⟨graphs, _, -, h⟩ := of_bind h
      obtain ⟨s1, _, hs1, h⟩ := of_bind h
      refine foldlM_induct_mem h (hreplace (by simp) hr hs1) ?_
      rintro s ⟨name, d⟩ s' w2 w3 hmem hs hstep
      obtain ⟨_, _, -, hstep⟩ := of_bind hstep
      obtain ⟨g, _, -, hstep⟩ := of_bind hstep
      exact hreplace (mem_cons_of_mem _ (mem_map_of_mem (f := (·.1)) hmem)) hs hstep

def Names.KnowsMapped (mappings : Result Definition) (names : Names) : Prop :=
  ∀ e ∈ names.mapped, ∃ ms, mappings = .ok ms ∧ Model.mapped? ms e.1 = .ok (some e.2)

theorem Names.KnowsMapped.step {m : Model} {mappings : Result Definition} {names' : Names}
    {name : String} (hns : names.KnowsMapped mappings)
    (h : names.step m mappings name w = (.ok names', w')) : names'.KnowsMapped mappings := by
  obtain ⟨ms, _, hms, h⟩ := of_bind h
  obtain ⟨mapped, _, hmap, h⟩ := of_bind h
  cases mapped with
  | some d =>
    obtain ⟨rfl, -⟩ := pure_eq_ok.mp h
    split_ifs
    · exact hns
    · intro e he
      obtain he | he := mem_append.mp he
      · exact hns e he
      · cases mem_singleton.mp he
        exact ⟨ms, (lift_eq_ok.mp hms).1, (lift_eq_ok.mp hmap).1⟩
  | none =>
    obtain ⟨p, _, -, h⟩ := of_bind h
    obtain ⟨f, _, -, h⟩ := of_bind h
    obtain ⟨graphs, -, rfl⟩ := of_bind_pure h
    split_ifs
    · exact hns
    · exact hns

theorem resolveNames_ordered (hord : r.orders = .listed cs) (h : r.resolveNames w = (.ok s, w')) :
    ∃ mapped, (∀ n ∈ mapped, ∃ ms d, r.model.mappings w.project = .ok ms ∧
        Model.mapped? ms n = .ok (some d)) ∧ Ordered mapped (cs.map (·.definition)) r s := by
  obtain ⟨wheres, _, hcur, h⟩ := of_bind h
  cases hcur
  obtain ⟨rows, -, h⟩ := of_lift_bind h
  obtain ⟨havings, _, hcur, h⟩ := of_bind h
  cases hcur
  obtain ⟨groups, -, h⟩ := of_lift_bind h
  obtain ⟨ordered, -, h⟩ := of_lift_bind h
  replace h := of_project_bind h
  obtain ⟨names, w1, hns, h⟩ := of_bind h
  have hkn : names.KnowsMapped (r.model.mappings w.project) :=
    foldlM_induct _ hns (fun e he => nomatch he)
      fun names n names' w w' hn hs => hn.step hs
  have hself : Ordered (names.mapped.map (·.1)) (cs.map (·.definition)) r r := by
    refine ⟨rfl, rfl, rfl, rfl, cs, hord, ?_⟩
    rw [forall₂_map_left_iff]
    exact forall₂_same.mpr fun c _ => ⟨rfl, fun _ => rfl⟩
  have hunmerged : ∀ {s : Resolution} {b : Bool},
      Ordered (names.mapped.map (·.1)) (cs.map (·.definition)) r s →
      Ordered (names.mapped.map (·.1)) (cs.map (·.definition)) r { s with isMerged := b } :=
    fun hs => ⟨hs.model, hs.options, hs.metrics, hs.dimensions, hs.orders⟩
  refine ⟨names.mapped.map (·.1), fun n hn => ?_, ?_⟩
  · obtain ⟨e, he, rfl⟩ := mem_map.mp hn
    obtain ⟨ms, hms, hmap⟩ := hkn e he
    exact ⟨ms, e.2, hms, hmap⟩
  · split_ifs at h
    · obtain ⟨rfl, -⟩ := pure_eq_ok.mp h
      exact hself
    · exact replaced_induct hunmerged (fun hold hs => hs.replace hold) hself (.inr h)
    · exact replaced_induct hunmerged (fun hold hs => hs.replace hold) hself (.inl h)

end Resolution

/-! ### Requests -/

/-- A part of the order of a request with its name resolved: one that the model does not map is kept,
and so is the direction. -/
def Request.ResolvesTo (m : Model) (p : Project) (given : Definition) (c : Condition) : Prop :=
  c.definition.get? "sort" = given.get? "sort" ∧ ∀ name, given.get? "field" = some (.text name) →
      (∀ ms d, m.mappings p = .ok ms → Model.mapped? ms name ≠ .ok (some d)) →
      c.definition.get? "field" = some (.text name)

theorem orderItems_listed (ds : List Definition) :
    SingleQuery.orderItems (Selection.listedOrders ds)
      = .ok (.listed (ds.map fun d => { definition := d })) := by
  have hmp : (ds.map Value.map).mapM Value.needMap = .ok ds := by
    induction ds with
    | nil => rfl
    | cons d ds ih =>
      rw [map_cons, mapM_cons, ih]
      rfl
  unfold SingleQuery.orderItems listedOrders
  dsimp only
  rw [Value.iterate, ok_bind, hmp]
  rfl

theorem Resolution.ofRequest_orders {connections : List Connection} {q : Request}
    (horders : q.orders = Selection.listedOrders ds) (h : ofRequest connections q w = (.ok r, w')) :
    r.options = q.options ∧ r.metrics.length = q.metrics.length ∧
      r.dimensions.length = q.dimensions.length ∧
      ∃ cs, r.orders = .listed cs ∧ List.Forall₂ (Request.ResolvesTo r.model w'.project) ds cs := by
  rw [ofRequest_eq] at h
  obtain ⟨r0, w0, htk, hns⟩ := of_bind h
  -- resolving names does not touch the project, so the mappings are those of the project behind it
  have hpr : w0.project = w'.project := by
    have hkp : Action.Follows (Workspace.Alone (fun _ => True) w0.chosen) Eq r0.resolveNames :=
      resolveNames_follows r0
    obtain ⟨-, -, hsm⟩ := hkp.alone trivial
    rw [hns] at hsm
    exact hsm r rfl
  have hr0 : r0.options = q.options ∧ r0.metrics = q.metrics ∧ r0.dimensions = q.dimensions ∧
      r0.orders = .listed (ds.map fun d => { definition := d }) := by
    iterate 9 obtain ⟨_, _, -, htk⟩ := of_bind htk
    obtain ⟨orders, _, hlift, htk⟩ := of_bind htk
    obtain ⟨hits, -⟩ := lift_eq_ok.mp hlift
    rw [horders, orderItems_listed] at hits
    cases hits
    obtain ⟨rfl, -⟩ := pure_eq_ok.mp htk
    exact ⟨rfl, rfl, rfl, rfl⟩
  obtain ⟨hopt, hmetrics, hdim, hord0⟩ := hr0
  obtain ⟨mapped, hmap, hord⟩ := resolveNames_ordered hord0 hns
  obtain ⟨cs, hcs, hpts⟩ := hord.orders
  refine ⟨hord.options.trans hopt, by rw [hord.metrics, hmetrics],
    by rw [hord.dimensions, hdim], cs, hcs, ?_⟩
  rw [map_map, Function.comp_def, map_id'] at hpts
  refine hpts.imp fun given c hpt => ⟨hpt.1, fun name hname hfree => ?_⟩
  rw [hpt.2, hname]
  intro n hn heq
  obtain ⟨ms, d, hms, hd⟩ := hmap n hn
  rw [hname] at heq
  cases heq
  rw [hpr, ← hord.model] at hms
  exact hfree ms d hms hd

/-- **What becomes of an order that is asked for.**  A single query ends with the columns of the
fields that were asked for, in their order and directions, in front of the limit; merged results
have no order. -/
theorem Request.orders_by_kind {connections : List Connection} {q : Request} {ds : List Definition}
    {c : CompiledQuery} {w w' : Workspace} (horders : q.orders = Selection.listedOrders ds)
    (hds : ds ≠ []) (h : q.compile connections w = (.ok c, w')) :
    ∃ r w1 cs tables body, Resolution.ofRequest connections q w = (.ok r, w1) ∧
      r.orders = .listed cs ∧ List.Forall₂ (ResolvesTo r.model w1.project) ds cs ∧
      (Sql.Statement.select tables body).render = .ok c.sql ∧
      body.limit = q.options.get "limit" ∧
      (body.columns = [] ∧ c.sql = "" ∨ body.columns ≠ [] ∧ ∃ front, c.sql = front ++ body.ending) ∧
      (c.kind = .single → (q.dimensions ++ q.metrics ≠ [] → body.columns ≠ []) ∧
        List.Forall₂ (Selection.OrdersBy w'.project (some r.model)) (cs.map (·.definition))
          body.orders) ∧
      (c.kind = .merged → body.orders = []) := by
  obtain ⟨r, w1, hresolve, h⟩ := of_bind h
  obtain ⟨⟨sql, kind⟩, hcompile, rfl⟩ := of_bind_pure h
  obtain ⟨hoptions, hmetrics, hdimensions, cs, hcs, hparts⟩ :=
    Resolution.ofRequest_orders horders hresolve
  have hnonempty : cs ≠ [] := by
    rintro rfl
    cases hparts
    exact hds rfl
  cases kind with
  | single =>
    have hsingle := Resolution.compileSingle_of_compile hcompile
    obtain ⟨wheres, _, -, hsingle⟩ := of_bind hsingle
    obtain ⟨havings, _, -, hsingle⟩ := of_bind hsingle
    obtain ⟨compiled, _, hquery, hsingle⟩ := of_bind hsingle
    obtain ⟨hrender, rfl⟩ := lift_eq_ok.mp hsingle
    obtain ⟨tables, body, hst, hlimit, hcolumns, hall⟩ :=
      SingleQuery.compile_orders hcs hnonempty hquery
    rw [hst] at hrender
    refine ⟨r, w1, cs, tables, body, hresolve, hcs, hparts, hrender, ?_,
      Sql.Statement.render_select hrender, fun _ => ⟨fun hnames hnil => hnames ?_, hall⟩, nofun⟩
    · rw [hlimit, ← hoptions]
      rfl
    · rw [hnil] at hcolumns
      have hcount : r.dimensions.length + r.metrics.length ≤ 0 := by
        simpa [Resolution.single] using hcolumns
      apply eq_nil_of_length_eq_zero
      rw [length_append]
      omega
  | merged =>
    obtain ⟨dimensions, w3, hmerged⟩ := Resolution.compileMerged_of_compile hcompile
    obtain ⟨wheres, _, -, hmerged⟩ := of_bind hmerged
    obtain ⟨havings, _, -, hmerged⟩ := of_bind hmerged
    obtain ⟨st, _, hquery, hmerged⟩ := of_bind hmerged
    obtain ⟨hrender, -⟩ := lift_eq_ok.mp hmerged
    obtain ⟨tables, body, rfl, hlimit, hnone⟩ := MergedQuery.compile_orders hquery
    refine ⟨r, w1, cs, tables, body, hresolve, hcs, hparts, hrender, ?_,
      Sql.Statement.render_select hrender, nofun, fun _ => hnone⟩
    rw [hlimit, ← hoptions]

namespace Cash

/-- The five largest sums, by a single query or by merged results. -/
def largest (isMerged : Bool) : Request where
  metrics := ["cash.spent"]
  orders := Selection.listedOrders [[("field", .text "cash.spent"), ("sort", .text "desc")]]
  options := [("query_type", .text "SNOWFLAKE"), ("limit", .int 5),
    ("merged_result", .bool isMerged)]

end Cash

open Cash in
theorem Request.orders_by_kind_largest :
    ∃ c w', (largest false).compile [] (workspace [spent]) = (.ok c, w') ∧ c.kind = .single ∧
      ∃ m cs, ∃ body : Sql.Select,
        List.Forall₂ (Selection.OrdersBy w'.project m) cs body.orders ∧
        body.orders.length = 1 ∧ ∃ front, c.sql = front ++ body.ending := by
  have hrun : ((largest false).compile [] (workspace [spent])).1.toOption.any
      (fun c => c.kind == .single) = true := by decide +kernel
  obtain ⟨c, w', hcompile, hkind⟩ := exists_of_any hrun
  have hsingle : c.kind = .single := eq_of_beq hkind
  obtain ⟨r, w1, cs, tables, body, -, -, hparts, -, -, htext, hhonoured, -⟩ :=
    orders_by_kind rfl (cons_ne_nil _ _) hcompile
  obtain ⟨hcolumns, hall⟩ := hhonoured hsingle
  refine ⟨c, w', hcompile, hsingle, _, _, body, hall, ?_, ?_⟩
  · rw [← hall.length_eq, length_map, ← hparts.length_eq]
    rfl
  · obtain ⟨hnil, -⟩ | ⟨-, hfront⟩ := htext
    · exact absurd hnil (hcolumns (cons_ne_nil _ _))
    · exact hfront

/-- The five rows of merged results are any five. -/
theorem Cash.largest_unordered : ∃ c w',
    (largest true).compile [] (workspace [spent]) = (.ok c, w') ∧ c.kind = .merged ∧
      c.sql = "WITH cash_at__cte_subquery_0 AS (SELECT SUM(cash.spent) as cash_spent FROM cash cash "
        ++ "ORDER BY cash_spent DESC) SELECT cash_at__cte_subquery_0.cash_spent as cash_spent "
        ++ "FROM cash_at__cte_subquery_0 LIMIT 5" := by
  have hrun : ((largest true).compile [] (workspace [spent])).1.toOption.any
      (fun c => c.kind == .merged && c.sql
        == "WITH cash_at__cte_subquery_0 AS (SELECT SUM(cash.spent) as cash_spent FROM cash cash "
          ++ "ORDER BY cash_spent DESC) SELECT cash_at__cte_subquery_0.cash_spent as cash_spent "
          ++ "FROM cash_at__cte_subquery_0 LIMIT 5") = true := by decide +kernel
  obtain ⟨c, w', hcompile, hcheck⟩ := exists_of_any hrun
  rw [Bool.and_eq_true, beq_iff_eq, beq_iff_eq] at hcheck
  exact ⟨c, w', hcompile, hcheck⟩

end SemanticLayer
